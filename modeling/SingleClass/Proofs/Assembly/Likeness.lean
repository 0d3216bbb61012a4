import SingleClass.Proofs.Assembly.Allocation
import SingleClass.Proofs.Assembly.Preservation
import SingleClass.Proofs.Lowering.ControlFlow
import SingleClass.Proofs.Lowering.Simulation
import SingleClass.Proofs.Lowering.SingleAssignment
set_option autoImplicit false

/-!
Assembly of like code. What the encoding of an instruction depends on is the types of its operands, so
where a method is assembled (`Supports`), one with the same declarations is too, if its instructions
are like those of the first and its temporaries no more.
-/

namespace SingleClass

/-- The second succeeds if the first does. -/
def Supports {A B : Type} (x : Except Failure A) (y : Except Failure B) : Prop :=
  (∃ a, x = .ok a) → ∃ b, y = .ok b

namespace Supports

variable {A B C D : Type}

theorem refl (x : Except Failure A) : Supports x x := id

theorem ok {x : Except Failure A} (b : B) : Supports x (.ok b) := fun _ => ⟨b, rfl⟩

theorem bind {x : Except Failure A} {y : Except Failure B} {f : A → Except Failure C}
    {g : B → Except Failure D} (h : Supports x y) (hf : ∀ a b, Supports (f a) (g b)) :
    Supports (x >>= f) (y >>= g) := by
  rintro ⟨c, hc⟩
  obtain ⟨a, ha, hfa⟩ := bind_eq_ok_iff.1 hc
  exact exists_bind (h ⟨a, ha⟩) fun b => hf a b ⟨c, hfa⟩

theorem rest {x : Except Failure A} {f : A → Except Failure B} {g : A → Except Failure C}
    (h : ∀ a, Supports (f a) (g a)) : Supports (x >>= f) (x >>= g) := by
  rintro ⟨b, hb⟩
  obtain ⟨a, ha, hfa⟩ := bind_eq_ok_iff.1 hb
  obtain ⟨c, hc⟩ := h a ⟨b, hfa⟩
  exact ⟨c, bind_eq_ok_iff.2 ⟨a, ha, hc⟩⟩

end Supports

namespace ClassCode

theorem supports_fieldType (c c' : ClassCode) (t : Ty) :
    Supports (c.fieldType t) (c'.fieldType t) := by
  unfold fieldType
  cases t.kind with
  | named n => exact .ok _
  | _ => exact .refl _

theorem supports_fieldTypes (c c' : ClassCode) (ts : List Ty) :
    Supports (c.fieldTypes ts) (c'.fieldTypes ts) := by
  induction ts with
  | nil => exact .ok _
  | cons t ts ih =>
    exact .bind (c.supports_fieldType c' t) fun _ _ => .bind ih fun _ _ => .ok _

theorem supports_methodType (c c' : ClassCode) (params : List Ty) (ret : Ty) :
    Supports (c.methodType params ret) (c'.methodType params ret) :=
  .bind (c.supports_fieldTypes c' params) fun _ _ =>
    .bind (c.supports_fieldType c' ret) fun _ _ => .ok _

end ClassCode

namespace Frame

structure Kin (f f' : Frame) : Prop where
  vars : ∀ n, Supports (f.registers.var n) (f'.registers.var n)
  isStatic : f'.registers.isStatic = f.registers.isStatic
  returnTy : f'.method.returnTy = f.method.returnTy

structure Equips (f : Frame) (i : Instr) : Prop where
  reads : ∀ t, .temp t ∈ i.operands → ∃ r, f.registers.temp t = .ok r
  writes : ∀ t ∈ i.defined?, ∃ r, f.registers.temp t = .ok r
  labels : ∀ l ∈ i.label?, f.method.labels.has l = true

variable {f f' : Frame}

theorem Kin.load (hf : f.Kin f') {o o' : Operand} (h : o.Like o')
    (ho : ∀ t, o' = .temp t → ∃ r, f'.registers.temp t = .ok r) :
    Supports (f.load o) (f'.load o') := by
  cases h with
  | temp hty =>
    refine .bind (fun _ => ho _ rfl) fun _ _ => .bind ?_ fun _ _ => .ok _
    exact congrArg Cell.of hty ▸ .refl _
  | @literal _ v _ => cases v <;> exact .ok _
  | refl =>
    cases o with
    | int _ | bool _ | null _ => exact .ok _
    | var n t => exact .bind (hf.vars n) fun _ _ => .bind (.refl _) fun _ _ => .ok _
    | temp t => exact .bind (fun _ => ho t rfl) fun _ _ => .bind (.refl _) fun _ _ => .ok _
    | this c =>
      refine .bind ?_ fun _ _ => .bind (.refl _) fun _ _ => .ok _
      simp only [Registers.operand, hf.isStatic]
      split
      · rintro ⟨_, h⟩
        cases h
      · exact .ok _

theorem Kin.loadAll (hf : f.Kin f') {os os' : List Operand} (h : List.Forall₂ Operand.Like os os')
    (hos : ∀ t, .temp t ∈ os' → ∃ r, f'.registers.temp t = .ok r) :
    Supports (f.loadAll os) (f'.loadAll os') := by
  induction h with
  | nil => exact .ok _
  | cons ho _ ih =>
    refine .bind (hf.load ho fun t ht => hos t (by simp [ht])) fun _ _ => ?_
    exact .bind (ih fun t ht => hos t (List.mem_cons_of_mem _ ht)) fun _ _ => .ok _

theorem supports_storeTemp {t t' : Temp} (hty : t'.ty = t.ty)
    (ht : ∃ r, f'.registers.temp t' = .ok r) : Supports (f.storeTemp t) (f'.storeTemp t') := by
  refine .bind (fun _ => ht) fun _ _ => .bind ?_ fun _ _ => .ok _
  exact congrArg Cell.of hty ▸ .refl _

theorem supports_operator (k k' : Nat) (op : BinaryOp) (l r : Ty) :
    Supports (operator k op l r) (operator k' op l r) := by
  unfold operator
  cases op.word? with
  | some w => exact .ok _
  | none => exact .rest fun _ => .rest fun _ => .ok _

theorem supports_allocate (t : Ty) : Supports (f.allocate t) (f'.allocate t) := by
  refine .rest fun c => ?_
  cases c with
  | int | bool => exact .ok _
  | object =>
    refine .bind (f.unit.supports_fieldType f'.unit t) fun _ _ _ => ?_
    split <;> exact ⟨_, rfl⟩

theorem Kin.call (hf : f.Kin f') {c c' : Call} (h : c.Like c') (he : f'.Equips (.call c')) :
    Supports (f.call c) (f'.call c') := by
  have hresult : Supports (f.result c.dest c.ret) (f'.result c'.dest c'.ret) := by
    cases hd' : c'.dest with
    | none => exact .ok _
    | some d' =>
      have hdest := h.dest
      rw [hd'] at hdest
      obtain ⟨d, hd, hty⟩ := Option.map_eq_some_iff.1 hdest.symm
      rw [hd]
      exact .bind (supports_storeTemp hty.symm (he.writes d' hd')) fun _ _ => .ok _
  refine .bind (hf.loadAll h.operands he.reads) fun _ _ => .bind ?_ fun _ _ =>
    .bind hresult fun _ _ => .ok _
  rw [h.params, h.ret]
  exact f.unit.supports_methodType f'.unit _ _

theorem Kin.select (hf : f.Kin f') {i i' : Instr} (h : i.Like i') (he : f'.Equips i') (k k' : Nat) :
    Supports (f.select k i) (f'.select k' i') := by
  have hload : ∀ {o o' : Operand}, o.Like o' → o' ∈ i'.operands → Supports (f.load o) (f'.load o') :=
    fun ho hmem => hf.load ho fun t ht => he.reads t (ht ▸ hmem)
  have hstore : ∀ {d d' : Temp}, d'.ty = d.ty → d' ∈ i'.defined? →
      Supports (f.storeTemp d) (f'.storeTemp d') :=
    fun hty hmem => supports_storeTemp hty (he.writes _ hmem)
  cases h with
  | assignVar hv =>
    refine .bind (hload hv (by simp [Instr.operands])) fun _ _ => .bind ?_ fun _ _ => .ok _
    exact .bind (hf.vars _) fun _ _ => .bind (.refl _) fun _ _ => .ok _
  | assignTemp ht hv =>
    exact .bind (hload hv (by simp [Instr.operands])) fun _ _ => .bind (hstore ht rfl) fun _ _ => .ok _
  | assignElement ha hj hv =>
    refine .bind (hf.loadAll (.cons ha (.cons hj (.cons hv .nil))) he.reads) fun _ _ =>
      .bind ?_ fun _ _ => .ok _
    rw [ha.ty_eq]
    exact .refl _
  | binary hd hl hr =>
    refine .bind (hf.loadAll (.cons hl (.cons hr .nil)) he.reads) fun _ _ => .bind ?_ fun _ _ =>
      .bind (hstore hd rfl) fun _ _ => .ok _
    rw [hl.ty_eq, hr.ty_eq]
    exact supports_operator k k' _ _ _
  | unary hd hv =>
    exact .bind (hload hv (by simp [Instr.operands])) fun _ _ => .bind (hstore hd rfl) fun _ _ => .ok _
  | call hc => exact hf.call hc he
  | new hd => exact .bind (hstore hd rfl) fun _ _ => .ok _
  | newArray hd hn =>
    exact .bind (hload hn (by simp [Instr.operands])) fun _ _ =>
      .bind (supports_allocate _) fun _ _ => .bind (hstore hd rfl) fun _ _ => .ok _
  | arrayLoad hd ha hj =>
    refine .bind (hf.loadAll (.cons ha (.cons hj .nil)) he.reads) fun _ _ => .bind ?_ fun _ _ =>
      .bind (hstore hd rfl) fun _ _ => .ok _
    rw [ha.ty_eq]
    exact .refl _
  | arrayLength hd ha =>
    exact .bind (hload ha (by simp [Instr.operands])) fun _ _ => .bind (hstore hd rfl) fun _ _ => .ok _
  | getField hd =>
    exact .bind (f.unit.supports_fieldType f'.unit _) fun _ _ => .bind (hstore hd rfl) fun _ _ => .ok _
  | putField hv =>
    exact .bind (hload hv (by simp [Instr.operands])) fun _ _ =>
      .bind (f.unit.supports_fieldType f'.unit _) fun _ _ => .ok _
  | retNone =>
    refine .bind (.ok _) fun _ _ => .bind ?_ fun _ _ => .ok _
    rw [hf.returnTy]
    exact .refl _
  | retSome hv =>
    refine .bind (hf.loadAll (.cons hv .nil) he.reads) fun _ _ => .bind ?_ fun _ _ => .ok _
    rw [hf.returnTy]
    exact .refl _
  | goto => exact .ok _
  | branch hc => exact .bind (hload hc (by simp [Instr.operands])) fun _ _ => .ok _
  | label =>
    rw [Frame.select, Frame.select, if_pos (he.labels _ rfl)]
    exact .ok _

theorem kin (hr : f.method.registers = .ok f.registers) (hr' : f'.method.registers = .ok f'.registers)
    (hparams : f'.method.params = f.method.params) (hlocals : f'.method.locals = f.method.locals)
    (hstatic : f'.method.isStatic = f.method.isStatic)
    (hreturn : f'.method.returnTy = f.method.returnTy) : f.Kin f' where
  vars := by
    intro n hn
    rw [MethodCode.exists_var_iff hr']
    rw [MethodCode.exists_var_iff hr] at hn
    rwa [hparams, hlocals]
  isStatic := by
    rw [(MethodCode.registers_spec hr).2.1, (MethodCode.registers_spec hr').2.1, hstatic]
  returnTy := hreturn

theorem exists_leave_of_fieldType {c : ClassCode} {t : Ty} {d : FieldType}
    (h : c.fieldType t = .ok d) : ∃ l, Line.leave t = .ok l := by
  obtain ⟨kind, isArray, isVararg⟩ := t
  cases kind <;> cases isArray <;>
    simp_all [ClassCode.fieldType, Line.leave, Cell.of, Ty.isVoid, Except.map]

theorem exists_selects_closing (hleave : ∃ l, Line.leave f.method.returnTy = .ok l) {ret : Ty}
    {code : List Instr} {i : Instr} (hi : i ∈ closing ret code) (k : Nat) :
    ∃ ls, f.Selects k i ls := by
  have hzero : ∃ l, f.load (.zero ret) = .ok l := by
    unfold Operand.zero
    split
    · exact ⟨_, rfl⟩
    · split <;> exact ⟨_, rfl⟩
  have hret : i = .ret none ∨ i = .ret (some (.zero ret)) := by
    unfold closing at hi
    split at hi <;> split at hi <;> simp_all
  obtain ⟨l, hl⟩ := hleave
  rcases hret with rfl | rfl
  · exact ⟨_, .ret rfl hl⟩
  · obtain ⟨z, hz⟩ := hzero
    exact ⟨_, .ret (loadAll_cons_eq_ok.2 ⟨z, [], hz, rfl, rfl⟩) hl⟩

end Frame

namespace Scope.LowersBody

variable {s : Scope} {ts ts' : List Stmt} {σ σ' τ τ' : Supply} {body body' : List Instr}

theorem registerCount (h : s.LowersBody ts σ body σ') :
    (s.methodCode body).registerCount + σ.temps = (s.methodCode body).firstRegister +
      ((s.method.params ++ s.method.locals).map (·.name)).toFinset.card + σ'.temps := by
  have hle := h.laid.temps.le
  have hids : ((definitions (s.methodCode body).instrs).map (·.id)).toFinset.card =
      σ'.temps - σ.temps := by
    rw [s.definitions_methodCode, List.toFinset_card_of_nodup h.laid.temps.nodup, h.laid.temps.ids,
      List.length_range']
  rw [MethodCode.registerCount_eq_slotCount, MethodCode.slotCount, hids]
  have hnames : (s.methodCode body).params ++ (s.methodCode body).locals =
      s.method.params ++ s.method.locals := rfl
  rw [hnames]
  omega

theorem mem_temps (h : s.LowersBody ts σ body σ') {i : Instr} {t : Temp}
    (hi : i ∈ (s.methodCode body).instrs) (ht : i.defined? = some t) :
    t ∈ (s.methodCode body).temps := by
  rw [h.temps_methodCode, ← s.definitions_methodCode]
  exact List.mem_filterMap.2 ⟨i, hi, ht⟩

theorem equips (h : s.LowersBody ts σ body σ') {f : Frame} (hf : f.method = s.methodCode body)
    (hr : f.method.registers = .ok f.registers) {i : Instr} (hi : i ∈ f.method.instrs) :
    f.Equips i := by
  rw [hf] at hi hr
  refine ⟨?_, ?_, ?_⟩
  · intro t ht
    obtain ⟨before, after, hcode⟩ := List.append_of_mem hi
    have hsupplied := h.supplied.append (supplied_closing s.method.returnTy.asValue body)
    obtain ⟨front, j, rest, rfl, hj, _⟩ := hsupplied before i after hcode t ht
    exact MethodCode.exists_temp hr (h.mem_temps (i := j) (by simp [hcode]) hj)
  · exact fun t ht => MethodCode.exists_temp hr (h.mem_temps hi ht)
  · intro l hl
    obtain ⟨k, hk⟩ := List.getElem?_of_mem hi
    have hlabel : i = .label l := by
      cases i <;> simp_all [Instr.label?]
    rw [hlabel] at hk
    rw [hf]
    exact LabelTable.has_of_position? ((h.controlled.table l k).2 hk)

theorem supports_assembleMethod (h : s.LowersBody ts σ body σ') (h' : s.LowersBody ts' τ body' τ')
    (hlike : LikeCode body body') (htemps : τ'.temps + σ.temps ≤ τ.temps + σ'.temps)
    (c c' : ClassCode) :
    Supports (c.assembleMethod (s.methodCode body)) (c'.assembleMethod (s.methodCode body')) := by
  rintro ⟨a, ha⟩
  simp only [ClassCode.assembleMethod, ClassCode.frame, bind_eq_ok_iff, pure_eq_ok_iff] at ha
  obtain ⟨_, ⟨r, hr, rfl⟩, t, ht, blocks, hblocks, rfl⟩ := ha
  have hcount : (s.methodCode body').registerCount ≤ registerLimit := by
    have hle := MethodCode.exists_registers_iff.1 ⟨r, hr⟩
    have hfirst : (s.methodCode body').firstRegister = (s.methodCode body).firstRegister := rfl
    have heq := h.registerCount
    have heq' := h'.registerCount
    omega
  obtain ⟨r', hr'⟩ := MethodCode.exists_registers_iff.2 hcount
  have hkin : Frame.Kin ⟨c, s.methodCode body, r⟩ ⟨c', s.methodCode body', r'⟩ :=
    Frame.kin hr hr' rfl rfl rfl rfl
  obtain ⟨t', ht'⟩ := c.supports_methodType c' _ _ ⟨t, ht⟩
  have hleave : ∃ l, Line.leave s.method.returnTy = .ok l := by
    obtain ⟨_, _, _, hd, _⟩ := ClassCode.methodType_eq_ok ht
    exact Frame.exists_leave_of_fieldType hd
  have hselect : ∀ i ∈ (s.methodCode body').instrs, ∀ k,
      ∃ ls, Frame.Selects ⟨c', s.methodCode body', r'⟩ k i ls := by
    intro i' hi' k'
    rcases List.mem_append.1 hi' with hbody | hclosing
    · obtain ⟨i, hi, hii⟩ := hlike i' hbody
      obtain ⟨j, hj⟩ := List.getElem?_of_mem (List.mem_append_left _ hi)
      obtain ⟨k, ls, _, hls⟩ := Frame.exists_selects hblocks hj
      obtain ⟨ls', hls'⟩ := hkin.select hii (h'.equips rfl hr' hi') k k' ⟨ls, hls.select_eq_ok⟩
      exact ⟨ls', Frame.select_eq_ok_iff.1 hls'⟩
    · exact Frame.exists_selects_closing hleave hclosing k'
  obtain ⟨blocks', hblocks'⟩ := Frame.exists_blocks hselect 0
  exact ⟨_, bind_eq_ok_iff.2 ⟨_, bind_eq_ok_iff.2 ⟨r', hr', rfl⟩,
    bind_eq_ok_iff.2 ⟨t', ht', bind_eq_ok_iff.2 ⟨blocks', hblocks', rfl⟩⟩⟩⟩

end Scope.LowersBody

namespace ClassCode

theorem supports_assembleFields (c c' : ClassCode) (fs : List Symbol) :
    Supports (c.assembleFields fs) (c'.assembleFields fs) := by
  induction fs with
  | nil => exact .ok _
  | cons v vs ih => exact .bind (c.supports_fieldType c' v.ty) fun _ _ => .bind ih fun _ _ => .ok _

theorem supports_assembleMethods (c c' : ClassCode) {ms ms' : List MethodCode}
    (h : List.Forall₂ (fun m m' => ∀ c c' : ClassCode,
      Supports (c.assembleMethod m) (c'.assembleMethod m')) ms ms') :
    Supports (c.assembleMethods ms) (c'.assembleMethods ms') := by
  induction h with
  | nil => exact .ok _
  | cons hm _ ih => exact .bind (hm c c') fun _ _ => .bind ih fun _ _ => .ok _

end ClassCode

theorem Symbols.supports_assemble (S : Symbols) {ms ms' : List MethodCode}
    (h : List.Forall₂ (fun m m' => ∀ c c' : ClassCode,
      Supports (c.assembleMethod m) (c'.assembleMethod m')) ms ms') :
    Supports (S.classCode ms).assemble (S.classCode ms').assemble :=
  .bind ((S.classCode ms).supports_assembleFields _ S.fields) fun _ _ =>
    .bind ((S.classCode ms).supports_assembleMethods _ h) fun _ _ => .ok _

end SingleClass
