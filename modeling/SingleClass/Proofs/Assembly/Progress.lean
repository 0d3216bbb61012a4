import Mathlib.Data.Finset.Card
import SingleClass.Assembly.Class
import SingleClass.Proofs.Assembly.Selection
set_option autoImplicit false

/-!
Assembly succeeds on typed code that has registers enough: every operand and every variable has a
register, every type that occurs has an encoding, and every label is in the table of the method.
-/

namespace SingleClass

/-- How many registers a method needs: one for each of its slots, and one for its receiver. -/
def MethodCode.registerCount (m : MethodCode) : Nat :=
  (if m.isStatic then 0 else 1) + m.slots.toFinset.card

theorem Slot.length_firsts (slots : List Slot) : (Slot.firsts slots).length = slots.toFinset.card := by
  rw [← List.toFinset_card_of_nodup (Slot.nodup_firsts slots)]
  congr 1
  ext s
  simp

theorem MethodCode.exists_registers_iff {m : MethodCode} :
    (∃ r, m.registers = .ok r) ↔ m.registerCount ≤ registerLimit := by
  have hstart : (Registers.start m.isStatic).next + ([] : List Slot).length ≤ registerLimit := by
    cases m.isStatic <;> decide
  rw [MethodCode.registers, (Registers.numbers_start m.isStatic).exists_assignAll_iff hstart]
  exact iff_of_eq (congrArg (fun n => _ + n ≤ registerLimit) (Slot.length_firsts m.slots))

theorem Cell.exists_of {t : Ty} (hescape : t.isEscape = false) (hvoid : t.isVoid = false) :
    ∃ c, Cell.of t = .ok c := by
  obtain ⟨kind, isArray, isVararg⟩ := t
  cases isArray <;> cases kind <;> simp_all [Cell.of, Ty.isEscape, Ty.isVoid]

theorem ClassCode.exists_fieldType (code : ClassCode) {t : Ty} (hescape : t.isEscape = false)
    (hvoid : t.isVoid = true → t.isArray = false) : ∃ d, code.fieldType t = .ok d := by
  obtain ⟨kind, isArray, isVararg⟩ := t
  cases kind <;> simp_all [ClassCode.fieldType, Ty.isEscape, Ty.isVoid]

theorem ClassCode.exists_fieldTypes (code : ClassCode) {ts : List Ty}
    (h : ∀ t ∈ ts, t.isEscape = false ∧ t.isVoid = false) : ∃ ds, code.fieldTypes ts = .ok ds := by
  induction ts with
  | nil => exact ⟨[], rfl⟩
  | cons t ts ih =>
    obtain ⟨ht, hts⟩ := List.forall_mem_cons.1 h
    rw [fieldTypes]
    exact exists_bind (code.exists_fieldType ht.1 (by simp [ht.2])) fun d =>
      exists_bind (ih hts) fun ds => ⟨_, rfl⟩

theorem ClassCode.exists_methodType (code : ClassCode) {params : List Ty} {ret : Ty}
    (hparams : ∀ t ∈ params, t.isEscape = false ∧ t.isVoid = false) (hescape : ret.isEscape = false)
    (hvoid : ret.isVoid = true → ret.isArray = false) :
    ∃ d, code.methodType params ret = .ok d := by
  exact exists_bind (code.exists_fieldTypes hparams) fun ps =>
    exists_bind (code.exists_fieldType hescape hvoid) fun r => ⟨_, rfl⟩

theorem BinaryOp.scalar_resultTy (op : BinaryOp) :
    op.resultTy.isEscape = false ∧ op.resultTy.isVoid = false := by
  unfold BinaryOp.resultTy
  split <;> exact ⟨rfl, rfl⟩

theorem BinaryOp.exists_test_of_equality {op : BinaryOp} (h : op.family = .equality) (c : Cell) :
    ∃ t, op.test c = .ok t := by
  cases op <;> cases c <;> simp_all [BinaryOp.family, BinaryOp.test]

theorem LabelTable.has_of_position? {t : LabelTable} {l : Label} {k : Nat}
    (h : t.position? l = some k) : t.has l = true := by
  obtain ⟨e, he, _⟩ := Option.map_eq_some_iff.1 h
  exact List.any_eq_true.2 ⟨e, List.mem_of_find?_eq_some he, by simpa using List.find?_some he⟩

def Symbols.ReturnsEncodable (S : Symbols) : Prop :=
  ∀ m ∈ S.methods, m.returnTy.isVoid = true → m.returnTy.isArray = false

namespace Frame

section

variable {f : Frame} {s : Scope} {V : Prop} {k : Nat}

theorem InOrder.exists_var (hf : f.InOrder s V) {n : String} {b : Binding}
    (hb : s.lookup n = some b) (hfield : b.isField = false) : ∃ r, f.registers.var n = .ok r := by
  obtain ⟨hmem, hname⟩ := MethodCode.mem_of_var? (hf.var?_eq hb hfield)
  exact (MethodCode.exists_var_iff hf.registers).2 ⟨_, hmem, hname⟩

theorem InOrder.exists_operand (hf : f.InOrder s V) {o : Operand} {t : Ty}
    (ho : s.TypedOperand f.method.temps o t) : ∃ l, f.load o = .ok l := by
  obtain ⟨hty, hescape, hvoid⟩ := ho.scalar hf.typed.closed
  have hcell : ∃ c, Cell.of o.ty = .ok c := by
    rw [← hty] at hescape hvoid
    exact Cell.exists_of hescape hvoid
  cases ho with
  | int | bool | null _ _ _ => exact ⟨_, rfl⟩
  | var hb hfield =>
    exact exists_bind (hf.exists_var hb hfield) fun r => exists_bind hcell fun c => ⟨_, rfl⟩
  | temp hd _ _ =>
    exact exists_bind (MethodCode.exists_temp hf.registers hd) fun r =>
      exists_bind hcell fun c => ⟨_, rfl⟩
  | this hstatic =>
    have hr : f.registers.isStatic = false :=
      (MethodCode.registers_spec hf.registers).2.1.trans (hf.typed.isStatic.trans hstatic)
    have hthis : ∃ r, f.registers.operand s.thisOperand = .ok r :=
      ⟨0, by simp [Scope.thisOperand, Registers.operand, hr]⟩
    exact exists_bind hthis fun r => exists_bind hcell fun c => ⟨_, rfl⟩

theorem InOrder.exists_operands (hf : f.InOrder s V) {os : List Operand}
    (h : ∀ o ∈ os, ∃ t, s.TypedOperand f.method.temps o t) : ∃ ls, f.loadAll os = .ok ls := by
  induction os with
  | nil => exact ⟨[], rfl⟩
  | cons o os ih =>
    obtain ⟨⟨t, ho⟩, hos⟩ := List.forall_mem_cons.1 h
    rw [loadAll]
    exact exists_bind (hf.exists_operand ho) fun l => exists_bind (ih hos) fun ls => ⟨_, rfl⟩

theorem InOrder.exists_storeTemp (hf : f.InOrder s V) {d : Temp} (hd : d ∈ f.method.temps)
    (hescape : d.ty.isEscape = false) (hvoid : d.ty.isVoid = false) :
    ∃ l, f.storeTemp d = .ok l := by
  exact exists_bind (MethodCode.exists_temp hf.registers hd) fun r =>
    exists_bind (Cell.exists_of hescape hvoid) fun c => ⟨_, rfl⟩

theorem exists_operator (k : Nat) {op : BinaryOp} {l r t : Ty} (hop : op.Takes t)
    (hl : l.asValue = t) (hescape : t.isEscape = false) : ∃ ls, operator k op l r = .ok ls := by
  unfold operator
  cases hw : op.word? with
  | some w => exact ⟨_, rfl⟩
  | none =>
    have hcompared : ∃ c, Cell.compared op l r = .ok c ∧ ∃ t, op.test c = .ok t := by
      obtain ⟨cl, hcl⟩ : ∃ c, Cell.of l = .ok c := by
        have hvoid := hop.scalar.2
        rw [← hl] at hescape hvoid
        exact Cell.exists_of hescape hvoid
      cases hfamily : op.family with
      | equality =>
        unfold Cell.compared
        split
        · exact ⟨_, rfl, op.exists_test_of_equality hfamily _⟩
        · exact ⟨cl, hcl, op.exists_test_of_equality hfamily _⟩
      | arithmetic | logical => cases op <;> simp_all [BinaryOp.word?, BinaryOp.family]
      | ordering =>
        -- order is for ints, which have a test for each operator
        have ht : t = .int := by simpa [BinaryOp.Takes, hfamily] using hop
        have hint : Cell.of l = .ok .int := by
          obtain ⟨kind, isArray, isVararg⟩ := l
          simp_all [Ty.asValue, Ty.int, Cell.of]
        refine ⟨.int, by simp [Cell.compared, hfamily, hint], ?_⟩
        cases op <;> simp_all [BinaryOp.family, BinaryOp.test]
    obtain ⟨c, hc, t, ht⟩ := hcompared
    simp only [hc, ht, bind, Except.bind]
    exact ⟨_, rfl⟩

theorem exists_allocate (f : Frame) {element : Ty} (hescape : element.isEscape = false)
    (hvoid : element.isVoid = false) : ∃ l, f.allocate element = .ok l := by
  obtain ⟨c, hc⟩ := Cell.exists_of hescape hvoid
  obtain ⟨d, hd⟩ := f.unit.exists_fieldType hescape (by simp [hvoid])
  unfold allocate
  rw [hc]
  cases c with
  | int | bool => exact ⟨_, rfl⟩
  | object =>
    simp only [hd, bind, Except.bind]
    split <;> exact ⟨_, rfl⟩

theorem exists_type_of_mem {D : List Temp} {os : List Operand} {ts : List Ty}
    (h : List.Forall₂ (s.TypedOperand D) os ts) : ∀ o ∈ os, ∃ t, s.TypedOperand D o t := by
  induction h with
  | nil => simp
  | cons ho _ ih => exact List.forall_mem_cons.2 ⟨⟨_, ho⟩, ih⟩

theorem exists_element {D : List Temp} (hs : s.Closed) {a : Operand} {t : Ty}
    (ha : s.TypedOperand D a t) : ∃ c, Cell.of a.ty.element = .ok c := by
  obtain ⟨hty, hescape, hvoid⟩ := ha.scalar hs
  rw [← hty] at hescape hvoid
  exact Cell.exists_of hescape hvoid

theorem exists_leave {t : Ty} (hescape : t.isEscape = false)
    (hvoid : t.isVoid = true → t.isArray = false) : ∃ l, Line.leave t = .ok l := by
  unfold Line.leave
  split
  · exact ⟨_, rfl⟩
  · rename_i hleave
    have hvoid : t.isVoid = false := by
      cases hv : t.isVoid with
      | false => rfl
      | true => simp [hv, hvoid hv] at hleave
    obtain ⟨c, hc⟩ := Cell.exists_of hescape hvoid
    exact ⟨_, by rw [hc]; rfl⟩

theorem InOrder.exists_call (hf : f.InOrder s V) (hS : s.symbols.ReturnsEncodable) {c : Call}
    (hc : s.TypedCall f.method.temps c) (hd : ∀ d ∈ c.dest, d ∈ f.method.temps) :
    ∃ ls, f.Selects k (.call c) ls := by
  have hargs : ∀ o ∈ c.receiver.toList ++ c.args, ∃ t, s.TypedOperand f.method.temps o t := by
    obtain ⟨o, ho, htyped⟩ := hc.receiver
    rw [ho, List.forall_mem_append]
    exact ⟨by simpa using ⟨_, htyped⟩, exists_type_of_mem hc.args⟩
  have hret : c.ret.isEscape = false ∧ (c.ret.isVoid = true → c.ret.isArray = false) := by
    rcases hc.ret with hvoid | ⟨m, hm, hret⟩
    · rw [hvoid]
      exact ⟨rfl, fun _ => rfl⟩
    · rw [← hret]
      exact ⟨(hf.typed.closed.symbols.methods m hm).returnTy.isEscape, hS m hm⟩
  have hresult : ∃ ls, f.result c.dest c.ret = .ok ls := by
    unfold result
    cases hdest : c.dest with
    | none => exact ⟨_, rfl⟩
    | some d =>
      obtain ⟨hty, hvoid⟩ := hc.dest d hdest
      rw [← hty] at hret hvoid
      exact exists_bind (hf.exists_storeTemp (hd d hdest) hret.1 hvoid) fun l => ⟨_, rfl⟩
  obtain ⟨ls, hls⟩ := hf.exists_operands hargs
  obtain ⟨t, ht⟩ := f.unit.exists_methodType (hc.params hf.typed.closed) hret.1 hret.2
  obtain ⟨rs, hrs⟩ := hresult
  exact ⟨_, .call hls ht hrs⟩

/-- Every instruction of a method in order is selected. -/
theorem InOrder.exists_lines (hf : f.InOrder s False) (hS : s.symbols.ReturnsEncodable)
    (hm : s.method ∈ s.symbols.methods) (k : Nat) {i : Instr} (hi : i ∈ f.method.instrs) :
    ∃ ls, f.Selects k i ls := by
  have hdefined := hf.typed.defined i hi
  have hclosed := hf.typed.closed
  have hstore : ∀ {d : Temp}, i.defined? = some d → d.ty.isEscape = false → d.ty.isVoid = false →
      ∃ l, f.storeTemp d = .ok l := fun hd => hf.exists_storeTemp (hdefined _ hd)
  have hleave : ∃ l, Line.leave f.method.returnTy = .ok l := by
    rw [hf.typed.returnTy]
    exact exists_leave hclosed.method.returnTy.isEscape (hS _ hm)
  cases hf.typed.code i hi with
  | @assignVar n b v hb hfield hv =>
    have hadmits := hclosed.lookup_admits hb
    have hcell : ∃ c, Cell.of b.symbol.ty.asValue = .ok c :=
      Cell.exists_of hadmits.declared.isEscape hadmits.isVoid
    have hstoreVar : ∃ l, f.storeVar n b.symbol.ty.asValue = .ok l :=
      exists_bind (hf.exists_var hb hfield) fun r => exists_bind hcell fun c => ⟨_, rfl⟩
    obtain ⟨l, hl⟩ := hf.exists_operand hv
    obtain ⟨st, hst⟩ := hstoreVar
    exact ⟨_, .assignVar hl hst⟩
  | @assignElement a j v t ha harray hj hv =>
    obtain ⟨ls, hls⟩ : ∃ ls, f.loadAll [a, j, v] = .ok ls :=
      hf.exists_operands (by simpa using ⟨⟨_, ha⟩, ⟨_, hj⟩, ⟨_, hv⟩⟩)
    obtain ⟨c, hc⟩ := exists_element hclosed ha
    exact ⟨_, .assignElement hls hc⟩
  | @binary d op l r t hop hl hr hd =>
    obtain ⟨hlty, hescape, _⟩ := hl.scalar hclosed
    obtain ⟨hdescape, hdvoid⟩ := op.scalar_resultTy
    obtain ⟨ls, hls⟩ : ∃ ls, f.loadAll [l, r] = .ok ls :=
      hf.exists_operands (by simpa using ⟨⟨_, hl⟩, ⟨_, hr⟩⟩)
    obtain ⟨os, hos⟩ := exists_operator k hop hlty hescape
    obtain ⟨st, hst⟩ := hstore rfl (hd ▸ hdescape) (hd ▸ hdvoid)
    exact ⟨_, .binary hls hos hst⟩
  | @unary d op o ho hd =>
    obtain ⟨l, hl⟩ := hf.exists_operand ho
    obtain ⟨st, hst⟩ := hstore rfl (hd ▸ op.declared_ty.isEscape) (hd ▸ op.scalar_ty.2)
    exact ⟨_, .unary hl hst⟩
  | call hc => exact hf.exists_call hS hc hdefined
  | new hd =>
    obtain ⟨st, hst⟩ := hstore rfl (hd ▸ rfl) (hd ▸ rfl)
    exact ⟨_, .new hst⟩
  | @newArray d element size hd helement hescape _ hvoid hsize =>
    have hvoid : element.isVoid = false := Bool.eq_false_iff.2 hvoid
    obtain ⟨l, hl⟩ := hf.exists_operand hsize
    obtain ⟨a, ha⟩ := f.exists_allocate hescape hvoid
    obtain ⟨st, hst⟩ := hstore rfl (hd ▸ hescape) (hd ▸ hvoid)
    exact ⟨_, .newArray hl ha hst⟩
  | @arrayLoad d a j t ha harray hj hd =>
    obtain ⟨_, hescape, hvoid⟩ := ha.scalar hclosed
    obtain ⟨ls, hls⟩ : ∃ ls, f.loadAll [a, j] = .ok ls :=
      hf.exists_operands (by simpa using ⟨⟨_, ha⟩, ⟨_, hj⟩⟩)
    obtain ⟨c, hc⟩ := exists_element hclosed ha
    obtain ⟨st, hst⟩ := hstore rfl (hd ▸ hescape) (hd ▸ hvoid)
    exact ⟨_, .arrayLoad hls hc hst⟩
  | arrayLength ha harray hd =>
    obtain ⟨l, hl⟩ := hf.exists_operand ha
    obtain ⟨st, hst⟩ := hstore rfl (hd ▸ rfl) (hd ▸ rfl)
    exact ⟨_, .arrayLength hl hst⟩
  | @getField d field hfield hstatic hd =>
    have hadmits := hclosed.symbols.fields field hfield
    have hescape : field.ty.asValue.isEscape = false := hadmits.declared.isEscape
    have hvoid : field.ty.asValue.isVoid = false := hadmits.isVoid
    obtain ⟨t, ht⟩ := f.unit.exists_fieldType hescape (by simp [hvoid])
    obtain ⟨st, hst⟩ := hstore rfl (hd ▸ hescape) (hd ▸ hvoid)
    exact ⟨_, .getField ht hst⟩
  | putField _ hstatic hv =>
    obtain ⟨_, hescape, hvoid⟩ := hv.scalar hclosed
    obtain ⟨l, hl⟩ := hf.exists_operand hv
    obtain ⟨t, ht⟩ := f.unit.exists_fieldType hescape (by simp [hvoid])
    exact ⟨_, .putField hl ht⟩
  | retNone hvoid =>
    obtain ⟨l, hl⟩ := hleave
    exact ⟨_, .ret rfl hl⟩
  | @retSome v hvoid hv =>
    obtain ⟨ls, hls⟩ : ∃ ls, f.loadAll [v] = .ok ls := hf.exists_operands (by simpa using ⟨_, hv⟩)
    obtain ⟨l, hl⟩ := hleave
    exact ⟨_, .ret hls hl⟩
  | goto => exact ⟨_, .goto⟩
  | branch hc =>
    obtain ⟨l, hl⟩ := hf.exists_operand hc
    exact ⟨_, .branch hl⟩
  | @label l =>
    obtain ⟨k, hk⟩ := List.getElem?_of_mem hi
    have hposition := LabelTable.position?_ofInstrs hf.typed.markers hk
    rw [← hf.typed.labels] at hposition
    exact ⟨_, .label (LabelTable.has_of_position? hposition)⟩

theorem exists_blocks {is : List Instr} (h : ∀ i ∈ is, ∀ k, ∃ ls, f.Selects k i ls) (k : Nat) :
    ∃ blocks, f.selectAll k is = .ok blocks := by
  induction is generalizing k with
  | nil => exact ⟨[], rfl⟩
  | cons i is ih =>
    obtain ⟨hi, his⟩ := List.forall_mem_cons.1 h
    obtain ⟨ls, hls⟩ := hi k
    obtain ⟨rest, hrest⟩ := ih his (k + comparisons i)
    exact ⟨_, selectAll_cons_eq_ok.2 ⟨ls, rest, hls, hrest, rfl⟩⟩

end

end Frame

namespace ClassCode

theorem exists_assembleMethod {code : ClassCode} (himports : code.imports = []) {m : MethodCode}
    {s : Scope} (hm : m.Typed s False) (hS : s.symbols.ReturnsEncodable)
    (hs : s.method ∈ s.symbols.methods) (hregisters : m.registerCount ≤ registerLimit) :
    ∃ a, code.assembleMethod m = .ok a := by
  obtain ⟨r, hr⟩ := MethodCode.exists_registers_iff.2 hregisters
  have hframe : code.frame m = .ok ⟨code, m, r⟩ := by
    unfold frame
    rw [hr]
    rfl
  have horder : Frame.InOrder ⟨code, m, r⟩ s False := ⟨hm, hr, himports⟩
  have hparams : ∀ t ∈ m.paramTys, t.isEscape = false ∧ t.isVoid = false := by
    unfold MethodCode.paramTys
    rw [hm.params]
    intro t ht
    obtain ⟨v, hv, rfl⟩ := List.mem_map.1 ht
    have hadmits := hm.closed.method.params v hv
    exact ⟨hadmits.declared.isEscape, hadmits.isVoid⟩
  have htype : ∃ t, code.methodType m.paramTys m.returnTy = .ok t := by
    rw [hm.returnTy]
    exact code.exists_methodType hparams hm.closed.method.returnTy.isEscape (hS _ hs)
  obtain ⟨t, ht⟩ := htype
  obtain ⟨blocks, hblocks⟩ :=
    Frame.exists_blocks (fun i hi k => horder.exists_lines hS hs k hi) 0
  exact ⟨_, bind_eq_ok_iff.2 ⟨_, hframe, bind_eq_ok_iff.2 ⟨t, ht,
    bind_eq_ok_iff.2 ⟨blocks, hblocks, rfl⟩⟩⟩⟩

theorem exists_assembleMethods {code : ClassCode} {ms : List MethodCode}
    (h : ∀ m ∈ ms, ∃ a, code.assembleMethod m = .ok a) :
    ∃ as, code.assembleMethods ms = .ok as := by
  induction ms with
  | nil => exact ⟨[], rfl⟩
  | cons m ms ih =>
    obtain ⟨hm, hms⟩ := List.forall_mem_cons.1 h
    rw [assembleMethods]
    exact exists_bind hm fun a => exists_bind (ih hms) fun as => ⟨_, rfl⟩

theorem exists_assembleFields {code : ClassCode} {S : Symbols} {fs : List Symbol}
    (h : ∀ v ∈ fs, S.Admits v) : ∃ ts, code.assembleFields fs = .ok ts := by
  induction fs with
  | nil => exact ⟨[], rfl⟩
  | cons v vs ih =>
    obtain ⟨hv, hvs⟩ := List.forall_mem_cons.1 h
    rw [assembleFields]
    exact exists_bind (code.exists_fieldType hv.declared.isEscape (by simp [hv.isVoid])) fun t =>
      exists_bind (ih hvs) fun ts => ⟨_, rfl⟩

end ClassCode

theorem Symbols.exists_assemble {S : Symbols} (hS : S.Closed) (hreturns : S.ReturnsEncodable)
    {p : Program} (h : ∀ d ∈ p.paired S, Scope.Ready ⟨S, d.2⟩ d.1.body) {σ σ' : Supply}
    {code : ClassCode} (hl : S.lower p σ = .ok code σ')
    (hregisters : ∀ m ∈ code.methods, m.registerCount ≤ registerLimit) :
    ∃ a, code.assemble = .ok a := by
  obtain ⟨ms, hms, rfl⟩ := Symbols.lower_eq_ok_iff.1 hl
  have hmethods : ∀ m ∈ ms, ∃ a, (S.classCode ms).assembleMethod m = .ok a := by
    intro m hm
    obtain ⟨d, sig, σ₁, σ₂, body, hmem, hb, rfl⟩ := hms.of_mem hm
    have hready := h (d, sig) hmem
    have hvoid : Scope.VoidArrays False (Stmt.nodesOf d.body) := by
      intro u size p hn hvoid
      simpa [Node.inLimits, Expr.inLimits, hvoid] using hready.limits _ hn
    exact ClassCode.exists_assembleMethod hS.imports
      (hready.closed.typed_methodCode hready.accepts hb hvoid) hreturns
      (List.of_mem_zip hmem).2 (hregisters _ hm)
  exact exists_bind (ClassCode.exists_assembleFields hS.fields) fun ts =>
    exists_bind (ClassCode.exists_assembleMethods hmethods) fun as => ⟨_, rfl⟩

end SingleClass
