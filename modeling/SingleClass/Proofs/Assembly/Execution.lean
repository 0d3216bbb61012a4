import SingleClass.Proofs.Assembly.Preservation
import SingleClass.Proofs.Assembly.Reading
set_option autoImplicit false

/-!
The text of a method runs as its code does. Where names are words without the marks of paths and
descriptors, every selected line can be read, so a machine that has only the text goes through the same
states as one that has the lines (`Program.machine_follows_code`).
-/

namespace SingleClass

/-- A name that can be told from what stands around it in a line. -/
structure IsName (n : String) : Prop extends IsWord n where
  marks : ∀ c ∈ ['/', ';', '('], c ∉ n.toList

instance : DecidablePred IsName := fun n =>
  decidable_of_iff (IsWord n ∧ (['/', ';', '('].all fun c => c ∉ n.toList) = true)
    ⟨fun h => ⟨h.1, by simpa using h.2⟩, fun h => ⟨h.toIsWord, by simpa using h.marks⟩⟩

structure Symbols.Legible (S : Symbols) : Prop where
  className : IsName S.className
  fields : ∀ f ∈ S.fields, IsName f.name
  methods : ∀ m ∈ S.methods, IsName m.name

theorem ClassCode.internalName_of_imports {c : ClassCode} (h : c.imports = []) (n : String) :
    c.internalName n = n := by
  simp [internalName, SingleClass.internalName, findImport, h]

theorem ClassCode.legible_fieldType {c : ClassCode} {S : Symbols} (hS : S.Closed)
    (hname : IsName S.className) (himports : c.imports = []) {t : Ty} {d : FieldType}
    (hk : S.isKnown t = true) (h : c.fieldType t = .ok d) : d.Legible := by
  have hobject : ∀ {n : String}, ';' ∉ n.toList → IsWord n →
      FieldType.Legible ⟨t.isArray, .object n⟩ := by
    intro n hn hword
    exact ⟨⟨hn, by simp⟩, by simp [hword]⟩
  unfold fieldType at h
  cases hkind : t.kind with
  | int | boolean =>
    rw [hkind] at h
    cases h
    exact ⟨⟨trivial, by simp⟩, by simp⟩
  | string =>
    rw [hkind] at h
    cases h
    exact hobject (by decide) (by decide)
  | named n =>
    rw [hkind] at h
    cases h
    obtain rfl := hS.eq_className_of_isKnown hkind hk
    rw [internalName_of_imports himports]
    exact hobject (hname.marks _ (by simp)) hname.toIsWord
  | void =>
    rw [hkind] at h
    dsimp only at h
    split at h
    · cases h
    · cases h
      exact ⟨⟨trivial, by simp⟩, by simp⟩
  | external | indeterminate =>
    rw [hkind] at h
    cases h

theorem ClassCode.legible_methodType {c : ClassCode} {S : Symbols} (hS : S.Closed)
    (hname : IsName S.className) (himports : c.imports = []) {params : List Ty} {ret : Ty}
    {t : MethodType} (hparams : ∀ u ∈ params, S.isKnown u = true) (hret : S.isKnown ret = true)
    (h : c.methodType params ret = .ok t) : t.Legible := by
  obtain ⟨ps, r, hps, hr, rfl⟩ := methodType_eq_ok h
  refine ⟨?_, legible_fieldType hS hname himports hret hr⟩
  clear h
  induction params generalizing ps with
  | nil =>
    cases hps
    simp
  | cons u us ih =>
    obtain ⟨hu, hus⟩ := List.forall_mem_cons.1 hparams
    simp only [fieldTypes, bind_eq_ok_iff, pure_eq_ok_iff] at hps
    obtain ⟨d, hd, ds, hds, rfl⟩ := hps
    exact List.forall_mem_cons.2 ⟨legible_fieldType hS hname himports hu hd, ih hus ds hds⟩

theorem Label.isWord_of_structure {l : Label} (h : l.kind ∈ structureKinds) : IsWord l.kind := by
  have hkinds : ∀ k ∈ structureKinds, IsWord k := by decide
  exact hkinds _ h

namespace Frame

variable {f : Frame} {s : Scope} {V : Prop} {k : Nat}

theorem legible_load {o : Operand} {l : Line} (h : f.load o = .ok l) : l.Legible := by
  rcases load_cases h with ⟨v, rfl⟩ | rfl | ⟨n, c, _, rfl⟩ <;> trivial

theorem legible_loadAll {os : List Operand} {ls : List Line} (h : f.loadAll os = .ok ls) :
    ∀ l ∈ ls, l.Legible := by
  induction os generalizing ls with
  | nil =>
    cases h
    simp
  | cons o os ih =>
    obtain ⟨l, ls, hl, hls, rfl⟩ := loadAll_cons_eq_ok.1 h
    exact List.forall_mem_cons.2 ⟨legible_load hl, ih hls⟩

theorem legible_storeTemp {d : Temp} {l : Line} (h : f.storeTemp d = .ok l) : l.Legible := by
  obtain ⟨n, c, _, _, rfl⟩ := storeTemp_eq_ok h
  trivial

theorem legible_result {dest : Option Temp} {ret : Ty} {ls : List Line}
    (h : f.result dest ret = .ok ls) : ∀ l ∈ ls, l.Legible := by
  rcases result_cases h with ⟨d, s, _, hs, rfl⟩ | ⟨_, rfl⟩
  · exact List.forall_mem_singleton.2 (legible_storeTemp hs)
  · split
    · simp
    · exact List.forall_mem_singleton.2 trivial

theorem legible_operator {op : BinaryOp} {lt rt : Ty} {ls : List Line}
    (h : operator k op lt rt = .ok ls) : ∀ l ∈ ls, l.Legible := by
  have htrue : IsWord "cmp_true" := by decide
  have hend : IsWord "cmp_end" := by decide
  rcases operator_cases h with ⟨w, _, rfl⟩ | ⟨_, c, t, _, _, rfl⟩
  · exact List.forall_mem_singleton.2 trivial
  · simp [compareLines, Line.Legible, htrue, hend]

theorem InOrder.legible_allocate (hf : f.InOrder s V) (hname : IsName s.symbols.className)
    {element : Ty} {l : Line}
    (hknown : s.symbols.isKnown element = true) (h : f.allocate element = .ok l) : l.Legible := by
  simp only [allocate, bind_eq_ok_iff] at h
  obtain ⟨c, _, h⟩ := h
  cases c with
  | int | bool =>
    cases h
    trivial
  | object =>
    simp only [bind_eq_ok_iff] at h
    obtain ⟨t, ht, h⟩ := h
    have hlegible := ClassCode.legible_fieldType hf.typed.closed.symbols hname hf.imports hknown ht
    split at h
    · next hbase =>
      cases h
      exact hlegible.word _ hbase
    · cases h
      exact hlegible.isWord

theorem InOrder.legible_access (hf : f.InOrder s V) (hS : s.symbols.Legible)
    (hunit : f.unit.name = s.symbols.className) {field : Symbol} (hfield : field ∈ s.symbols.fields)
    {t : FieldType} (ht : f.unit.fieldType field.ty.asValue = .ok t) :
    IsWord f.unit.name ∧ IsWord field.name ∧ '/' ∉ field.name.toList ∧ t.Legible := by
  have hown := hS.fields field hfield
  have hclosed := hf.typed.closed.symbols
  have hknown : s.symbols.isKnown field.ty.asValue = true := (hclosed.fields field hfield).isKnown
  rw [hunit]
  exact ⟨hS.className.toIsWord, hown.toIsWord, hown.marks _ (by simp),
    ClassCode.legible_fieldType hclosed hS.className hf.imports hknown ht⟩

theorem InOrder.legible_invoke (hf : f.InOrder s V) (hS : s.symbols.Legible) {c : Call}
    (hc : s.TypedCall f.method.temps c) {t : MethodType}
    (ht : f.unit.methodType c.params c.ret = .ok t) :
    (Line.invoke c.dispatch c.owner c.method t).Legible := by
  have hclosed := hf.typed.closed
  have hname := hS.className
  rw [Line.Legible, hc.owner]
  refine ⟨hname.toIsWord, hname.marks _ (by simp), ?_⟩
  cases hc.callee with
  | constructor hmethod hparams hret =>
    rw [hmethod]
    refine ⟨by decide, by decide, by decide, ?_⟩
    refine ClassCode.legible_methodType hclosed.symbols hname hf.imports ?_ ?_ ht
    · simp [hparams]
    · rw [hret]
      rfl
  | method hm hmethod hparams hret =>
    have hown := hS.methods _ hm
    have hadmits := hclosed.symbols.methods _ hm
    rw [← hmethod]
    refine ⟨hown.toIsWord, hown.marks _ (by simp), hown.marks _ (by simp), ?_⟩
    refine ClassCode.legible_methodType hclosed.symbols hname hf.imports ?_ (hret ▸ hadmits.isKnown) ht
    rw [← hparams]
    intro u hu
    obtain ⟨v, hv, rfl⟩ := List.mem_map.1 hu
    exact (hadmits.params v hv).isKnown

theorem InOrder.legible (hf : f.InOrder s V) (hS : s.symbols.Legible)
    (hunit : f.unit.name = s.symbols.className) {i : Instr} (hi : i ∈ f.method.instrs)
    {ls : List Line} (h : f.Selects k i ls) : ∀ l ∈ ls, l.Legible := by
  have hclosed := hf.typed.closed
  have htyped := hf.typed.code i hi
  cases h with
  | assignVar hl hs =>
    obtain ⟨n, c, _, _, rfl⟩ := storeVar_eq_ok hs
    exact List.forall_mem_cons.2 ⟨legible_load hl, List.forall_mem_singleton.2 trivial⟩
  | assignTemp hl hs =>
    exact List.forall_mem_cons.2
      ⟨legible_load hl, List.forall_mem_singleton.2 (legible_storeTemp hs)⟩
  | assignElement hls _ =>
    exact List.forall_mem_append.2 ⟨legible_loadAll hls, List.forall_mem_singleton.2 trivial⟩
  | binary hls hos hs =>
    rw [List.forall_mem_append, List.forall_mem_append, List.forall_mem_singleton]
    exact ⟨legible_loadAll hls, legible_operator hos, legible_storeTemp hs⟩
  | @unary _ op _ _ _ hl hs =>
    rw [List.forall_mem_cons, List.forall_mem_append, List.forall_mem_singleton]
    refine ⟨legible_load hl, ?_, legible_storeTemp hs⟩
    cases op <;> simp [unaryLines, Line.Legible]
  | call hls ht hrs =>
    rw [List.forall_mem_append, List.forall_mem_cons]
    cases htyped with
    | call hc => exact ⟨legible_loadAll hls, hf.legible_invoke hS hc ht, legible_result hrs⟩
  | new hs =>
    rw [List.forall_mem_cons, List.forall_mem_singleton]
    cases htyped with
    | new _ =>
      rw [Line.Legible, ClassCode.internalName_of_imports hf.imports]
      exact ⟨hS.className.toIsWord, legible_storeTemp hs⟩
  | newArray hl ha hs =>
    cases htyped with
    | newArray _ _ _ hknown _ _ =>
      rw [List.forall_mem_cons, List.forall_mem_cons, List.forall_mem_singleton]
      exact ⟨legible_load hl, hf.legible_allocate hS.className hknown ha,
        legible_storeTemp hs⟩
  | arrayLoad hls _ hs =>
    rw [List.forall_mem_append, List.forall_mem_cons, List.forall_mem_singleton]
    exact ⟨legible_loadAll hls, trivial, legible_storeTemp hs⟩
  | arrayLength hl hs =>
    rw [List.forall_mem_cons, List.forall_mem_cons, List.forall_mem_singleton]
    exact ⟨legible_load hl, trivial, legible_storeTemp hs⟩
  | getField ht hs =>
    cases htyped with
    | getField hfield _ _ =>
      rw [List.forall_mem_cons, List.forall_mem_cons, List.forall_mem_singleton]
      exact ⟨trivial, hf.legible_access hS hunit hfield ht, legible_storeTemp hs⟩
  | putField hl ht =>
    cases htyped with
    | putField hfield _ _ =>
      rw [List.forall_mem_cons, List.forall_mem_cons, List.forall_mem_singleton]
      exact ⟨trivial, legible_load hl, hf.legible_access hS hunit hfield ht⟩
  | ret hls hl =>
    obtain ⟨c, rfl⟩ := Line.eq_ret_of_leave hl
    exact List.forall_mem_append.2 ⟨legible_loadAll hls, List.forall_mem_singleton.2 trivial⟩
  | goto =>
    cases htyped with
    | goto hl => exact List.forall_mem_singleton.2 (Label.isWord_of_structure hl)
  | branch hc =>
    cases htyped with
    | branch _ hl =>
      rw [List.forall_mem_cons, List.forall_mem_singleton]
      exact ⟨legible_load hc, Label.isWord_of_structure hl⟩
  | label _ =>
    cases htyped with
    | label hl => exact List.forall_mem_singleton.2 (Label.isWord_of_structure hl)

end Frame

theorem ClassCode.read?_assembleMethod {code : ClassCode} {m : MethodCode} {f : Frame}
    (hf : code.frame m = .ok f) {a : MethodAssembly} (ha : code.assembleMethod m = .ok a) {s : Scope}
    {V : Prop} (hs : f.InOrder s V) (hS : s.symbols.Legible) (hm : s.method ∈ s.symbols.methods)
    (hunit : code.name = s.symbols.className) :
    MethodAssembly.read? a.text = some a.lettered ∧ ∀ l ∈ a.lines, l.Legible := by
  have hassembles := assembles_of_assembleMethod hf ha
  obtain ⟨rfl, rfl, _⟩ := frame_eq_ok hf
  simp only [assembleMethod, bind_eq_ok_iff, pure_eq_ok_iff] at ha
  obtain ⟨_, _, t, ht, blocks, _, rfl⟩ := ha
  have hlines := hassembles.forall_lines fun _ _ _ hi hselects => hs.legible hS hunit hi hselects
  have hclosed := hs.typed.closed
  have htype : t.Legible := by
    refine legible_methodType hclosed.symbols hS.className hs.imports ?_ ?_ ht
    · rw [MethodCode.paramTys, hs.typed.params]
      intro u hu
      obtain ⟨v, hv, rfl⟩ := List.mem_map.1 hu
      exact (hclosed.method.params v hv).isKnown
    · rw [hs.typed.returnTy]
      exact hclosed.method.isKnown
  have hname : IsName f.method.name := hs.typed.name ▸ hS.methods _ hm
  exact ⟨MethodAssembly.read?_text hname.toIsWord (hname.marks _ (by simp)) htype hlines, hlines⟩

structure Program.Legible (p : Program) : Prop where
  className : IsName p.classDecl.name
  fields : ∀ v ∈ p.classDecl.fields, IsName v.name
  methods : ∀ d ∈ p.classDecl.methods, IsName d.name

theorem Program.Legible.symbols {p : Program} (h : p.Legible) : (Symbols.ofProgram p).Legible := by
  refine ⟨h.className, ?_, ?_⟩
  · intro v hv
    obtain ⟨d, hd, rfl⟩ := List.mem_map.1 hv
    exact h.fields d hd
  · intro m hm
    obtain ⟨d, hd, rfl⟩ := List.mem_map.1 hm
    exact h.methods d hd

/-- Assembly of a program that stands alone and has no findings does what its code does, instruction by
instruction. The machine has the lines that are read from the text, one for each line that is written. -/
theorem Program.machine_follows_code {p : Program} (hp : p.Closed) (hd : p.analyze.diagnostics = [])
    (hn : p.Legible) {σ σ' : Supply} {code : ClassCode}
    (hl : (Symbols.ofProgram p).lower p σ = .ok code σ') {m : MethodCode} (hm : m ∈ code.methods)
    {f : Frame} (hf : code.frame m = .ok f) {a : MethodAssembly}
    (ha : code.assembleMethod m = .ok a) :
    ∃ b, MethodAssembly.read? a.text = some b ∧
      b.name = a.name ∧ b.isStatic = a.isStatic ∧ b.type = a.type ∧
      List.Forall₂ (fun l r => Line.read? (words l.text.toList) = some r) a.lines b.lines ∧
      ∀ w c k, f.Matches a w c k →
        (∀ c', m.step w c = some (.running c') → ∃ k', b.Reaches w k k' ∧ f.Matches a w c' k') ∧
        ∀ e, m.step w c = some (.finished e) → b.Ends w k e.ending := by
  obtain ⟨d, hd', hs⟩ := hp.inOrder hd hl hm hf
  have hassembles := ClassCode.assembles_of_assembleMethod hf ha
  have hunit : code.name = (p.scopeOf d).symbols.className := by
    obtain ⟨ms, _, rfl⟩ := Symbols.lower_eq_ok_iff.1 hl
    rfl
  obtain ⟨hread, hlines⟩ := ClassCode.read?_assembleMethod hf ha hs hn.symbols
    (List.mem_map.2 ⟨d, hd', rfl⟩) hunit
  obtain ⟨_, hmethod, _⟩ := ClassCode.frame_eq_ok hf
  refine ⟨a.lettered, hread, rfl, rfl, rfl, ?_, fun w c k hk => ?_⟩
  · rw [MethodAssembly.lines_lettered, List.forall₂_map_right_iff, List.forall₂_same]
    exact fun l hl => (Line.readsAs_text (hlines l hl)).read
  · simp only [MethodAssembly.reaches_lettered, MethodAssembly.ends_lettered, ← hmethod]
    exact ⟨fun c' hc => hk.step hs hassembles hc, fun e he => hk.step hs hassembles he⟩

theorem Program.legible_sum : Program.sum.Legible := by
  have hname : ∀ n ∈ ["Sum", "total", "add", "reaches"], IsName n := by decide
  refine ⟨hname _ (by decide), ?_, ?_⟩
  · simpa [Program.sum] using hname _ (by decide)
  · simpa [Program.sum] using ⟨hname _ (by decide), hname _ (by decide)⟩

/-- The first step of a call with no array, by the text of the method. -/
theorem Program.machine_follows_sum :
    Program.sum.Closed ∧ Program.sum.analyze.diagnostics = [] ∧ Program.sum.Legible ∧
      ∃ code σ', (Symbols.ofProgram Program.sum).lower Program.sum {} = .ok code σ' ∧
        ∃ m ∈ code.methods, ∃ f a b, code.frame m = .ok f ∧ code.assembleMethod m = .ok a ∧
          MethodAssembly.read? a.text = some b ∧
            ∃ w c c' k k', f.Matches a w c k ∧ m.step w c = some (.running c') ∧
              b.Reaches w k k' ∧ f.Matches a w c' k' := by
  have h : (((Symbols.ofProgram Program.sum).lower Program.sum).run' {}).any fun code =>
      code.methods.any fun m => (code.frame m).isOk && (code.assembleMethod m).isOk &&
        m.instrs[0]? = some (.assign (.var "i" .int) (.int 0)) &&
        (m.params ++ m.locals).all fun v => v.name ≠ "xs" || (Value.ref .null).fits v.ty := by
    decide +kernel
  obtain ⟨code, σ', hl, h⟩ := Lower.exists_of_any h
  obtain ⟨m, hm, h⟩ := List.any_eq_true.1 h
  simp only [Bool.and_eq_true, decide_eq_true_eq, List.all_eq_true] at h
  obtain ⟨⟨⟨hf, ha⟩, hfirst⟩, hxs⟩ := h
  obtain ⟨f, hf⟩ := exists_of_isOk hf
  obtain ⟨a, ha⟩ := exists_of_isOk ha
  let w : World := ⟨.ref .null, fun _ _ _ => Action.fail, fun _ _ => .int 0⟩
  let env : Env := fun slot => if slot = .var "xs" then some (.ref .null) else none
  let μ : Memory := ⟨fun _ _ => .int 0, fun _ => [], 0⟩
  obtain ⟨_, _, hs⟩ := closed_sum.inOrder analyze_sum hl hm hf
  have hrep : ∃ registers, f.Represents w env registers := by
    refine hs.exists_represents (fun _ => ⟨.null, rfl⟩) ?_ ?_
    · intro name v hv x hx
      rw [(ClassCode.frame_eq_ok hf).2.1] at hv
      obtain ⟨hmem, rfl⟩ := MethodCode.mem_of_var? hv
      by_cases hname : v.name = "xs"
      · have hfits := hxs v hmem
        simp only [env, hname, if_pos, Option.some.injEq] at hx
        simpa [← hx, hname] using hfits
      · simp [env, hname] at hx
    · intro t _ x hx
      simp [env] at hx
  obtain ⟨registers, hrep⟩ := hrep
  have hk : f.Matches a w ⟨0, env, μ⟩ ⟨0, ⟨registers, []⟩, μ⟩ := ⟨rfl, rfl, hrep, rfl⟩
  have hstep : m.step w ⟨0, env, μ⟩ = some (.running ⟨1, env.set (.var "i") (.int 0), μ⟩) := by
    rw [MethodCode.step_plain hfirst rfl]
    rfl
  obtain ⟨b, hread, _, _, _, _, hfollows⟩ :=
    machine_follows_code closed_sum analyze_sum legible_sum hl hm hf ha
  obtain ⟨k', hreach, hk'⟩ := (hfollows w _ _ hk).1 _ hstep
  exact ⟨closed_sum, analyze_sum, legible_sum, code, σ', hl, m, hm, f, a, b, hf, ha, hread, w, _, _, _,
    k', hk, hstep, hreach, hk'⟩

end SingleClass
