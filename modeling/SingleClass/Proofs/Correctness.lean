import SingleClass.Proofs.Assembly.Execution
import SingleClass.Proofs.Compilation
import SingleClass.Proofs.Constant.Preservation
import SingleClass.Proofs.Lowering.Preservation
set_option autoImplicit false

/-!
Compilation keeps the meaning of programs that stand alone and have no findings: the text of each
method, run from its first line, comes to the end that the body in the source comes to. Optimisation,
lowering and assembly are put together here.
-/

namespace SingleClass

namespace MethodAssembly

variable {a : MethodAssembly} {w : World} {k k' : MachineState}

theorem Reaches.eq_of_finished {e : Ending} (h : a.Reaches w k k')
    (hstep : a.step w k = some (.finished e)) : k = k' := by
  cases h.cases_head with
  | inl heq => exact heq
  | inr hnext =>
    obtain ⟨_, hnext, _⟩ := hnext
    simp [hstep] at hnext

theorem Reaches.total {k₁ k₂ : MachineState} (h₁ : a.Reaches w k k₁) (h₂ : a.Reaches w k k₂) :
    a.Reaches w k₁ k₂ ∨ a.Reaches w k₂ k₁ := by
  have hunique : Relator.RightUnique fun s s' => a.step w s = some (.running s') := by
    intro s s₁ s₂ hs₁ hs₂
    cases hs₁.symm.trans hs₂
    rfl
  exact h₁.total_of_right_unique hunique h₂

theorem Ends.unique {e e' : Ending} (h : a.Ends w k e) (h' : a.Ends w k e') : e = e' := by
  obtain ⟨k₁, hreach, hstep⟩ := h
  obtain ⟨k₂, hreach', hstep'⟩ := h'
  have heq : k₁ = k₂ := by
    cases hreach.total hreach' with
    | inl hr => exact hr.eq_of_finished hstep
    | inr hr => exact (hr.eq_of_finished hstep').symm
  subst heq
  cases hstep.symm.trans hstep'
  rfl

end MethodAssembly

/-- The text of the method, run from its first line with an empty stack and with registers that hold
the variables, comes to the end that the body comes to, and to no other. -/
def MethodAssembly.Performs (a : MethodAssembly) (f : Frame) (s : Scope) (body : List Stmt) : Prop :=
  ∃ b, MethodAssembly.read? a.text = some b ∧
    ∀ (w : World) (env : Env) (vars : String → Value) (registers : Nat → Option Word) (μ : Memory)
      (e : Final), env.Holds vars → f.Represents w env registers → s.finishes w body ⟨vars, μ⟩ e →
      ∀ x, b.Ends w ⟨0, ⟨registers, []⟩, μ⟩ x ↔ x = e.ending

theorem Symbols.LowersMethods.forall₂_assembled {S : Symbols} {ds : List (MethodDecl × Signature)}
    {σ σ' : Supply} {ms : List MethodCode} (h : S.LowersMethods ds σ ms σ') {code : ClassCode}
    {as : List MethodAssembly} (ha : code.assembleMethods ms = .ok as) :
    List.Forall₂ (fun d a => ∃ σ₁ σ₂ body, Scope.LowersBody ⟨S, d.2⟩ d.1.body σ₁ body σ₂ ∧
      code.assembleMethod (Scope.methodCode ⟨S, d.2⟩ body) = .ok a) ds as := by
  induction h generalizing as with
  | nil =>
    cases ha
    exact .nil
  | cons hd _ ih =>
    simp only [ClassCode.assembleMethods, bind_eq_ok_iff, pure_eq_ok_iff] at ha
    obtain ⟨a, ha, as, has, rfl⟩ := ha
    exact .cons ⟨_, _, _, hd, ha⟩ (ih has)

/-- The text of a sound body performs every body whose ends are also ends of that one. -/
theorem Scope.Sound.performs {s : Scope} {ts body : List Stmt} (hs : s.Sound ts)
    (hbody : ∀ w q e, s.finishes w body q e → s.finishes w ts q e) (hS : s.symbols.Legible)
    (hm : s.method ∈ s.symbols.methods) {σ σ' : Supply} {instrs : List Instr}
    (hl : s.LowersBody ts σ instrs σ') {code : ClassCode} (hunit : code.name = s.symbols.className)
    (himports : code.imports = []) {a : MethodAssembly}
    (ha : code.assembleMethod (s.methodCode instrs) = .ok a) :
    ∃ f, code.frame (s.methodCode instrs) = .ok f ∧ a.Performs f s body := by
  obtain ⟨f, hf, _⟩ := bind_eq_ok_iff.1 ha
  obtain ⟨hcode, hmethod, hregisters⟩ := ClassCode.frame_eq_ok hf
  have htyped := hs.closed.typed_methodCode (V := True) hs.accepts hl fun _ _ _ _ _ => trivial
  have horder : f.InOrder s True :=
    ⟨hmethod ▸ htyped, hmethod ▸ hregisters, by rw [hcode]; exact himports⟩
  have hassembles := ClassCode.assembles_of_assembleMethod hf ha
  obtain ⟨hread, _⟩ := ClassCode.read?_assembleMethod hf ha horder hS hm hunit
  refine ⟨f, hf, _, hread, fun w env vars registers μ e hv hrep he => ?_⟩
  have hterminates := (hs.terminates_iff w hl (q := ⟨vars, μ⟩) hv).2 (hbody w _ e he)
  have hmatches : f.Matches a w ⟨0, env, μ⟩ ⟨0, ⟨registers, []⟩, μ⟩ := ⟨rfl, rfl, hrep, rfl⟩
  have hends := hmatches.terminates horder hassembles (hmethod ▸ hterminates)
  rw [← MethodAssembly.ends_lettered] at hends
  exact fun x => ⟨fun hx => hx.unique hends, fun hx => hx ▸ hends⟩

/-- A program that stands alone and has no findings does in assembly what it does in source, with and
without optimisation: method by method, from all values of the variables. -/
theorem Program.performs_of_compile {p : Program} (hp : p.Closed) (hd : p.analyze.diagnostics = [])
    (hn : p.Legible) {o : Options} {c : Compiled} {text : String} (hc : p.compile o = .ok c)
    (ht : c.assembly = some text) :
    ∃ code σ a, p.lowered o = .ok code σ ∧ code.assemble = .ok a ∧ a.text = text ∧
      List.Forall₂ (fun d b => ∃ m f, code.assembleMethod m = .ok b ∧ code.frame m = .ok f ∧
        b.Performs f (p.scopeOf d) d.body) p.classDecl.methods a.methods := by
  obtain ⟨a, hassembled, htext⟩ := exists_assembly_iff.1 ⟨c, hc, ht⟩
  obtain ⟨code, σ, hl, ha⟩ := assembled_eq_ok_iff.1 hassembled
  refine ⟨code, σ, a, hl, ha, htext, ?_⟩
  obtain ⟨ms, hms, rfl⟩ := Symbols.lower_eq_ok_iff.1 hl
  simp only [ClassCode.assemble, bind_eq_ok_iff, pure_eq_ok_iff] at ha
  obtain ⟨fields, _, methods, hmethods, rfl⟩ := ha
  have hall := hms.forall₂_assembled hmethods
  rw [p.paired_prepared, List.forall₂_map_left_iff] at hall
  have hsound : ∀ d ∈ p.classDecl.methods, d ∈ p.classDecl.methods ∧ (p.scopeOf d).Sound d.body :=
    fun d hmem => ⟨hmem, hp.sound hd hmem⟩
  refine ((List.forall₂_and_left _ _).2 ⟨hsound, hall⟩).imp fun d b h => ?_
  obtain ⟨⟨hmem, hs⟩, σ₁, σ₂, body, hb, hassemble⟩ := h
  have hs' := o.prepare_induction (fun hs => hs.optimize) hs
  have hfinishes : ∀ w q e, (p.scopeOf d).finishes w d.body q e →
      (p.scopeOf d).finishes w (o.prepare d).body q e := fun w q e =>
    o.prepare_induction (P := ((p.scopeOf d).finishes w · q e))
      (hs.accepts.finishes_optimize hs.closed w d.exists_local? q e).2
  obtain ⟨f, hf, hperforms⟩ := hs'.performs hfinishes hn.symbols (List.mem_map_of_mem hmem) hb rfl
    hp.imports hassemble
  exact ⟨_, f, hassemble, hf, hperforms⟩

theorem Program.performs_sum :
    ∃ code σ a, Program.sum.lowered { optimize := true } = .ok code σ ∧ code.assemble = .ok a ∧
      List.Forall₂ (fun d b => ∃ m f, code.assembleMethod m = .ok b ∧ code.frame m = .ok f ∧
        b.Performs f (Program.sum.scopeOf d) d.body) Program.sum.classDecl.methods a.methods := by
  have h : (Program.sum.assembled { optimize := true }).1.isOk = true := by decide +kernel
  obtain ⟨a, ha⟩ := exists_of_isOk h
  obtain ⟨c, hc, ht⟩ := exists_assembly_iff.2 ⟨a, ha, rfl⟩
  obtain ⟨code, σ, b, hl, hassemble, _, hperforms⟩ :=
    performs_of_compile closed_sum analyze_sum legible_sum hc ht
  exact ⟨code, σ, b, hl, hassemble, hperforms⟩

end SingleClass
