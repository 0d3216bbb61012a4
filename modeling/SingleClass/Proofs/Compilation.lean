import SingleClass.Compilation
import SingleClass.Proofs.Assembly.Progress
import SingleClass.Proofs.Constant.Typing
import SingleClass.Proofs.Lowering.Progress
set_option autoImplicit false

/-!
Compilation of programs that stand alone and have no findings: the stages behind the analysis have
nothing left to fail on, with and without optimisation.
-/

namespace SingleClass

def Options.prepare (o : Options) (d : MethodDecl) : MethodDecl :=
  if o.optimize then d.optimize.1 else d

theorem Options.prepare_induction (o : Options) {P : List Stmt → Prop} {d : MethodDecl}
    (hoptimize : P d.body → P d.optimize.1.body) (h : P d.body) : P (o.prepare d).body := by
  unfold prepare
  split
  · exact hoptimize h
  · exact h

namespace Program

theorem assembled_eq_ok_iff {p : Program} {o : Options} {a : ClassAssembly} :
    (p.assembled o).1 = .ok a ↔ ∃ code σ, p.lowered o = .ok code σ ∧ code.assemble = .ok a := by
  unfold assembled
  cases p.lowered o with
  | ok code σ => simp
  | error e σ => simp

theorem exists_assembly_iff {p : Program} {o : Options} {text : String} :
    (∃ c, p.compile o = .ok c ∧ c.assembly = some text) ↔
      ∃ a, (p.assembled o).1 = .ok a ∧ a.text = text := by
  unfold compile
  obtain ⟨result, notes⟩ := p.assembled o
  cases result with
  | ok a => simp
  | error e =>
    dsimp only
    split <;> simp

theorem exists_isSuccess {x : Except Failure Compiled}
    (h : x.toOption.any Compiled.isSuccess = true) : ∃ c, x = .ok c ∧ c.isSuccess = true := by
  cases x with
  | error e => simp [Except.toOption] at h
  | ok c => exact ⟨c, rfl, h⟩

theorem isSuccess_compile_iff {p : Program} {o : Options} :
    (∃ c, p.compile o = .ok c ∧ c.isSuccess = true) ↔ p.analyze.diagnostics = [] ∧
      ∃ code σ, p.lowered o = .ok code σ ∧ σ.notes = [] ∧ ∃ a, code.assemble = .ok a := by
  unfold compile assembled
  cases p.lowered o with
  | error e σ =>
    dsimp only
    split <;> simp [Compiled.isSuccess]
  | ok code σ =>
    cases ha : code.assemble with
    | ok a => simp [ha, Compiled.isSuccess]
    | error e =>
      simp only [ha]
      split <;> simp [ha, Compiled.isSuccess]

theorem paired_optimize (p : Program) :
    p.optimize.program.paired (.ofProgram p) =
      (p.paired (.ofProgram p)).map fun d => (d.1.optimize.1, d.2) := by
  have hmap : p.optimize.program.classDecl.methods =
      p.classDecl.methods.map fun m => m.optimize.1 := by
    simp [Program.optimize]
  rw [p.paired_ofProgram, List.map_map]
  unfold paired Symbols.ofProgram
  rw [hmap, List.zip_map']
  rfl

theorem paired_prepared (p : Program) (o : Options) :
    (p.prepared o).paired (.ofProgram p) =
      p.classDecl.methods.map fun d => (o.prepare d, Signature.ofDecl d) := by
  unfold prepared Options.prepare
  split
  · rw [p.paired_optimize, p.paired_ofProgram, List.map_map]
    rfl
  · exact p.paired_ofProgram

theorem mem_paired_prepared {p : Program} {o : Options} {d : MethodDecl × Signature}
    (h : d ∈ (p.prepared o).paired (.ofProgram p)) :
    ∃ d' ∈ p.classDecl.methods, d = (o.prepare d', .ofDecl d') := by
  rw [p.paired_prepared] at h
  obtain ⟨d', hd', rfl⟩ := List.mem_map.1 h
  exact ⟨d', hd', rfl⟩

theorem Closed.ready_prepared {p : Program} (hp : p.Closed) (hd : p.analyze.diagnostics = [])
    (hn : ∀ n ∈ p.nodes, n.inLimits = true) {o : Options} :
    ∀ d ∈ (p.prepared o).paired (.ofProgram p),
      Scope.Ready ⟨.ofProgram p, d.2⟩ d.1.body := by
  intro d hmem
  obtain ⟨d', hd', rfl⟩ := mem_paired_prepared hmem
  exact o.prepare_induction (fun hready => hready.optimize) (hp.ready hd hn hd')

theorem returnsEncodable {p : Program} (hn : ∀ n ∈ p.nodes, n.inLimits = true) :
    (Symbols.ofProgram p).ReturnsEncodable := by
  intro m hm hvoid
  obtain ⟨d, hd, rfl⟩ := List.mem_map.1 hm
  have hlimit := hn (.method d)
    (List.mem_append_right _ (List.mem_flatMap.2 ⟨d, hd, List.mem_cons_self⟩))
  have hvoid : (Ty.ofName d.returns).isVoid = true := hvoid
  show (Ty.ofName d.returns).isArray = false
  simpa [Node.inLimits, hvoid] using hlimit

/-- A program that stands alone, has no findings and is within its limits compiles to the text of its
assembly, with and without optimisation, as long as the methods that are lowered have registers enough. -/
theorem compile_of_accepted {p : Program} (hp : p.Closed) (hd : p.analyze.diagnostics = [])
    (hn : ∀ n ∈ p.nodes, n.inLimits = true) (o : Options)
    (hr : ∀ code σ, p.lowered o = .ok code σ → ∀ m ∈ code.methods,
      m.registerCount ≤ registerLimit) :
    ∃ code σ a text, p.lowered o = .ok code σ ∧ code.assemble = .ok a ∧ a.text = text ∧
      p.compile o = .ok { diagnostics := [], assembly := some text } := by
  have hready := hp.ready_prepared hd hn (o := o)
  have hsymbols : (Symbols.ofProgram p).Closed := by
    simp only [Program.analyze, Analysis.diagnostics, List.append_eq_nil_iff] at hd
    exact hp.symbols hd.1.1
  obtain ⟨code, σ, hl, hnotes⟩ := Symbols.lower_of_ready hready {}
  obtain ⟨a, ha⟩ := Symbols.exists_assemble hsymbols (returnsEncodable hn) hready hl (hr code σ hl)
  refine ⟨code, σ, a, a.text, hl, ha, rfl, ?_⟩
  have hassembled : p.assembled o = (.ok a, []) := by
    simp only [assembled, lowered, hl, ha, hnotes]
  simp [compile, hassembled, hd]

theorem compile_sum :
    ∃ code σ a text, Program.sum.lowered { optimize := true } = .ok code σ ∧
      code.assemble = .ok a ∧ a.text = text ∧
      Program.sum.compile { optimize := true } =
        .ok { diagnostics := [], assembly := some text } := by
  refine compile_of_accepted closed_sum analyze_sum (by decide +kernel) _ ?_
  have h : ((Symbols.ofProgram Program.sum).lower (Program.sum.prepared { optimize := true })).run'
      {} |>.any fun code => code.methods.all fun m => m.registerCount ≤ registerLimit := by
    decide +kernel
  obtain ⟨code, σ, hl, hr⟩ := Lower.exists_of_any h
  intro code' σ' hl' m hm
  cases hl.symm.trans hl'
  simpa using List.all_eq_true.1 hr m hm

end Program

end SingleClass
