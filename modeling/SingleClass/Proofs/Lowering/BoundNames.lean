import SingleClass.Proofs.Lowering.Acceptance
set_option autoImplicit false

/-!
Bodies that have derivations read variables only. So a program without findings, whose name is its own,
is lowered exactly where that holds of its bodies (`Program.lower_iff_isBound`).
-/

namespace SingleClass

namespace Scope

variable {s : Scope}

theorem exprs_passedLast (s : Scope) (t : Ty) (es : List Expr) : (s.passedLast t es).exprs = es := by
  unfold passedLast
  split
  · next rest h =>
    -- one argument only can be the array itself
    cases rest with
    | nil => rfl
    | cons b rest => simp [VarargPassing.of] at h
  · rfl

theorem exprs_passed {callee : Option Signature} {as : List Expr}
    (h : ∀ c ∈ callee, c.arity.admits as.length = true) :
    (s.passed callee as).flatMap Passed.exprs = as := by
  cases callee with
  | none =>
    rw [passed, List.flatMap_map]
    exact List.flatMap_singleton' as
  | some c =>
    have hfixed : ((as.zip c.params).take c.fixedArity).flatMap (fun x => [x.1]) =
        as.take c.fixedArity := by
      have hle : (as.take c.fixedArity).length ≤ (c.params.take c.fixedArity).length := by
        have := c.fixedArity_le
        simp only [List.length_take]
        omega
      rw [← List.map_eq_flatMap, List.zip, List.take_zipWith]
      exact List.map_fst_zip hle
    rw [passed, List.flatMap_append, List.flatMap_map]
    refine (congrArg (· ++ _) hfixed).trans ?_
    cases hvararg : c.vararg? with
    | some v => simp [exprs_passedLast]
    | none =>
      have harity := h c rfl
      simp only [Signature.arity, hvararg, Option.isSome_none, Bool.false_eq_true, if_false,
        Arity.admits, decide_eq_true_eq] at harity
      simp [← harity]

theorem LowersSite.callee_hint {t : Option Expr} {m : String} {σ σ' : Supply} {site : CallSite}
    (h : s.LowersSite t m σ site σ') :
    site.callee = s.symbols.callee? m (t.map s.typeHint) := by
  cases h with
  | implicit _ => rfl
  | static hi =>
    rw [Option.map_some, typeHint_of_typeOf (typeOf_of_staticReceiver? hi)]
    simp [Symbols.callee?, Ty.external]
  | receiver _ hty _ _ => rw [Option.map_some, typeHint_of_typeOf hty]

theorem LowersSite.admits (hown : s.symbols.isExternal s.symbols.ownTy = false) {t : Option Expr}
    {m : String} {as : List Expr} {p : Span} {σ σ' : Supply} {site : CallSite}
    (h : s.LowersSite t m σ site σ') (hc : (s.check (.call t m as p)).found = []) :
    ∀ c ∈ site.callee, c.arity.admits as.length = true := by
  rw [h.callee_hint]
  exact admits_of_check_call hown hc

mutual

theorem Lowers.isBound (hown : s.symbols.isExternal s.symbols.ownTy = false) {e : Expr}
    {want : Expectation} {σ σ' : Supply} {f : Fragment} (h : s.Lowers e want σ f σ')
    (hc : (s.check e).found = []) : s.isBound e = true := by
  match h with
  | .literal | .this _ | .newObject => rfl
  | .var hb _ | .field hb => simp [Scope.isBound, hb]
  | .binary hl hr | .index hl hr =>
    simp only [check, Checked.found_bind, List.append_eq_nil_iff] at hc
    rw [Scope.isBound, Bool.and_eq_true]
    exact ⟨hl.isBound hown (Checked.asValue_eq hc.1).1, hr.isBound hown (Checked.asValue_eq hc.2.1).1⟩
  | .unary he | .length he | .newArray he =>
    simp only [check, Checked.found_bind, List.append_eq_nil_iff] at hc
    exact he.isBound hown (Checked.asValue_eq hc.1).1
  | .paren he => exact he.isBound hown hc
  | .call hcall => exact hcall.isBound hown hc
  | .arrayInit hp =>
    simp only [check, Checked.found_bind, List.append_eq_nil_iff] at hc
    exact areBound_iff.2 (hp.isBound hown (found_of_checkValues hc.1))

theorem LowersCall.isBound (hown : s.symbols.isExternal s.symbols.ownTy = false) {t : Option Expr}
    {m : String} {as : List Expr} {p : Span} {want : Expectation} {σ σ' : Supply}
    {code : List Instr} {dest : Option Temp} (h : s.LowersCall t m as p want σ code dest σ')
    (hc : (s.check (.call t m as p)).found = []) : s.isBound (.call t m as p) = true := by
  match h with
  | .mk hsite hargs _ =>
    obtain ⟨hft, hfa⟩ := found_of_check_call hc
    have hfound := found_of_checkValues hfa
    have hpassed := hargs.isBound hown fun q hq e he => hfound e (exprs_passed_subset hq he)
    refine isBound_call.2 ⟨hsite.isBound hown fun e he hnone =>
      (Checked.asValue_eq (hft e he hnone)).1, areBound_iff.2 fun a ha => ?_⟩
    rw [← exprs_passed (s := s) (hsite.admits hown hc)] at ha
    obtain ⟨q, hq, hmem⟩ := List.mem_flatMap.1 ha
    exact hpassed q hq a hmem

theorem LowersSite.isBound (hown : s.symbols.isExternal s.symbols.ownTy = false) {t : Option Expr}
    {m : String} {σ σ' : Supply} {site : CallSite} (h : s.LowersSite t m σ site σ')
    (hc : ∀ e ∈ t, s.staticReceiver? e = none → (s.check e).found = []) :
    ∀ e ∈ t, s.staticReceiver? e = none → s.isBound e = true := by
  match h with
  | .implicit _ => simp
  | .static hi =>
    intro e he hnone
    cases he
    simp [hi] at hnone
  | .receiver _ _ _ ht =>
    intro e he hnone
    cases he
    exact ht.isBound hown (hc _ rfl hnone)

theorem LowersArgs.isBound (hown : s.symbols.isExternal s.symbols.ownTy = false) {ps : List Passed}
    {σ σ' : Supply} {fs : List Fragment} (h : s.LowersArgs ps σ fs σ')
    (hc : ∀ p ∈ ps, ∀ e ∈ p.exprs, (s.check e).found = []) :
    ∀ p ∈ ps, ∀ e ∈ p.exprs, s.isBound e = true := by
  match h with
  | .nil => simp
  | .direct he hs =>
    obtain ⟨hc, hcs⟩ := List.forall_mem_cons.1 hc
    refine List.forall_mem_cons.2 ⟨?_, hs.isBound hown hcs⟩
    exact List.forall_mem_singleton.2 (he.isBound hown (hc _ (List.mem_singleton.2 rfl)))
  | .packed hp hs =>
    obtain ⟨hc, hcs⟩ := List.forall_mem_cons.1 hc
    exact List.forall_mem_cons.2 ⟨hp.isBound hown hc, hs.isBound hown hcs⟩

theorem Packs.isBound (hown : s.symbols.isExternal s.symbols.ownTy = false) {element : Ty}
    {es : List Expr} {σ σ' : Supply} {f : Fragment} (h : s.Packs element es σ f σ')
    (hc : ∀ e ∈ es, (s.check e).found = []) : ∀ e ∈ es, s.isBound e = true := by
  match h with
  | .mk _ hs => exact hs.isBound hown hc

theorem Stores.isBound (hown : s.symbols.isExternal s.symbols.ownTy = false) {array : Temp}
    {element : Ty} {i : Nat} {es : List Expr} {σ σ' : Supply} {code : List Instr}
    (h : s.Stores array element i es σ code σ') (hc : ∀ e ∈ es, (s.check e).found = []) :
    ∀ e ∈ es, s.isBound e = true := by
  match h with
  | .nil => simp
  | .cons he hs =>
    obtain ⟨hc, hcs⟩ := List.forall_mem_cons.1 hc
    exact List.forall_mem_cons.2 ⟨he.isBound hown hc, hs.isBound hown hcs⟩

end

theorem LowersEffect.isBound (hown : s.symbols.isExternal s.symbols.ownTy = false) {e : Expr}
    {σ σ' : Supply} {code : List Instr} (h : s.LowersEffect e σ code σ')
    (hc : (s.check e).found = []) : s.isBound e = true := by
  rw [← check_stripParens] at hc
  rw [← isBound_stripParens]
  cases h with
  | call he hcall =>
    rw [he] at hc ⊢
    exact hcall.isBound hown hc
  | value _ hl => exact hl.isBound hown hc

theorem LowersAssign.isBound (hown : s.symbols.isExternal s.symbols.ownTy = false)
    {target value : Expr} {σ σ' : Supply} {code : List Instr}
    (h : s.LowersAssign target value σ code σ') (ht : (s.checkTarget target).found = [])
    (hv : (s.checkValue value).found = []) : s.isBound target = true ∧ s.isBound value = true := by
  have hvalue := (Checked.asValue_eq hv).1
  cases h with
  | var hb _ hl => exact ⟨by simp [Scope.isBound, hb], hl.isBound hown hvalue⟩
  | field hf hl => exact ⟨by simp [Scope.isBound, hf], hl.isBound hown hvalue⟩
  | element ha hi hl =>
    have hplace := (Checked.asValue_eq ht).1
    simp only [check, Checked.found_bind, List.append_eq_nil_iff] at hplace
    rw [Scope.isBound, Bool.and_eq_true]
    exact ⟨⟨ha.isBound hown (Checked.asValue_eq hplace.1).1,
      hi.isBound hown (Checked.asValue_eq hplace.2.1).1⟩, hl.isBound hown hvalue⟩

mutual

theorem LowersStmt.isBound (hown : s.symbols.isExternal s.symbols.ownTy = false) {t : Stmt}
    {σ σ' : Supply} {code : List Instr} (h : s.LowersStmt t σ code σ')
    (hc : (s.checkStmt t).found = []) : s.isBoundStmt t = true := by
  match h with
  | .block hb => exact hb.isBound hown hc
  | .condThen hcond ht | .loop hcond ht =>
    simp only [checkStmt, checkCondition, Checked.found_bind, List.append_eq_nil_iff] at hc
    rw [isBoundStmt, Bool.and_eq_true]
    exact ⟨hcond.isBound hown (Checked.asValue_eq hc.1.1).1, ht.isBound hown hc.2⟩
  | .condElse hcond he ht =>
    simp only [checkStmt, checkCondition, Checked.found_bind, List.append_eq_nil_iff] at hc
    rw [isBoundStmt, Bool.and_eq_true, Bool.and_eq_true]
    exact ⟨⟨hcond.isBound hown (Checked.asValue_eq hc.1.1).1, ht.isBound hown hc.2.1⟩,
      he.isBound hown hc.2.2⟩
  | .expr he =>
    simp only [checkStmt, Checked.found_bind, Checked.found_pure, List.append_nil] at hc
    exact he.isBound hown hc
  | .assign ha =>
    simp only [checkStmt, Checked.found_bind, List.append_eq_nil_iff] at hc
    rw [isBoundStmt, Bool.and_eq_true]
    exact ha.isBound hown hc.1 hc.2.1
  | .retNone => rfl
  | .retSome he =>
    simp only [checkStmt, checkReturn] at hc
    split at hc
    · simp [Checked.report] at hc
    · simp only [Checked.found_bind, List.append_eq_nil_iff] at hc
      exact he.isBound hown (Checked.asValue_eq hc.1).1

theorem LowersBody.isBound (hown : s.symbols.isExternal s.symbols.ownTy = false) {ts : List Stmt}
    {σ σ' : Supply} {code : List Instr} (h : s.LowersBody ts σ code σ')
    (hc : (s.checkBody ts).found = []) : s.isBoundBody ts = true := by
  match h with
  | .nil => rfl
  | .cons ht hs =>
    simp only [checkBody, Checked.found_bind, List.append_eq_nil_iff] at hc
    rw [isBoundBody, Bool.and_eq_true]
    exact ⟨ht.isBound hown hc.1, hs.isBound hown hc.2⟩

end

end Scope

theorem Program.settled {p : Program} (hd : p.analyze.diagnostics = []) (hown : p.HasOwnName)
    {d : MethodDecl} (h : d ∈ p.classDecl.methods) : (p.scopeOf d).Settled := by
  simp only [Program.analyze, Analysis.diagnostics, Symbols.reviewDeclarations,
    List.append_eq_nil_iff] at hd
  have hmethods := Symbols.admitsMethods_of_review hd.1.1.2
  exact ⟨p.concrete_scopeOf h, p.hasOwnName_iff.1 hown,
    fun m hm v hv => ((hmethods m hm).params v hv).isVoid⟩

theorem Symbols.LowersMethods.exists_body {S : Symbols} {ds : List (MethodDecl × Signature)}
    {σ σ' : Supply} {ms : List MethodCode} (h : S.LowersMethods ds σ ms σ') :
    ∀ d ∈ ds, ∃ σ₁ code σ₂, Scope.LowersBody ⟨S, d.2⟩ d.1.body σ₁ code σ₂ := by
  induction h with
  | nil => simp
  | cons hb _ ih => exact List.forall_mem_cons.2 ⟨⟨_, _, _, hb⟩, ih⟩

/-- A program without findings, whose name is its own and whose parts can be counted, is lowered
exactly if the names that it reads are those of variables. -/
theorem Program.lower_iff_isBound {p : Program} (hd : p.analyze.diagnostics = [])
    (hown : p.HasOwnName) (hn : ∀ n ∈ p.nodes, n.countable = true) (σ : Supply) :
    (∃ code σ', p.analyze.symbols.lower p σ = .ok code σ') ↔ p.isBound = true := by
  have hsymbols : p.analyze.symbols = .ofProgram p := rfl
  rw [hsymbols, Program.isBound, List.all_eq_true]
  constructor
  · rintro ⟨code, σ', hl⟩ d hmem
    obtain ⟨ms, hms, _⟩ := Symbols.lower_eq_ok_iff.1 hl
    obtain ⟨σ₁, body, σ₂, hb⟩ := hms.exists_body _ (mem_paired_ofProgram hmem)
    exact Scope.LowersBody.isBound (s := p.scopeOf d) (p.hasOwnName_iff.1 hown) hb
      (checkBody_eq_nil hd hmem)
  · intro hb
    have hbodies : ∀ d ∈ p.paired (.ofProgram p), ∀ σ, ∃ code σ',
        Scope.LowersBody ⟨.ofProgram p, d.2⟩ d.1.body σ code σ' ∧ True := by
      rw [p.paired_ofProgram]
      intro _ hpair σ
      obtain ⟨d, hmem, rfl⟩ := List.mem_map.1 hpair
      have hcount : ∀ n ∈ Stmt.nodesOf d.body, n.countable = true := fun n hnode =>
        hn n (List.mem_append_right _ (List.mem_flatMap.2 ⟨d, hmem, List.mem_cons_of_mem _ hnode⟩))
      obtain ⟨code, σ', hl⟩ := Scope.exists_lowersBody (settled hd hown hmem)
        (checkBody_eq_nil hd hmem) (hb d hmem) hcount σ
      exact ⟨code, σ', hl, trivial⟩
    obtain ⟨ms, σ', hms, _⟩ := Symbols.exists_lowersMethods Scope.threads_isValue hbodies σ
    exact ⟨_, σ', Symbols.lower_eq_ok_iff.2 ⟨ms, hms, rfl⟩⟩

/-- A class that takes values of another one through all the forms of calls and initializers. -/
def Program.probe : Program :=
  let var (n : String) : Expr := .name n {}
  let int (n : Int32) : Expr := .literal (.int n) {}
  let ask (t : Expr) (m : String) (as : List Expr) : Expr := .call (some t) m as {}
  let poll (as : List Expr) : Expr := .call none "poll" as {}
  { imports := [{ path := "lib.Gauge" }]
    classDecl := {
      name := "Probe"
      superclass := some "Base"
      fields := [{ type := { name := "Gauge", isArray := true }, name := "gs" }]
      methods := [{
        name := "poll", returns := { name := "int" }
        params := [{ type := { name := "int" }, name := "n" },
          { type := { name := "int", isArray := true, isVararg := true }, name := "xs" }]
        locals := [{ type := { name := "Gauge" }, name := "g" }]
        body := [
          .assign (var "g") (.newObject "Gauge" {}) {},
          .assign (var "gs") (.arrayInit [var "g", ask (var "Gauge") "make" []] {}) {},
          .cond (.binary .and (ask (.index (var "gs") (.index (var "xs") (int 0) {}) {}) "ready" [var "n"])
              (.unary .not (ask (.paren (var "Gauge")) "off" []) {}) {})
            (.expr (ask (var "g") "reset" [poll [var "n", int 1, .length (var "xs") {}]]) {})
            (some (.expr (.call none "report" [var "xs"] {}) {})) {},
          .ret (some (poll [ask (var "g") "level" [], var "xs"])) {}] }] } }

theorem Program.lower_probe :
    probe.analyze.diagnostics = [] ∧ probe.HasOwnName ∧ (∀ n ∈ probe.nodes, n.countable = true) ∧
      probe.isBound = true ∧ ∃ code σ', probe.analyze.symbols.lower probe {} = .ok code σ' := by
  have hd : probe.analyze.diagnostics = [] := by decide +kernel
  have hown : probe.HasOwnName := ⟨by decide +kernel, by decide⟩
  have hn : ∀ n ∈ probe.nodes, n.countable = true := by decide +kernel
  have hb : probe.isBound = true := by decide +kernel
  exact ⟨hd, hown, hn, hb, (lower_iff_isBound hd hown hn {}).2 hb⟩

/-- `import lib.Foo; class T { void m() { Foo; } }` -/
def Program.stray : Program where
  imports := [{ path := "lib.Foo" }]
  classDecl := {
    name := "T"
    methods := [{
      name := "m", returns := { name := "void" }
      body := [.expr (.name "Foo" {}) {}] }] }

/-- `import lib.Box; class Box { void open() {} int size() { return this.open(); } }` -/
def Program.crate : Program where
  imports := [{ path := "lib.Box" }]
  classDecl := {
    name := "Box"
    methods := [
      { name := "open", returns := { name := "void" } },
      { name := "size", returns := { name := "int" }
        body := [.ret (some (.call (some (.this {})) "open" [] {})) {}] }] }

/-- Two programs without findings that are not lowered: one reads the name of an import for a value, the
other has the name of an import and so the value of a void method. -/
theorem Program.not_lowered_of_accepted :
    (stray.analyze.diagnostics = [] ∧ (∀ n ∈ stray.nodes, n.countable = true) ∧ stray.HasOwnName ∧
      ∀ σ, stray.analyze.symbols.lower stray σ = .error (.noValue "Foo") σ) ∧
    crate.analyze.diagnostics = [] ∧ (∀ n ∈ crate.nodes, n.countable = true) ∧ crate.isBound = true ∧
      ∀ σ, crate.analyze.symbols.lower crate σ = .error (.voidCall "open") σ := by
  refine ⟨⟨by decide +kernel, by decide +kernel, ⟨by decide +kernel, by decide⟩, fun σ => rfl⟩,
    by decide +kernel, by decide +kernel, by decide +kernel, fun σ => rfl⟩

end SingleClass
