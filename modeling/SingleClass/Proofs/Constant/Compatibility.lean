import SingleClass.Proofs.Assembly.Likeness
import SingleClass.Proofs.Compilation
import SingleClass.Proofs.Typing.Arity
set_option autoImplicit false

/-!
A program that compiles without optimisation compiles with it, imports and a superclass included, as
long as optimisation puts no literal in the place of a local whose type is declared elsewhere
(`Program.disguises`).

The analysis lets such a local hold a literal, since a type declared elsewhere takes every value. A call
on the local is then a call on an int, which no class has.
-/

namespace SingleClass

theorem Ty.eq_int_or_boolean {t : Ty} (h : (t.isInt || t.isBoolean) = true) :
    t.asValue = .int ∨ t.asValue = .boolean := by
  obtain ⟨kind, isArray, isVararg⟩ := t
  simp only [Ty.isInt, Ty.isBoolean, Bool.or_eq_true, Bool.and_eq_true, decide_eq_true_eq,
    Bool.not_eq_true'] at h
  rcases h with ⟨rfl, rfl⟩ | ⟨rfl, rfl⟩
  · exact .inl rfl
  · exact .inr rfl

theorem Symbols.eq_of_assignable {S : Symbols} {t u : Ty} (ht : t = .int ∨ t = .boolean)
    (hescape : u.isEscape = false) (hexternal : S.isExternal u = false)
    (h : S.assignable t u.asValue = true) : t = u.asValue := by
  have hu : u.asValue.isEscape = false := hescape
  have hx : S.isExternal u.asValue = false := hexternal
  simp only [Symbols.assignable, Ty.assignable, hu, hx, Bool.or_false] at h
  rcases ht with rfl | rfl
  · simpa [Ty.int, Ty.isEscape, Symbols.isExternal, Ty.asValue] using h
  · simpa [Ty.boolean, Ty.isEscape, Symbols.isExternal, Ty.asValue] using h

namespace Scope

variable {s : Scope}

theorem typeOf_of_mayBeLiteral : ∀ {e : Expr}, s.mayBeLiteral e = true → (s.check e).found = [] →
    s.typeOf e = .ok (s.check e).value ∧
      ((s.check e).value = .int ∨ (s.check e).value = .boolean)
  | .literal v p, _, _ => by
    refine ⟨rfl, ?_⟩
    cases v with
    | int _ => exact .inl rfl
    | bool _ => exact .inr rfl
  | .name n p, hl, h => by
    refine ⟨agrees_name s n p h, ?_⟩
    cases hx : s.method.local? n with
    | none => simp [mayBeLiteral, hx] at hl
    | some x =>
      simp only [mayBeLiteral, hx, Option.any_some] at hl
      simp only [check, checkName, nameTy, lookup_of_local? hx]
      exact Ty.eq_int_or_boolean hl
  | .paren e, hl, h => typeOf_of_mayBeLiteral (e := e) hl h
  | .binary op l r p, hl, h => by
    simp only [mayBeLiteral, Bool.and_eq_true, decide_eq_true_eq] at hl
    obtain ⟨⟨harith, hll⟩, hrl⟩ := hl
    simp only [check, Checked.found_bind, Checked.value_bind, List.append_eq_nil_iff] at h ⊢
    obtain ⟨hlc, hrc, hop⟩ := h
    obtain ⟨hlf, hlv, hlt⟩ := Checked.asValue_eq hlc
    obtain ⟨hrf, hrv, hrt⟩ := Checked.asValue_eq hrc
    have hop := Checked.ofRule_eq hop
    have hty := Typing.ty_of_binary hop
    rw [hlt, hrt] at hop hty ⊢
    have hl := (typeOf_of_mayBeLiteral hll hlf).1
    have hr := (typeOf_of_mayBeLiteral hrl hrf).1
    refine ⟨typeOf_bind_eq_ok.2 ⟨_, hl, hlv, typeOf_bind_eq_ok.2 ⟨_, hr, hrv, hop⟩⟩, .inl ?_⟩
    rw [hty]
    simp [BinaryOp.resultTy, harith]

theorem fits_of_checkAssign (hs : s.Concrete) {target value : Expr} {p : Span}
    (h : (s.checkStmt (.assign target value p)).found = []) : s.Fits (.assign target value p) := by
  cases target with
  | name n q =>
    intro x hx hl
    have hb := lookup_of_local? hx
    simp only [checkStmt, checkTarget, checkValue, hb, Binding.isField, Binding.symbol,
      Bool.false_and, Bool.false_eq_true, if_false, Checked.found_bind, Checked.found_pure,
      Checked.value_pure, List.nil_append, List.append_eq_nil_iff] at h
    obtain ⟨hvalue, hassign⟩ := h
    obtain ⟨hfound, _, heq⟩ := Checked.asValue_eq hvalue
    obtain ⟨hty, hkind⟩ := typeOf_of_mayBeLiteral hl hfound
    have hassignable : s.symbols.assignable (s.check value).value x.ty.asValue = true := by
      rw [heq] at hassign
      cases ha : s.symbols.assignable (s.check value).value x.ty.asValue with
      | true => rfl
      | false => simp [ha, Checked.report] at hassign
    have hescape : x.ty.isEscape = false := hs.lookup hb
    cases hexternal : s.symbols.isExternal x.ty with
    | true => exact .inr rfl
    | false =>
      rw [hty, Symbols.eq_of_assignable hkind hescape hexternal hassignable]
      exact .inl rfl
  | _ => trivial

mutual

theorem fits_of_checkStmt (hs : s.Concrete) : ∀ t : Stmt, (s.checkStmt t).found = [] → s.Fits t
  | .block b _, h => fitsAll_of_checkBody hs b h
  | .cond c t none _, h => by
    simp only [checkStmt, Checked.found_bind, List.append_eq_nil_iff] at h
    exact fits_of_checkStmt hs t h.2
  | .cond c t (some e) _, h => by
    simp only [checkStmt, Checked.found_bind, List.append_eq_nil_iff] at h
    exact ⟨fits_of_checkStmt hs t h.2.1, fits_of_checkStmt hs e h.2.2⟩
  | .loop c b _, h => by
    simp only [checkStmt, Checked.found_bind, List.append_eq_nil_iff] at h
    exact fits_of_checkStmt hs b h.2
  | .assign .., h => fits_of_checkAssign hs h
  | .expr .., _ => trivial
  | .ret .., _ => trivial

theorem fitsAll_of_checkBody (hs : s.Concrete) :
    ∀ ts : List Stmt, (s.checkBody ts).found = [] → s.FitsAll ts
  | [], _ => trivial
  | t :: ts, h => by
    simp only [checkBody, Checked.found_bind, List.append_eq_nil_iff] at h
    exact ⟨fits_of_checkStmt hs t h.1, fitsAll_of_checkBody hs ts h.2⟩

end

/-- Optimisation keeps the types in the body of a method: stores keep to the types of locals, and no
name of a local of another type is lost. -/
structure Optimizable (s : Scope) (d : MethodDecl) : Prop where
  fits : s.FitsAll d.body
  names : ∀ n ∈ d.localNames, ∃ x, s.method.local? n = some x
  foreign : s.foreignNamesInAll d.body ≤ s.foreignNamesInAll d.optimize.1.body

theorem Optimizable.lowersBody_optimize {d : MethodDecl} (hd : s.Optimizable d) {σ σ' : Supply}
    {code : List Instr} (h : s.LowersBody d.body σ code σ') (τ : Supply) :
    ∃ code' τ', s.LowersBody d.optimize.1.body τ code' τ' ∧ LikeCode code code' ∧
      σ.Keeps σ' τ τ' := by
  -- a body in mid-way is like the first one, and what keeps to it keeps to the first one
  refine hd.fits.optimize_induction
    (P := fun b => ∃ σ₁ code₁ σ₁', s.LowersBody b σ₁ code₁ σ₁' ∧ LikeCode code code₁ ∧
      ∀ υ υ' : Supply, σ₁.Keeps σ₁' υ υ' → σ.Keeps σ' υ υ')
    (Q := fun b => ∀ υ, ∃ code' υ', s.LowersBody b υ code' υ' ∧ LikeCode code code' ∧
      σ.Keeps σ' υ υ') hd.names hd.foreign ?_ ?_ ?_ τ
  · intro b b' hb hP υ
    obtain ⟨σ₁, code₁, σ₁', h₁, hlike, hkeeps⟩ := hP
    obtain ⟨code', υ', h', hlike', hk⟩ := h₁.simulate hb υ
    exact ⟨code', υ', h', hlike.trans hlike', hkeeps υ υ' hk⟩
  · intro b hQ
    obtain ⟨code', υ', h', hlike, hk⟩ := hQ {}
    exact ⟨{}, code', υ', h', hlike, fun _ _ hk' => hk.through hk'⟩
  · exact ⟨σ, code, σ', h, .refl code, fun _ _ hk => hk⟩

end Scope

namespace Symbols

/-- Fixpoints of the bodies are lowered where the bodies are, and assembled where those are. -/
theorem LowersMethods.optimize {S : Symbols} {ds : List (MethodDecl × Signature)} {σ σ' : Supply}
    {ms : List MethodCode} (h : S.LowersMethods ds σ ms σ')
    (hds : ∀ d ∈ ds, Scope.Optimizable ⟨S, d.2⟩ d.1) (τ : Supply) :
    ∃ ms' τ', S.LowersMethods (ds.map fun d => (d.1.optimize.1, d.2)) τ ms' τ' ∧
      List.Forall₂ (fun m m' => ∀ c c' : ClassCode,
        Supports (c.assembleMethod m) (c'.assembleMethod m')) ms ms' ∧ σ.Keeps σ' τ τ' := by
  induction h generalizing τ with
  | @nil σ => exact ⟨[], τ, .nil, .nil, .refl σ τ⟩
  | cons hb _ ih =>
    obtain ⟨hd, hds⟩ := List.forall_mem_cons.1 hds
    obtain ⟨code', τ₁, hb', hlike, hk⟩ := hd.lowersBody_optimize hb τ
    obtain ⟨ms', τ₂, hs', hms, hk'⟩ := ih hds τ₁
    refine ⟨_, τ₂, .cons hb' hs', .cons ?_ hms, hk.trans hk'⟩
    exact hb.supports_assembleMethod hb' hlike hk.temps

end Symbols

namespace Program

/-- In some method, optimisation puts a literal in the place of a local whose type is declared
elsewhere. -/
def disguises (p : Program) : Bool :=
  p.classDecl.methods.any fun d =>
    (p.scopeOf d).foreignNamesInAll d.optimize.1.body < (p.scopeOf d).foreignNamesInAll d.body

theorem optimizable_of_analyze {p : Program} (ha : p.analyze.diagnostics = [])
    (hd : p.disguises = false) :
    ∀ d ∈ p.paired (.ofProgram p), Scope.Optimizable ⟨.ofProgram p, d.2⟩ d.1 := by
  rw [p.paired_ofProgram]
  intro pair hpair
  obtain ⟨d, hmem, rfl⟩ := List.mem_map.1 hpair
  refine ⟨Scope.fitsAll_of_checkBody (p.concrete_scopeOf hmem) d.body
    (checkBody_eq_nil ha hmem), d.exists_local?, ?_⟩
  have hforeign := List.any_eq_false.1 hd d hmem
  rw [decide_eq_true_eq] at hforeign
  exact Nat.le_of_not_lt hforeign

/-- Optimisation breaks no program that does not disguise: what compiles without it compiles with it. -/
theorem isSuccess_compile_optimize {p : Program} (hd : p.disguises = false) {c : Compiled}
    (h : p.compile { optimize := false } = .ok c) (hc : c.isSuccess = true) :
    ∃ c', p.compile { optimize := true } = .ok c' ∧ c'.isSuccess = true := by
  obtain ⟨ha, code, σ, hl, hnotes, a, hassemble⟩ := isSuccess_compile_iff.1 ⟨c, h, hc⟩
  obtain ⟨ms, hms, rfl⟩ := Symbols.lower_eq_ok_iff.1 hl
  have hprepared : p.prepared { optimize := false } = p := rfl
  rw [hprepared] at hms
  obtain ⟨ms', σ', hms', hsupports, hk⟩ := hms.optimize (optimizable_of_analyze ha hd) {}
  rw [← p.paired_optimize] at hms'
  have hnotes' : σ'.notes = [] := by
    obtain ⟨ds, hσ, hσ'⟩ := hk.notes
    rw [hnotes, List.nil_append] at hσ
    rw [hσ', ← hσ]
    rfl
  have hassemble' := Symbols.supports_assemble _ hsupports ⟨a, hassemble⟩
  exact isSuccess_compile_iff.2
    ⟨ha, _, σ', Symbols.lower_eq_ok_iff.2 ⟨ms', hms', rfl⟩, hnotes', hassemble'⟩

/-- A class whose method reads constants through folds, a branch and a loop, and passes them to a class
declared elsewhere. Its local of that class holds a literal at first, where nothing reads it. -/
def dial : Program :=
  let var (n : String) : Expr := .name n {}
  let int (n : Int32) : Expr := .literal (.int n) {}
  let ask (t : Expr) (m : String) (as : List Expr) : Expr := .call (some t) m as {}
  { imports := [{ path := "lib.Gauge" }]
    classDecl := {
      name := "Dial"
      superclass := some "Base"
      methods := [{
        name := "turn", returns := { name := "int" }
        params := [{ type := { name := "int" }, name := "n" }]
        locals := [{ type := { name := "int" }, name := "k" },
          { type := { name := "boolean" }, name := "on" },
          { type := { name := "Gauge" }, name := "g" }]
        body := [
          .assign (var "g") (int 0) {},
          .assign (var "k") (.binary .mul (.paren (.binary .add (int 2) (int 3) {})) (int 4) {}) {},
          .assign (var "on") (.literal (.bool true) {}) {},
          .assign (var "g") (ask (var "Gauge") "make" [var "k", var "on"]) {},
          .cond (var "on") (.expr (ask (var "g") "set" [.arrayInit [var "k", var "n"] {}]) {})
            (some (.assign (var "k") (var "n") {})) {},
          .loop (.binary .lt (var "k") (var "n") {})
            (.assign (var "k") (.binary .add (var "k") (int 1) {}) {}) {},
          .ret (some (.binary .sub (ask (var "g") "level" [var "on"]) (var "k") {})) {}] }] } }

theorem isSuccess_dial :
    dial.disguises = false ∧ (∃ c, dial.compile { optimize := false } = .ok c ∧ c.isSuccess = true) ∧
      ∃ c', dial.compile { optimize := true } = .ok c' ∧ c'.isSuccess = true := by
  have hd : dial.disguises = false := by decide +kernel
  obtain ⟨c, hc, hsuccess⟩ :=
    exists_isSuccess (x := dial.compile { optimize := false }) (by decide +kernel)
  exact ⟨hd, ⟨c, hc, hsuccess⟩, isSuccess_compile_optimize hd hc hsuccess⟩

/-- `import lib.A; class T { void m() { A a; a = 1; a.run(); } }` -/
def errand : Program where
  imports := [{ path := "lib.A" }]
  classDecl := {
    name := "T"
    methods := [{
      name := "m", returns := { name := "void" }
      locals := [{ type := { name := "A" }, name := "a" }]
      body := [
        .assign (.name "a" {}) (.literal (.int 1) {}) {},
        .expr (.call (some (.name "a" {})) "run" [] {}) {}] }] }

/-- The call that compiles on a local has no class on the literal that the local is known to hold. -/
theorem not_isSuccess_compile_optimize :
    errand.disguises = true ∧
      (∃ c, errand.compile { optimize := false } = .ok c ∧ c.isSuccess = true) ∧
      errand.compile { optimize := true } = .error (.noOwner "run" .int) := by
  have hfails : (match errand.compile { optimize := true } with
      | .error (.noOwner m t) => decide (m = "run" ∧ t = .int)
      | _ => false) = true := by decide +kernel
  refine ⟨by decide +kernel, exists_isSuccess (by decide +kernel), ?_⟩
  split at hfails
  next m t he =>
    obtain ⟨rfl, rfl⟩ := of_decide_eq_true hfails
    exact he
  next => cases hfails

end Program

end SingleClass
