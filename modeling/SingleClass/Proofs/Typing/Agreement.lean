import SingleClass.Proofs.Typing.Checking
set_option autoImplicit false

/-!
Checking and typing compute the same type. Checking asks first whether the class of a receiver is
another one, and typing whether it is this one. So the two agree on every expression without findings
exactly where the name of the class is its own (`Program.HasOwnName`).
-/

namespace SingleClass

structure Program.HasOwnName (p : Program) : Prop where
  imports : ∀ i ∈ p.imports, i.simpleName ≠ p.classDecl.name
  superclass : p.classDecl.superclass ≠ some p.classDecl.name

theorem Program.hasOwnName_iff (p : Program) :
    p.HasOwnName ↔ (Symbols.ofProgram p).isExternal (Symbols.ofProgram p).ownTy = false := by
  have himport : (Symbols.ofProgram p).isImported p.classDecl.name = false ↔
      ∀ i ∈ p.imports, i.simpleName ≠ p.classDecl.name := by
    simp [Symbols.isImported, Symbols.import?, findImport, Symbols.ofProgram]
  have hext : (Symbols.ofProgram p).isExternal (Symbols.ofProgram p).ownTy =
      ((Symbols.ofProgram p).isImported p.classDecl.name ||
        decide (p.classDecl.superclass = some p.classDecl.name)) := rfl
  rw [hext, Bool.or_eq_false_iff, himport, decide_eq_false_iff_not]
  exact ⟨fun h => ⟨h.imports, h.superclass⟩, fun h => ⟨h.1, h.2⟩⟩

namespace Symbols

variable {S : Symbols}

theorem isExternal_of_kind {t : Ty} (h : t.kind = .named S.className) :
    S.isExternal t = S.isExternal S.ownTy := by
  simp only [isExternal, h, ownTy, Ty.named]

theorem value_checkOwnCall {span : Span} {m : String} {args : List PlacedTy}
    (h : (S.checkOwnCall span m args).found = []) :
    (S.checkOwnCall span m args).value = S.callTy m none := by
  unfold checkOwnCall at h ⊢
  unfold callTy callee?
  cases hm : S.method? m with
  | some c => rfl
  | none =>
    cases hs : S.superclass with
    | some c => rfl
    | none => simp [hm, hs, Checked.report] at h

theorem callTy_of_not_own {m : String} {t : Ty}
    (h : ¬(t.isArray = false ∧ t.kind = .named S.className)) : S.callTy m (some t) = .external := by
  simp only [callTy, callee?, if_neg h]

theorem callTy_of_own {m : String} {t : Ty} (ha : t.isArray = false)
    (hk : t.kind = .named S.className) : S.callTy m (some t) = S.callTy m none := by
  simp only [callTy, callee?, ha, hk, and_self, if_true]

theorem value_checkCallOn (hown : S.isExternal S.ownTy = false) {span : Span} {m : String} {t : Ty}
    {args : List PlacedTy} (h : (S.checkCallOn span m t args).found = []) :
    (S.checkCallOn span m t args).value = S.callTy m (some t) := by
  unfold checkCallOn at h ⊢
  by_cases hext : (t.isEscape || S.isExternal t) = true
  · -- a type from elsewhere is not that of the class
    have hnot : ¬(t.isArray = false ∧ t.kind = .named S.className) := by
      rintro ⟨_, hk⟩
      simp [isExternal_of_kind hk, hown, Ty.isEscape, hk] at hext
    simp only [hext, if_true] at h ⊢
    rw [callTy_of_not_own hnot]
    split <;> rfl
  · rw [if_neg hext] at h ⊢
    by_cases hrecv : (t.isArray || decide (t.kind ≠ .named S.className)) = true
    · rw [if_pos hrecv] at h
      simp [Checked.report] at h
    · rw [if_neg hrecv] at h ⊢
      simp only [Bool.or_eq_true, decide_eq_true_eq, not_or, Bool.not_eq_true, ne_eq,
        Decidable.not_not] at hrecv
      rw [callTy_of_own hrecv.1 hrecv.2]
      exact value_checkOwnCall h

end Symbols

namespace Scope

theorem typeOf_of_staticReceiver? {s : Scope} {e : Expr} {i : Import}
    (h : s.staticReceiver? e = some i) : s.typeOf e = .ok .external := by
  fun_induction staticReceiver? s e with
  | case1 n p hn =>
    have hi : s.symbols.isImported n = true := by simp [Symbols.isImported, h]
    simp only [typeOf, nameTy, Option.isNone_iff_eq_none.1 hn, hi, if_true]
  | case2 => simp at h
  | case3 e ih =>
    simp only [typeOf]
    exact ih h
  | case4 => simp at h

/-- Without findings, typing gives the type that checking gave. -/
def Agrees (s : Scope) (e : Expr) : Prop :=
  (s.check e).found = [] → s.typeOf e = .ok (s.check e).value

theorem Agrees.value {s : Scope} {e : Expr} (h : s.Agrees e)
    (hc : ((s.check e).asValue e).found = []) :
    s.typeOf e = .ok ((s.check e).asValue e).value ∧
      Typing.value e ((s.check e).asValue e).value = .ok ((s.check e).asValue e).value := by
  obtain ⟨hfound, hvoid, hvalue⟩ := Checked.asValue_eq hc
  rw [hvalue]
  exact ⟨h hfound, Typing.value_eq_ok hvoid⟩

theorem agrees_name (s : Scope) (n : String) (p : Span) : s.Agrees (.name n p) := by
  intro h
  simp only [check, checkName, typeOf] at h ⊢
  split at h
  · next f hb =>
    cases hs : s.method.isStatic with
    | true => simp [hs, Checked.report] at h
    | false =>
      simp only [hs, Bool.false_eq_true, if_false] at h ⊢
      exact Checked.ofRule_eq h
  · exact Checked.ofRule_eq h

mutual

theorem agrees {s : Scope} (hown : s.symbols.isExternal s.symbols.ownTy = false) :
    ∀ e : Expr, s.Agrees e
  | .literal v p => fun _ => rfl
  | .name n p => agrees_name s n p
  | .this p => fun h => Checked.ofRule_eq h
  | .binary op l r p => by
    intro h
    simp only [check, Checked.found_bind, Checked.value_bind, List.append_eq_nil_iff] at h ⊢
    obtain ⟨hl, hr, hop⟩ := h
    obtain ⟨hlt, hlv⟩ := (agrees hown l).value hl
    obtain ⟨hrt, hrv⟩ := (agrees hown r).value hr
    simp only [typeOf, hlt, hlv, hrt, hrv, bind, Except.bind]
    exact Checked.ofRule_eq hop
  | .unary op e p => by
    intro h
    simp only [check, Checked.found_bind, Checked.value_bind, List.append_eq_nil_iff] at h ⊢
    obtain ⟨he, hop⟩ := h
    obtain ⟨het, hev⟩ := (agrees hown e).value he
    simp only [typeOf, het, hev, bind, Except.bind]
    exact Checked.ofRule_eq hop
  | .paren e => agrees hown e
  | .index a i p => by
    intro h
    simp only [check, Checked.found_bind, Checked.value_bind, List.append_eq_nil_iff] at h ⊢
    obtain ⟨ha, _, hrest⟩ := h
    obtain ⟨hat, hav⟩ := (agrees hown a).value ha
    have hint := Checked.eq_false_of_unreported hrest
    simp only [hint, Bool.false_eq_true, if_false] at hrest ⊢
    simp only [typeOf, hat, hav, bind, Except.bind]
    exact Checked.ofRule_eq hrest
  | .length a p => by
    intro h
    simp only [check, Checked.found_bind, Checked.value_bind, List.append_eq_nil_iff] at h ⊢
    obtain ⟨ha, hlength⟩ := h
    obtain ⟨hat, hav⟩ := (agrees hown a).value ha
    simp only [typeOf, hat, hav, bind, Except.bind]
    exact Checked.ofRule_eq hlength
  | .call none m as p => by
    intro h
    simp only [check, typeOf] at h ⊢
    cases hs : s.method.isStatic with
    | true => simp [hs, Checked.report] at h
    | false =>
      simp only [hs, Bool.false_eq_true, if_false, Checked.found_bind, Checked.value_bind,
        List.append_eq_nil_iff] at h ⊢
      rw [Symbols.value_checkOwnCall h.2]
  | .call (some t) m as p => by
    intro h
    simp only [check, typeOf] at h ⊢
    cases hi : s.staticReceiver? t with
    | some i =>
      have hnot : ¬(Ty.external.isArray = false ∧ Ty.external.kind = .named s.symbols.className) := by
        simp [Ty.external]
      simp only [typeOf_of_staticReceiver? hi, Option.isSome_some, if_true, bind, Except.bind]
      exact congrArg Except.ok (Symbols.callTy_of_not_own hnot)
    | none =>
      simp only [hi, Option.isSome_none, Bool.false_eq_true, if_false, Checked.found_bind,
        Checked.value_bind, List.append_eq_nil_iff] at h ⊢
      obtain ⟨ht, _, hcall⟩ := h
      obtain ⟨htt, htv⟩ := (agrees hown t).value ht
      rw [Symbols.value_checkCallOn hown hcall]
      simp only [htt, htv, bind, Except.bind, pure, Except.pure]
  | .newObject c p => by
    intro h
    simp only [check, typeOf] at h ⊢
    split <;> rfl
  | .newArray t e p => by
    intro h
    simp only [check, typeOf, Checked.value_bind] at h ⊢
    split <;> split <;> rfl
  | .arrayInit es p => by
    intro h
    simp only [check, Checked.found_bind, Checked.value_bind, List.append_eq_nil_iff] at h ⊢
    obtain ⟨hes, hinit⟩ := h
    simp only [typeOf, agrees_all hown es hes, bind, Except.bind]
    exact Checked.ofRule_eq hinit

theorem agrees_all {s : Scope} (hown : s.symbols.isExternal s.symbols.ownTy = false) :
    ∀ es : List Expr, (s.checkValues es).found = [] →
      s.valuesOf es = .ok ((s.checkValues es).value.map (·.ty))
  | [], _ => rfl
  | e :: es, h => by
    obtain ⟨he, hes⟩ := found_checkValues_cons.1 h
    obtain ⟨het, hev⟩ := (agrees hown e).value he
    simp only [valuesOf, het, hev, agrees_all hown es hes, bind, Except.bind, pure, Except.pure,
      value_checkValues_cons, checkValue, List.map_cons]

end

end Scope

/-- In a class whose name is taken elsewhere, a call on a fresh instance is checked as one to a
method elsewhere and typed as one to the method declared here. -/
theorem Scope.not_agrees_of_isExternal {s : Scope}
    (hown : s.symbols.isExternal s.symbols.ownTy = true) {m : String} {c : Signature}
    (hm : s.symbols.method? m = some c) (hc : c.returnTy.isEscape = false) :
    ¬s.Agrees (.call (some (.newObject s.symbols.className {})) m [] {}) := by
  intro h
  have hknown : s.symbols.isKnown (.named s.symbols.className) = true := by
    simp [Symbols.isKnown, Ty.named]
  have hobject : (s.check (.newObject s.symbols.className {})).asValue
      (.newObject s.symbols.className {}) = { value := s.symbols.ownTy } := by
    simp only [check, hknown, Bool.not_true, Bool.false_eq_true, if_false]
    rfl
  have hcall : s.symbols.checkCallOn {} m s.symbols.ownTy [] = { value := .external } := by
    simp only [Symbols.checkCallOn, hown, Bool.or_true, if_true]
    rfl
  have hcheck : s.check (.call (some (.newObject s.symbols.className {})) m [] {}) =
      { value := .external } := by
    rw [check, if_neg (by simp [staticReceiver?]), hobject]
    exact hcall
  have htype := h (by rw [hcheck])
  rw [hcheck] at htype
  simp [typeOf, Typing.value, Ty.isVoid, Symbols.callTy, Symbols.callee?, hm, Ty.named, bind,
    Except.bind, pure, Except.pure] at htype
  simp [htype, Ty.isEscape, Ty.external] at hc

/-- Checking and typing agree on all expressions without findings, in every method of a program,
exactly if no import and no superclass has the name of the class or the class has no methods. -/
theorem Program.check_agrees_iff (p : Program) :
    (∀ d ∈ p.classDecl.methods, ∀ e : Expr, ((p.scopeOf d).check e).found = [] →
        (p.scopeOf d).typeOf e = .ok ((p.scopeOf d).check e).value) ↔
      p.HasOwnName ∨ p.classDecl.methods = [] := by
  rw [p.hasOwnName_iff]
  constructor
  · intro h
    cases hown : (Symbols.ofProgram p).isExternal (Symbols.ofProgram p).ownTy with
    | false => exact .inl rfl
    | true =>
      right
      cases hms : p.classDecl.methods with
      | nil => rfl
      | cons d ds =>
        have hd : d ∈ p.classDecl.methods := by simp [hms]
        obtain ⟨c, hc⟩ : ∃ c, (Symbols.ofProgram p).method? d.name = some c := by
          simp [Symbols.method?, Symbols.ofProgram, hms, Signature.ofDecl]
        obtain ⟨d', _, rfl⟩ := List.mem_map.1 (List.mem_of_find?_eq_some hc)
        exact absurd (h d hd _) (Scope.not_agrees_of_isExternal (s := p.scopeOf d) hown hc
          (Ty.isEscape_kindOfName d'.returns.name))
  · rintro (hown | hms) d hd e
    · exact Scope.agrees (s := p.scopeOf d) hown e
    · simp [hms] at hd

/-- `import lib.Box; class Box { int size() { return this.size(); } }` -/
def Program.box : Program where
  imports := [{ path := "lib.Box" }]
  classDecl := {
    name := "Box"
    methods := [{
      name := "size", returns := { name := "int" }
      body := [.ret (some (.call (some (.this {})) "size" [] {})) {}] }] }

theorem Program.check_ne_typeOf_box :
    ∃ d ∈ Program.box.classDecl.methods, ∃ e : Expr, ((box.scopeOf d).check e).found = [] ∧
      ((box.scopeOf d).check e).value = .external ∧ (box.scopeOf d).typeOf e = .ok .int := by
  exact ⟨_, List.mem_cons_self, .call (some (.this {})) "size" [] {}, rfl, rfl, rfl⟩

end SingleClass
