import SingleClass.Proofs.Lowering.Acceptance
set_option autoImplicit false

/-!
The type of a mistake. Checking that gives an indeterminate type has a finding of its own
(`Scope.Concrete.kind_check`), so no part of a program without findings has that type.

The type takes part in every rule without a finding, and so does what is made of it by parentheses
and array accesses. A call on it does not keep it: the result has the open type, and calls on that are
reported. So a chain of members on a mistake has one more finding for each call after the first
(`Scope.check_chain_of_indeterminate`).
-/

namespace SingleClass

namespace Scope

variable {s : Scope}

theorem Concrete.kind_checkOwnCall (hs : s.Concrete) {span : Span} {m : String}
    {args : List PlacedTy} (h : (s.symbols.checkOwnCall span m args).found = []) :
    (s.symbols.checkOwnCall span m args).value.kind ≠ .indeterminate := by
  rw [Symbols.value_checkOwnCall h]
  exact hs.kind_callTy m none

theorem Concrete.kind_checkCallOn (hs : s.Concrete) {span : Span} {m : String} {t : Ty}
    {args : List PlacedTy} (h : (s.symbols.checkCallOn span m t args).found = []) :
    (s.symbols.checkCallOn span m t args).value.kind ≠ .indeterminate := by
  unfold Symbols.checkCallOn at h ⊢
  split
  · -- elsewhere: the open type, with or without a finding
    split <;> simp [Ty.external]
  · next hext =>
    rw [if_neg hext] at h
    split
    · next hrecv =>
      rw [if_pos hrecv] at h
      simp [Checked.report] at h
    · next hrecv =>
      rw [if_neg hrecv] at h
      exact hs.kind_checkOwnCall h

mutual

theorem Concrete.kind_check (hs : s.Concrete) : ∀ {e : Expr}, (s.check e).found = [] →
    (s.check e).value.kind ≠ .indeterminate
  | .literal v p, _ => by
    cases v <;> simp [check, Literal.ty, Ty.int, Ty.boolean]
  | .name n p, h => hs.kind_typeOf (agrees_name s n p h)
  | .this p, h => hs.kind_typeOf (e := .this p) (Checked.ofRule_eq h)
  | .binary op l r p, h => by
    simp only [check, Checked.found_bind, Checked.value_bind, List.append_eq_nil_iff] at h ⊢
    rw [Typing.ty_of_binary (Checked.ofRule_eq h.2.2)]
    exact Ty.kind_ne_indeterminate op.isEscape_resultTy
  | .unary op e p, h => by
    simp only [check, Checked.found_bind, Checked.value_bind, List.append_eq_nil_iff] at h ⊢
    rw [Typing.ty_of_unary (Checked.ofRule_eq h.2)]
    exact Ty.kind_ne_indeterminate op.isEscape_ty
  | .paren e, h => hs.kind_check (e := e) h
  | .index a i p, h => by
    simp only [check, Checked.found_bind, Checked.value_bind, List.append_eq_nil_iff] at h ⊢
    obtain ⟨ha, _, hrest⟩ := h
    have hint := Checked.eq_false_of_unreported hrest
    simp only [hint, Bool.false_eq_true, if_false] at hrest ⊢
    -- an element has the kind of its array
    obtain ⟨hfound, _, hvalue⟩ := Checked.asValue_eq ha
    rw [Typing.kind_element (Checked.ofRule_eq hrest), hvalue]
    exact hs.kind_check hfound
  | .length a p, h => by
    simp only [check, Checked.found_bind, Checked.value_bind, List.append_eq_nil_iff] at h ⊢
    rw [Typing.ty_of_length (Checked.ofRule_eq h.2)]
    simp [Ty.int]
  | .call none m as p, h => by
    simp only [check] at h ⊢
    cases hs' : s.method.isStatic with
    | true => simp [hs', Checked.report] at h
    | false =>
      simp only [hs', Bool.false_eq_true, if_false, Checked.found_bind, Checked.value_bind,
        List.append_eq_nil_iff] at h ⊢
      exact hs.kind_checkOwnCall h.2
  | .call (some t) m as p, h => by
    simp only [check] at h ⊢
    cases hi : s.staticReceiver? t with
    | some i => simp [Ty.external]
    | none =>
      simp only [hi, Option.isSome_none, Bool.false_eq_true, if_false, Checked.found_bind,
        Checked.value_bind, List.append_eq_nil_iff] at h ⊢
      exact hs.kind_checkCallOn h.2.2
  | .newObject c p, h => by
    simp only [check]
    split <;> simp [Ty.named]
  | .newArray t e p, h => by
    have hdeclared := Ty.kind_ne_indeterminate (Ty.isEscape_ofName t)
    simp only [check, Checked.value_bind]
    split <;> split <;> exact hdeclared
  | .arrayInit es p, h => by
    simp only [check, Checked.found_bind, Checked.value_bind, List.append_eq_nil_iff] at h ⊢
    -- an initializer has the kind of one of its elements
    obtain ⟨u, hu, huk⟩ := Typing.exists_kind_of_arrayInit (Checked.ofRule_eq h.2)
    obtain ⟨a, ha, rfl⟩ := List.mem_map.1 hu
    rw [← huk]
    exact hs.kind_checkValues h.1 a ha

theorem Concrete.kind_checkValues (hs : s.Concrete) : ∀ {es : List Expr},
    (s.checkValues es).found = [] → ∀ a ∈ (s.checkValues es).value, a.ty.kind ≠ .indeterminate
  | [], _ => by simp [checkValues]
  | e :: es, h => by
    obtain ⟨he, hes⟩ := found_checkValues_cons.1 h
    obtain ⟨hfound, _, hvalue⟩ := Checked.asValue_eq he
    rw [value_checkValues_cons]
    refine List.forall_mem_cons.2 ⟨?_, hs.kind_checkValues hes⟩
    rw [checkValue, hvalue]
    exact hs.kind_check hfound

end

theorem Concrete.kind_checkValue (hs : s.Concrete) {e : Expr} (h : (s.checkValue e).found = []) :
    (s.checkValue e).value.kind ≠ .indeterminate := by
  obtain ⟨hfound, _, hvalue⟩ := Checked.asValue_eq h
  rw [checkValue, hvalue]
  exact hs.kind_check hfound

/-- The expressions whose values a part of a body asks for. The target of a static call is not among
them: it names a class. -/
def valuesIn (s : Scope) : Node → List Expr
  | .expr (.binary _ l r _) | .expr (.index l r _) => [l, r]
  | .expr (.unary _ e _) | .expr (.length e _) | .expr (.newArray _ e _) => [e]
  | .expr (.call none _ as _) => as
  | .expr (.call (some t) _ as _) => if (s.staticReceiver? t).isSome then as else t :: as
  | .expr (.arrayInit es _) => es
  | .stmt (.cond c _ _ _) | .stmt (.loop c _ _) => [c]
  | .stmt (.assign (.index a i p) v _) => [.index a i p, v]
  | .stmt (.assign _ v _) => [v]
  | .stmt (.ret (some v) _) => [v]
  | _ => []

theorem found_checkValue_of_check {e : Expr} (h : (s.check e).found = []) :
    ∀ v ∈ s.valuesIn (.expr e), (s.checkValue v).found = [] := by
  cases e with
  | literal v p | name n p | this p | paren e | newObject c p => simp [valuesIn]
  | binary op l r p | index l r p =>
    simp only [check, Checked.found_bind, List.append_eq_nil_iff] at h
    exact List.forall_mem_cons.2 ⟨h.1, List.forall_mem_singleton.2 h.2.1⟩
  | unary op e p | length e p | newArray t e p =>
    simp only [check, Checked.found_bind, List.append_eq_nil_iff] at h
    exact List.forall_mem_singleton.2 h.1
  | call t m as p =>
    obtain ⟨ht, has⟩ := found_of_check_call h
    have has := found_checkValue_of_checkValues has
    cases t with
    | none => exact has
    | some t =>
      simp only [valuesIn]
      split
      · exact has
      · next hi => exact List.forall_mem_cons.2 ⟨ht t rfl (by simpa using hi), has⟩
  | arrayInit es p =>
    simp only [check, Checked.found_bind, List.append_eq_nil_iff] at h
    exact found_checkValue_of_checkValues h.1

theorem found_checkValue_of_checkStmt {t : Stmt} (h : (s.checkStmt t).found = []) :
    ∀ v ∈ s.valuesIn (.stmt t), (s.checkValue v).found = [] := by
  cases t with
  | block b p | expr e p => simp [valuesIn]
  | cond c t e p =>
    have hc : (s.checkCondition c).found = [] := by
      cases e <;> simp only [checkStmt, Checked.found_bind, List.append_eq_nil_iff] at h <;> exact h.1
    exact List.forall_mem_singleton.2 (found_checkValue_of_checkCondition hc)
  | loop c b p =>
    simp only [checkStmt, Checked.found_bind, List.append_eq_nil_iff] at h
    exact List.forall_mem_singleton.2 (found_checkValue_of_checkCondition h.1)
  | assign target v p =>
    simp only [checkStmt, Checked.found_bind, List.append_eq_nil_iff] at h
    cases target with
    | index a i q => exact List.forall_mem_cons.2 ⟨h.1, List.forall_mem_singleton.2 h.2.1⟩
    | _ => exact List.forall_mem_singleton.2 h.2.1
  | ret v p =>
    cases v with
    | none => simp [valuesIn]
    | some v => exact List.forall_mem_singleton.2 (found_checkValue_of_checkReturn h)

/-- Neither a part that is an expression nor a value that the part asks for is of the type of a
mistake. -/
def Definite (s : Scope) (n : Node) : Prop :=
  (∀ e, n = .expr e → (s.check e).value.kind ≠ .indeterminate) ∧
    ∀ v ∈ s.valuesIn n, (s.checkValue v).value.kind ≠ .indeterminate

theorem Concrete.definite (hs : s.Concrete) {n : Node} (h : s.Unreported n) : s.Definite n := by
  cases n with
  | expr e =>
    refine ⟨?_, fun v hv => hs.kind_checkValue (found_checkValue_of_check h v hv)⟩
    intro e' he
    cases he
    exact hs.kind_check h
  | stmt t =>
    exact ⟨by simp, fun v hv => hs.kind_checkValue (found_checkValue_of_checkStmt h v hv)⟩
  | program | importDecl _ | classDecl _ | field _ | method _ => exact ⟨by simp, by simp [valuesIn]⟩

end Scope

/-- In every method of a program, checking that gives an indeterminate type has a finding, and so has
checking for a value. In a program without findings no part of a body is of that type. -/
theorem Program.reported_of_indeterminate (p : Program) :
    (∀ d ∈ p.classDecl.methods, ∀ e : Expr,
      (((p.scopeOf d).check e).value.kind = .indeterminate → ((p.scopeOf d).check e).found ≠ []) ∧
        (((p.scopeOf d).checkValue e).value.kind = .indeterminate →
          ((p.scopeOf d).checkValue e).found ≠ [])) ∧
      (p.analyze.diagnostics = [] → ∀ d ∈ p.classDecl.methods, ∀ n ∈ Stmt.nodesOf d.body,
        (p.scopeOf d).Definite n) := by
  refine ⟨fun d hd e => ⟨?_, ?_⟩, fun h d hd n hn => ?_⟩
  · intro hkind hfound
    exact (p.concrete_scopeOf hd).kind_check hfound hkind
  · intro hkind hfound
    exact (p.concrete_scopeOf hd).kind_checkValue hfound hkind
  · have hbody := Program.checkBody_eq_nil h hd
    exact (p.concrete_scopeOf hd).definite (Scope.unreported_of_checkBody hbody n hn)

/-- `void run() { lost.find().open(); }` -/
def MethodDecl.astray : MethodDecl where
  name := "run"
  returns := { name := "void" }
  body := [.expr (.call (some (.call (some (.name "lost" {})) "find" [] {})) "open" [] {}) {}]

def Program.astray : Program where
  classDecl := { name := "Astray", methods := [.astray] }

/-- The first element of `{lost}` is a mistake that comes up from the name through the initializer and
the access. The other program has no findings. -/
theorem Program.reported_astray :
    (∃ e : Expr, ((astray.scopeOf .astray).check e).value.kind = .indeterminate ∧
        ((astray.scopeOf .astray).check e).found ≠ []) ∧
      Program.sum.analyze.diagnostics = [] ∧
      ∀ d ∈ Program.sum.classDecl.methods, ∀ n ∈ Stmt.nodesOf d.body,
        (Program.sum.scopeOf d).Definite n := by
  have hkind : ((astray.scopeOf .astray).check (.index (.arrayInit [.name "lost" {}] {})
      (.literal (.int 0) {}) {})).value.kind = .indeterminate := by
    decide
  have hreported := (reported_of_indeterminate astray).1 .astray List.mem_cons_self
  exact ⟨⟨_, hkind, (hreported _).1 hkind⟩, analyze_sum,
    (reported_of_indeterminate sum).2 analyze_sum⟩

inductive Link where
  | paren
  | index (position : Expr) (span : Span)
  | call (method : String) (args : List Expr) (span : Span)

def Link.extend (e : Expr) : Link → Expr
  | .paren => .paren e
  | .index i p => .index e i p
  | .call m as p => .call (some e) m as p

/-- A chain of members on an expression, the innermost link first. -/
def Expr.chain (e : Expr) (links : List Link) : Expr := links.foldl Link.extend e

/-- What is reported of a call on a value of the open type. -/
def Link.finding? : Link → Option Diagnostic
  | .call m _ p => some (.problem p (.unknownReceiverClass m))
  | .paren | .index .. => none

def Link.isCall : Link → Bool
  | .call .. => true
  | .paren | .index .. => false

theorem Link.length_findings (links : List Link) :
    (links.filterMap Link.finding?).length = links.countP Link.isCall := by
  induction links with
  | nil => rfl
  | cons l ls ih =>
    rw [List.filterMap_cons, List.countP_cons]
    cases l <;> simp [finding?, isCall, ih]

theorem Symbols.checkCallOn_of_indeterminate {S : Symbols} {span : Span} {m : String} {t : Ty}
    {args : List PlacedTy} (h : t.kind = .indeterminate) :
    S.checkCallOn span m t args = { value := .external } := by
  have hescape : t.isEscape = true := by simp [Ty.isEscape, h]
  rw [checkCallOn, hescape, Bool.true_or, if_pos rfl, if_neg (by simp [h])]
  rfl

theorem Typing.exists_element_of_indeterminate {t : Ty} (h : t.kind = .indeterminate) :
    ∃ u, Typing.element t = .ok u ∧ u.kind = .indeterminate := by
  unfold Typing.element
  split
  · exact ⟨_, rfl, h⟩
  · exact ⟨t, by simp [Ty.isEscape, h], h⟩

namespace Scope

variable {s : Scope}

/-- The parts of the link are in order: an index is an integer, and arguments are values. -/
def Clean (s : Scope) : Link → Prop
  | .paren => True
  | .index i _ => (s.checkValue i).found = [] ∧ (s.checkValue i).value.isInt = true
  | .call _ as _ => (s.checkValues as).found = []

theorem asValue_of_isEscape {e : Expr} (h : (s.check e).value.isEscape = true) :
    (s.check e).asValue e = s.check e := by
  have hvoid : (s.check e).value.isVoid = false := by
    cases hk : (s.check e).value.kind <;> simp_all [Ty.isEscape, Ty.isVoid]
  have hrule : Checked.ofRule e.span (Typing.value e (s.check e).value) =
      { value := (s.check e).value } := by
    rw [Typing.value_eq_ok hvoid, Checked.ofRule]
  simp only [Checked.asValue, bind, hrule, List.append_nil]

theorem check_index_of_isEscape {e i : Expr} {p : Span} (he : (s.check e).value.isEscape = true)
    (hi : s.Clean (.index i p)) {u : Ty} (hu : Typing.element (s.check e).value = .ok u) :
    s.check (.index e i p) = { value := u, found := (s.check e).found } := by
  obtain ⟨hfound, hint⟩ := hi
  simp only [checkValue] at hfound hint
  simp [check, asValue_of_isEscape he, bind, hfound, hint, hu, Checked.ofRule]

theorem check_call_of_isEscape {e : Expr} {m : String} {as : List Expr} {p : Span}
    (he : (s.check e).value.isEscape = true) (hstatic : s.staticReceiver? e = none)
    (has : s.Clean (.call m as p)) :
    ∃ args, s.check (.call (some e) m as p) =
      { value := (s.symbols.checkCallOn p m (s.check e).value args).value
        found := (s.check e).found ++ (s.symbols.checkCallOn p m (s.check e).value args).found } := by
  have has : (s.checkValues as).found = [] := has
  refine ⟨(s.checkValues as).value, ?_⟩
  simp [check, hstatic, asValue_of_isEscape he, bind, has]

theorem value_of_staticReceiver? {e : Expr} {i : Import} (h : s.staticReceiver? e = some i) :
    (s.check e).value = .external := by
  fun_induction staticReceiver? s e with
  | case1 n p hn =>
    have hi : s.symbols.isImported n = true := by simp [Symbols.isImported, h]
    simp [check, checkName, nameTy, Option.isNone_iff_eq_none.1 hn, hi, Checked.ofRule]
  | case2 => simp at h
  | case3 e ih => exact ih h
  | case4 => simp at h

theorem staticReceiver?_of_indeterminate {e : Expr}
    (h : (s.check e).value.kind = .indeterminate) : s.staticReceiver? e = none := by
  cases hi : s.staticReceiver? e with
  | none => rfl
  | some i => simp [value_of_staticReceiver? hi, Ty.external] at h

theorem staticReceiver?_extend {e : Expr} (h : s.staticReceiver? e = none) (l : Link) :
    s.staticReceiver? (l.extend e) = none := by
  cases l with
  | paren => exact h
  | index i p | call m as p => rfl

theorem check_extend_of_indeterminate {e : Expr} (he : (s.check e).value.kind = .indeterminate)
    {l : Link} (hl : s.Clean l) :
    (s.check (l.extend e)).found = (s.check e).found ∧
      if l.isCall then (s.check (l.extend e)).value = .external
      else (s.check (l.extend e)).value.kind = .indeterminate := by
  have hescape : (s.check e).value.isEscape = true := by simp [Ty.isEscape, he]
  cases l with
  | paren => exact ⟨rfl, he⟩
  | index i p =>
    obtain ⟨u, hu, hk⟩ := Typing.exists_element_of_indeterminate he
    rw [Link.extend, check_index_of_isEscape hescape hl hu]
    exact ⟨rfl, hk⟩
  | call m as p =>
    obtain ⟨args, hcall⟩ :=
      check_call_of_isEscape hescape (staticReceiver?_of_indeterminate he) hl
    rw [Link.extend, hcall, Symbols.checkCallOn_of_indeterminate he]
    exact ⟨List.append_nil _, rfl⟩

theorem check_extend_of_external {e : Expr} (he : (s.check e).value = .external)
    (hstatic : s.staticReceiver? e = none) {l : Link} (hl : s.Clean l) :
    (s.check (l.extend e)).found = (s.check e).found ++ l.finding?.toList ∧
      (s.check (l.extend e)).value = .external := by
  have hescape : (s.check e).value.isEscape = true := by rw [he]; rfl
  cases l with
  | paren => exact ⟨(List.append_nil _).symm, he⟩
  | index i p =>
    have hu : Typing.element (s.check e).value = .ok .external := by rw [he]; rfl
    rw [Link.extend, check_index_of_isEscape hescape hl hu]
    exact ⟨(List.append_nil _).symm, rfl⟩
  | call m as p =>
    obtain ⟨args, hcall⟩ := check_call_of_isEscape hescape hstatic hl
    rw [Link.extend, hcall, he]
    exact ⟨rfl, rfl⟩

theorem check_chain_of_external {e : Expr} (he : (s.check e).value = .external)
    (hstatic : s.staticReceiver? e = none) {links : List Link} (hl : ∀ l ∈ links, s.Clean l) :
    (s.check (e.chain links)).found = (s.check e).found ++ links.filterMap Link.finding? ∧
      (s.check (e.chain links)).value = .external := by
  induction links generalizing e with
  | nil => exact ⟨(List.append_nil _).symm, he⟩
  | cons l ls ih =>
    obtain ⟨hl, hls⟩ := List.forall_mem_cons.1 hl
    obtain ⟨hfound, hvalue⟩ := check_extend_of_external he hstatic hl
    obtain ⟨hfounds, hvalues⟩ := ih hvalue (staticReceiver?_extend hstatic l) hls
    refine ⟨?_, hvalues⟩
    rw [Expr.chain, List.foldl_cons, ← Expr.chain, hfounds, hfound, List.append_assoc]
    congr 1
    cases hf : l.finding? <;> simp [hf]

theorem check_chain_of_indeterminate {e : Expr} (he : (s.check e).value.kind = .indeterminate)
    {links : List Link} (hl : ∀ l ∈ links, s.Clean l) :
    (s.check (e.chain links)).found =
        (s.check e).found ++ (links.filterMap Link.finding?).tail ∧
      (s.check (e.chain links)).value.isEscape = true := by
  induction links generalizing e with
  | nil => exact ⟨(List.append_nil _).symm, by simp [Expr.chain, Ty.isEscape, he]⟩
  | cons l ls ih =>
    obtain ⟨hl, hls⟩ := List.forall_mem_cons.1 hl
    obtain ⟨hfound, hvalue⟩ := check_extend_of_indeterminate he hl
    rw [Expr.chain, List.foldl_cons, ← Expr.chain, ← hfound]
    cases l with
    | paren => exact ih hvalue hls
    | index i p => exact ih hvalue hls
    | call m as p =>
      obtain ⟨hfounds, hvalues⟩ := check_chain_of_external hvalue rfl hls
      exact ⟨hfounds, by rw [hvalues]; rfl⟩

/-- A chain of members on a mistake has the findings of the mistake, and one more for each of its
calls but the first: no more than the mistake itself exactly if there is at most one call. -/
theorem found_chain {e : Expr} (he : (s.check e).value.kind = .indeterminate) {links : List Link}
    (hl : ∀ l ∈ links, s.Clean l) :
    (s.check (e.chain links)).found =
        (s.check e).found ++ (links.filterMap Link.finding?).tail ∧
      s.checkValue (e.chain links) = s.check (e.chain links) ∧
      ((s.check (e.chain links)).found.length = (s.check e).found.length ↔
        links.countP Link.isCall ≤ 1) := by
  obtain ⟨hfound, hescape⟩ := check_chain_of_indeterminate he hl
  refine ⟨hfound, asValue_of_isEscape hescape, ?_⟩
  rw [hfound, List.length_append, List.length_tail, Link.length_findings]
  omega

end Scope

/-- Of `(lost.find(1))[0].open()`, the mistake is reported and so is the second call. -/
theorem Scope.found_chain_astray :
    let s := Program.astray.scopeOf .astray
    let links : List Link := [.call "find" [.literal (.int 1) {}] {}, .paren,
      .index (.literal (.int 0) {}) {}, .call "open" [] {}]
    (s.check (.name "lost" {})).value.kind = .indeterminate ∧ (∀ l ∈ links, s.Clean l) ∧
      (s.check (Expr.chain (.name "lost" {}) links)).found = (s.check (.name "lost" {})).found ++
        [.problem {} (.unknownReceiverClass "open")] := by
  intro s links
  have hkind : (s.check (.name "lost" {})).value.kind = .indeterminate := by decide
  have hclean : ∀ l ∈ links, s.Clean l := by
    simp only [links, List.forall_mem_cons]
    exact ⟨rfl, trivial, ⟨rfl, rfl⟩, rfl, by simp⟩
  exact ⟨hkind, hclean, (found_chain hkind hclean).1⟩

/-- One mistake and two findings: the name, and the call on what the call on it gives. -/
theorem Program.two_findings_astray :
    ∃ d ∈ Program.astray.classDecl.methods, ∃ (e : Expr) (links : List Link),
      ((astray.scopeOf d).check e).value = .indeterminate ∧
        (∀ l ∈ links, (astray.scopeOf d).Clean l) ∧
        ((astray.scopeOf d).check e).found.length = 1 ∧
        ((astray.scopeOf d).check (e.chain links)).found.length = 2 := by
  refine ⟨.astray, List.mem_cons_self, .name "lost" {}, [.call "find" [] {}, .call "open" [] {}],
    rfl, ?_, rfl, rfl⟩
  simp only [List.forall_mem_cons]
  exact ⟨rfl, rfl, by simp⟩

end SingleClass
