import SingleClass.Proofs.Lowering.ConcreteTypes
import SingleClass.Proofs.Lowering.Progress
import SingleClass.Proofs.Lowering.Regularity
set_option autoImplicit false

/-!
Bodies that the analysis accepts have derivations, in an open world too, where types are known in part
only. What it does not see to is that the names that are read are those of variables (`Scope.isBound`):
the name of an import has the open type wherever it stands, but lowering has a use for it only as the
receiver of a static call.
-/

namespace SingleClass

namespace Scope

mutual

/-- Every name that is read for its value is that of a variable. -/
def isBound (s : Scope) : Expr → Bool
  | .literal .. | .this _ | .newObject .. => true
  | .name n _ => (s.lookup n).isSome
  | .binary _ l r _ => s.isBound l && s.isBound r
  | .unary _ e _ => s.isBound e
  | .paren e => s.isBound e
  | .index a i _ => s.isBound a && s.isBound i
  | .length a _ => s.isBound a
  | .call none _ as _ => s.areBound as
  | .call (some t) _ as _ => ((s.staticReceiver? t).isSome || s.isBound t) && s.areBound as
  | .newArray _ e _ => s.isBound e
  | .arrayInit es _ => s.areBound es

def areBound (s : Scope) : List Expr → Bool
  | [] => true
  | e :: es => s.isBound e && s.areBound es

end

mutual

def isBoundStmt (s : Scope) : Stmt → Bool
  | .block b _ => s.isBoundBody b
  | .cond c t none _ => s.isBound c && s.isBoundStmt t
  | .cond c t (some e) _ => s.isBound c && s.isBoundStmt t && s.isBoundStmt e
  | .loop c b _ => s.isBound c && s.isBoundStmt b
  | .expr e _ => s.isBound e
  | .assign t v _ => s.isBound t && s.isBound v
  | .ret none _ => true
  | .ret (some e) _ => s.isBound e

def isBoundBody (s : Scope) : List Stmt → Bool
  | [] => true
  | t :: ts => s.isBoundStmt t && s.isBoundBody ts

end

variable {s : Scope}

theorem areBound_iff {es : List Expr} : s.areBound es = true ↔ ∀ e ∈ es, s.isBound e = true := by
  induction es with
  | nil => simp [areBound]
  | cons e es ih => simp [areBound, ih]

theorem isBound_call {t : Option Expr} {m : String} {as : List Expr} {p : Span} :
    s.isBound (.call t m as p) = true ↔
      (∀ e ∈ t, s.staticReceiver? e = none → s.isBound e = true) ∧ s.areBound as = true := by
  cases t with
  | none => simp [isBound]
  | some t => cases hi : s.staticReceiver? t <;> simp [isBound, hi]

theorem isBound_stripParens (e : Expr) : s.isBound e.stripParens = s.isBound e := by
  fun_induction Expr.stripParens e with
  | case1 e ih => rw [ih, isBound]
  | case2 => rfl

end Scope

def Program.isBound (p : Program) : Bool :=
  p.classDecl.methods.all fun d => (p.scopeOf d).isBoundBody d.body

def Expr.countable : Expr → Bool
  | .call _ _ as _ => as.length < 2147483648
  | .arrayInit es _ => es.length < 2147483648
  | _ => true

def Node.countable : Node → Bool
  | .expr e => e.countable
  | _ => true

theorem Expr.countable_call {t : Option Expr} {m : String} {as : List Expr} {p : Span}
    (h : ∀ n ∈ (Expr.call t m as p).nodes, n.countable = true) :
    as.length < 2147483648 ∧ (∀ e ∈ t, ∀ n ∈ e.nodes, n.countable = true) ∧
      ∀ n ∈ Expr.nodesOf as, n.countable = true := by
  have hlen := h _ (Expr.mem_nodes_self _)
  refine ⟨by simpa [Node.countable, Expr.countable] using hlen, ?_, ?_⟩
  · intro e he n hn
    obtain rfl := Option.mem_def.1 he
    exact h n (by simp [Expr.nodes, hn])
  · intro n hn
    exact h n (by cases t <;> simp [Expr.nodes, hn])

theorem Expr.stripParens_stripParens (e : Expr) : e.stripParens.stripParens = e.stripParens := by
  fun_induction Expr.stripParens e with
  | case1 e ih => exact ih
  | case2 e hn => rw [Expr.stripParens]; exact hn

theorem Ty.kind_ne_indeterminate {t : Ty} (h : t.isEscape = false) : t.kind ≠ .indeterminate := by
  simp only [Ty.isEscape, Bool.or_eq_false_iff, decide_eq_false_iff_not] at h
  exact h.2

theorem Symbols.admits_of_checkOwnCall {S : Symbols} {span : Span} {m : String} {args : List PlacedTy}
    (h : (S.checkOwnCall span m args).found = []) {c : Signature} (hc : S.method? m = some c) :
    c.arity.admits args.length = true := by
  simp only [checkOwnCall, hc, Checked.found_bind, Checked.reportAll, Checked.found_pure,
    List.append_nil, checkArguments] at h
  split at h
  · next harity => exact harity
  · simp at h

theorem Symbols.callTy_of_callee? {S : Symbols} {m : String} {receiver : Option Ty} {c : Signature}
    (h : S.callee? m receiver = some c) : S.callTy m receiver = c.returnTy := by
  simp only [callTy, h]

theorem Symbols.exists_named_of_checkCallOn {S : Symbols} {span : Span} {m : String} {t : Ty}
    {args : List PlacedTy} (h : (S.checkCallOn span m t args).found = [])
    (hk : t.kind ≠ .indeterminate) : t.isArray = false ∧ ∃ c, t.kind = .named c := by
  unfold checkCallOn at h
  by_cases hext : (t.isEscape || S.isExternal t) = true
  · rw [if_pos hext] at h
    have hplain := Checked.eq_false_of_unreported h
    simp only [hk, ne_eq, not_false_eq_true, decide_true, Bool.and_true, Bool.or_eq_false_iff,
      decide_eq_false_iff_not] at hplain
    refine ⟨hplain.1, ?_⟩
    cases hkind : t.kind with
    | named c => exact ⟨c, rfl⟩
    | external => exact absurd hkind hplain.2
    | indeterminate => exact absurd hkind hk
    | int | boolean | string | void => simp [Ty.isEscape, isExternal, hkind] at hext
  · rw [if_neg hext] at h
    split at h
    · simp [Checked.report] at h
    · next hrecv =>
      simp only [Bool.or_eq_true, decide_eq_true_eq, not_or, Bool.not_eq_true, ne_eq,
        Decidable.not_not] at hrecv
      exact ⟨hrecv.1, _, hrecv.2⟩

namespace Scope

variable {s : Scope}

theorem typeHint_of_typeOf {e : Expr} {t : Ty} (h : s.typeOf e = .ok t) : s.typeHint e = t := by
  simp only [typeHint, h]

theorem admits_of_check_call (hown : s.symbols.isExternal s.symbols.ownTy = false) {t : Option Expr}
    {m : String} {as : List Expr} {p : Span} (h : (s.check (.call t m as p)).found = []) :
    ∀ c ∈ s.symbols.callee? m (t.map s.typeHint), c.arity.admits as.length = true := by
  intro c hc
  cases t with
  | none =>
    simp only [check] at h
    cases hs : s.method.isStatic with
    | true => simp [hs, Checked.report] at h
    | false =>
      simp only [hs, Bool.false_eq_true, if_false, Checked.found_bind, List.append_eq_nil_iff] at h
      have hadmits := Symbols.admits_of_checkOwnCall h.2 hc
      rwa [length_checkValues] at hadmits
  | some t =>
    simp only [check] at h
    simp only [Option.map_some, Symbols.callee?, Option.mem_def] at hc
    split at hc
    · next hclass =>
      cases hi : s.staticReceiver? t with
      | some i => simp [typeHint_of_typeOf (typeOf_of_staticReceiver? hi), Ty.external] at hclass
      | none =>
        simp only [hi, Option.isSome_none, Bool.false_eq_true, if_false, Checked.found_bind,
          List.append_eq_nil_iff] at h
        obtain ⟨ht, _, hcall⟩ := h
        rw [typeHint_of_typeOf ((agrees hown t).value ht).1] at hclass
        rw [(Symbols.checkCallOn_own hown hclass.2 hcall).2] at hcall
        have hadmits := Symbols.admits_of_checkOwnCall hcall hc
        rwa [length_checkValues] at hadmits
    · cases hc

/-- The declarations that a body without findings can go by. -/
structure Settled (s : Scope) : Prop where
  concrete : s.Concrete
  own : s.symbols.isExternal s.symbols.ownTy = false
  params : ∀ m ∈ s.symbols.methods, ∀ v ∈ m.params, v.ty.isVoid = false

theorem Concrete.kind_callTy (hs : s.Concrete) (m : String) (receiver : Option Ty) :
    (s.symbols.callTy m receiver).kind ≠ .indeterminate := by
  unfold Symbols.callTy
  split
  · next c hc =>
    exact Ty.kind_ne_indeterminate (hs.methods c (Symbols.mem_methods_of_callee? hc)).returnTy
  · simp [Ty.external]

mutual

theorem Concrete.kind_typeOf (hs : s.Concrete) : ∀ {e : Expr} {t : Ty}, s.typeOf e = .ok t →
    t.kind ≠ .indeterminate
  | .literal v p, t, h => by
    cases h
    cases v <;> simp [Literal.ty, Ty.int, Ty.boolean]
  | .name n p, t, h => by
    simp only [typeOf, nameTy] at h
    cases hb : s.lookup n with
    | some b =>
      simp only [hb, Except.ok.injEq] at h
      subst h
      exact Ty.kind_ne_indeterminate (hs.lookup hb)
    | none =>
      simp only [hb] at h
      split at h
      · cases h
        simp [Ty.external]
      · split at h <;> cases h
  | .this p, t, h => by
    simp only [typeOf, thisTy] at h
    split at h <;> cases h
    simp [Symbols.ownTy, Ty.named]
  | .binary op l r p, t, h => by
    obtain ⟨lt, _, h⟩ := exists_typeOf h
    obtain ⟨rt, _, h⟩ := exists_typeOf h
    obtain rfl := Typing.ty_of_binary h
    exact Ty.kind_ne_indeterminate op.isEscape_resultTy
  | .unary op e p, t, h => by
    obtain ⟨et, _, h⟩ := exists_typeOf h
    obtain rfl := Typing.ty_of_unary h
    exact Ty.kind_ne_indeterminate op.isEscape_ty
  | .paren e, t, h => hs.kind_typeOf (e := e) h
  | .index a i p, t, h => by
    obtain ⟨at', hat, h⟩ := exists_typeOf h
    rw [Typing.kind_element h]
    exact hs.kind_typeOf hat
  | .length a p, t, h => by
    obtain ⟨at', _, h⟩ := exists_typeOf h
    obtain rfl := Typing.ty_of_length h
    simp [Ty.int]
  | .call none m as p, t, h => by
    simp only [typeOf] at h
    split at h <;> cases h
    exact hs.kind_callTy m none
  | .call (some r) m as p, t, h => by
    obtain ⟨rt, _, h⟩ := exists_typeOf h
    cases h
    exact hs.kind_callTy m (some rt)
  | .newObject c p, t, h => by
    cases h
    simp [Ty.named]
  | .newArray u e p, t, h => by
    cases h
    exact Ty.kind_ne_indeterminate (Ty.isEscape_ofName u)
  | .arrayInit es p, t, h => by
    simp only [typeOf] at h
    cases hes : s.valuesOf es with
    | error err => simp [hes, bind, Except.bind] at h
    | ok ts =>
      simp only [hes, bind, Except.bind] at h
      obtain ⟨u, hu, huk⟩ := Typing.exists_kind_of_arrayInit h
      rw [← huk]
      exact hs.kind_valuesOf hes u hu

theorem Concrete.kind_valuesOf (hs : s.Concrete) : ∀ {es : List Expr} {ts : List Ty},
    s.valuesOf es = .ok ts → ∀ t ∈ ts, t.kind ≠ .indeterminate
  | [], ts, h => by
    cases h
    simp
  | e :: es, ts, h => by
    obtain ⟨et, het, h⟩ := exists_typeOf h
    cases hes : s.valuesOf es with
    | error err => simp [hes, bind, Except.bind] at h
    | ok us =>
      simp only [hes, bind, Except.bind, pure, Except.pure, Except.ok.injEq] at h
      subst h
      exact List.forall_mem_cons.2 ⟨hs.kind_typeOf het, hs.kind_valuesOf hes⟩

end

theorem check_stripParens (e : Expr) : s.check e.stripParens = s.check e := by
  fun_induction Expr.stripParens e with
  | case1 e ih => rw [ih, check]
  | case2 => rfl

theorem isVoid_checkValues {es : List Expr} (h : (s.checkValues es).found = []) :
    ∀ a ∈ (s.checkValues es).value, a.ty.isVoid = false := by
  induction es with
  | nil => simp [checkValues]
  | cons e es ih =>
    obtain ⟨he, hes⟩ := found_checkValues_cons.1 h
    obtain ⟨_, hvoid, hvalue⟩ := Checked.asValue_eq he
    rw [value_checkValues_cons]
    refine List.forall_mem_cons.2 ⟨?_, ih hes⟩
    rw [checkValue, hvalue]
    exact hvoid

/-! ### Accepted expressions have derivations -/

def IsValue : Expectation → Prop
  | .discard => False
  | .value t => t.isVoid = false
  | .unknown => True

theorem isValue_of (t : Ty) : IsValue (.of t) := by
  unfold Expectation.of
  split
  · trivial
  · next h =>
    simp only [Bool.or_eq_true, not_or, Bool.not_eq_true] at h
    exact h.2

theorem isValue_unknown : IsValue .unknown := trivial
theorem isValue_int : IsValue (.value .int) := rfl
theorem isValue_boolean : IsValue (.value .boolean) := rfl

theorem isValue_operandExpectations (s : Scope) (op : BinaryOp) (l r : Expr) :
    IsValue (s.operandExpectations op l r).1 ∧ IsValue (s.operandExpectations op l r).2 := by
  unfold operandExpectations
  split
  · exact ⟨rfl, rfl⟩
  · exact ⟨rfl, rfl⟩
  · exact ⟨rfl, rfl⟩
  · exact ⟨isValue_of _, isValue_of _⟩

theorem isValue_arrayExpectation {want : Expectation} (h : IsValue want) :
    IsValue (arrayExpectation want) := by
  cases want with
  | value t =>
    simp only [arrayExpectation]
    split
    · trivial
    · exact h
  | discard | unknown => trivial

theorem isVoid_initElementTy {hinted : Ty} (h : hinted.isVoid = false) {want : Expectation}
    (hw : IsValue want) : (initElementTy hinted want).isVoid = false := by
  unfold initElementTy
  split
  · cases want with
    | value t =>
      dsimp only
      split
      · exact hw
      · rfl
    | discard | unknown => rfl
  · exact h

theorem dest_eq_some {want : Expectation} (hw : IsValue want) {ret : Ty} (h : ret.isVoid = false)
    (σ : Supply) : want.dest ret σ = some ⟨σ.temps, ret⟩ := by
  cases want with
  | discard => exact hw.elim
  | value t | unknown => simp [Expectation.dest, h]

theorem IsValue.foreignTy {want : Expectation} (hw : IsValue want) :
    want.foreignTy.isVoid = false := by
  cases want with
  | discard => exact hw.elim
  | value t => exact hw
  | unknown => rfl

/-- The expression has a derivation wherever a value is expected of it. -/
abbrev Obtainable (s : Scope) (e : Expr) : Prop := s.Yields IsValue (fun _ _ => True) e

theorem threads_isValue : Threads IsValue (fun _ _ => True) where
  of := isValue_of
  refl _ := trivial
  trans _ _ := trivial
  takeTemp _ := trivial

theorem Settled.varargWanted (hs : s.Settled) (m : String) (receiver : Option Ty) :
    ∀ c ∈ s.symbols.callee? m receiver, VarargWanted IsValue c := by
  intro c hc v hv
  have hmem : v ∈ c.params := List.mem_of_getLast? (Option.filter_eq_some_iff.1 hv).1
  have hvoid := hs.params c (Symbols.mem_methods_of_callee? hc) v hmem
  exact ⟨hvoid, hvoid⟩

theorem Settled.exists_receiver (hs : s.Settled) {t : Expr} {m : String} {args : List PlacedTy}
    {p : Span} (ht : s.Obtainable t) (hnone : s.staticReceiver? t = none)
    (hfound : ((s.check t).asValue t).found = [])
    (hcall : (s.symbols.checkCallOn p m ((s.check t).asValue t).value args).found = []) (σ : Supply) :
    ∃ site σ', s.LowersSite (some t) m σ site σ' ∧
      site.callee = s.symbols.callee? m (some ((s.check t).asValue t).value) ∧ True := by
  have hty := ((agrees hs.own t).value hfound).1
  obtain ⟨harray, c, hc⟩ :=
    Symbols.exists_named_of_checkCallOn hcall (hs.concrete.kind_typeOf hty)
  have howner : s.ownerOf ((s.check t).asValue t).value m σ = .ok (s.symbols.internalName c) σ := by
    simp only [ownerOf, harray, hc]
    rfl
  obtain ⟨f, σ₁, hf, _⟩ := ht .unknown σ trivial
  exact ⟨_, σ₁, .receiver hnone hty howner hf, rfl, trivial⟩

theorem Settled.exists_site (hs : s.Settled) {t : Option Expr} {m : String} {as : List Expr}
    {p : Span} (h : (s.check (.call t m as p)).found = [])
    (ht : ∀ e ∈ t, s.staticReceiver? e = none → s.Obtainable e) :
    ∃ callee, (∀ c ∈ callee, VarargWanted IsValue c) ∧
      (∀ c ∈ callee, (s.check (.call t m as p)).value = c.returnTy) ∧
      ∀ σ, ∃ site σ', s.LowersSite t m σ site σ' ∧ site.callee = callee ∧ True := by
  cases t with
  | none =>
    simp only [check] at h ⊢
    cases hstatic : s.method.isStatic with
    | true => simp [hstatic, Checked.report] at h
    | false =>
      simp only [hstatic, Bool.false_eq_true, if_false, Checked.found_bind, Checked.value_bind,
        List.append_eq_nil_iff] at h ⊢
      refine ⟨s.symbols.callee? m none, hs.varargWanted m none, ?_, ?_⟩
      · intro c hc
        rw [Symbols.value_checkOwnCall h.2]
        exact Symbols.callTy_of_callee? hc
      · intro σ
        exact ⟨_, σ, .implicit hstatic, rfl, trivial⟩
  | some t =>
    simp only [check] at h ⊢
    cases hi : s.staticReceiver? t with
    | some i => exact ⟨none, by simp, by simp, fun σ => ⟨_, σ, .static hi, rfl, trivial⟩⟩
    | none =>
      simp only [hi, Option.isSome_none, Bool.false_eq_true, if_false, Checked.found_bind,
        Checked.value_bind, List.append_eq_nil_iff] at h ⊢
      obtain ⟨hfound, _, hcall⟩ := h
      refine ⟨_, hs.varargWanted m (some _), ?_,
        hs.exists_receiver (ht t rfl hi) hi hfound hcall⟩
      intro c hc
      rw [Symbols.value_checkCallOn hs.own hcall]
      exact Symbols.callTy_of_callee? hc

theorem Settled.exists_lowersCall (hs : s.Settled) {t : Option Expr} {m : String} {as : List Expr}
    {p : Span} (h : (s.check (.call t m as p)).found = [])
    (ht : ∀ e ∈ t, s.staticReceiver? e = none → s.Obtainable e) (has : ∀ e ∈ as, s.Obtainable e)
    (hlen : as.length < 2147483648) (want : Expectation) (σ : Supply) :
    ∃ code dest σ', s.LowersCall t m as p want σ code dest σ' ∧
      (IsValue want → (s.check (.call t m as p)).value.isVoid = false → dest.isSome = true) := by
  obtain ⟨callee, hvararg, hvalue, hsite⟩ := hs.exists_site h ht
  obtain ⟨code, fs, σ₁, σ₂, hc, _⟩ :=
    exists_call threads_isValue hsite has hlen hvararg p want (fun _ => trivial) σ
  refine ⟨code, _, σ₂, hc, ?_⟩
  intro hw hvoid
  have hret : (BoundCall.of callee want fs).ret.isVoid = false := by
    cases callee with
    | none => exact hw.foreignTy
    | some c => rwa [hvalue c rfl] at hvoid
  simp [dest_eq_some hw hret]

theorem Settled.obtainable_call (hs : s.Settled) {t : Option Expr} {m : String} {as : List Expr}
    {p : Span} (h : (s.check (.call t m as p)).found = [])
    (ht : ∀ e ∈ t, s.staticReceiver? e = none → s.Obtainable e) (has : ∀ e ∈ as, s.Obtainable e)
    (hlen : as.length < 2147483648)
    (hvoid : (s.check (.call t m as p)).value.isVoid = false) : s.Obtainable (.call t m as p) := by
  intro want σ hw
  obtain ⟨code, dest, σ₁, hc, hdest⟩ := hs.exists_lowersCall h ht has hlen want σ
  obtain ⟨d, rfl⟩ := Option.isSome_iff_exists.1 (hdest hw hvoid)
  exact ⟨_, σ₁, .call hc, trivial⟩

theorem Settled.obtainable_arrayInit (hs : s.Settled) {es : List Expr} {p : Span}
    (h : (s.check (.arrayInit es p)).found = []) (hes : ∀ e ∈ es, s.Obtainable e)
    (hlen : es.length < 2147483648) : s.Obtainable (.arrayInit es p) := by
  intro want σ hw
  have hty := agrees hs.own (.arrayInit es p) h
  simp only [check, Checked.found_bind, List.append_eq_nil_iff] at h
  obtain ⟨u, hu, hk⟩ := Typing.exists_kind_of_arrayInit (Checked.ofRule_eq h.2)
  obtain ⟨a, ha, rfl⟩ := List.mem_map.1 hu
  have hhint : (s.typeHint (.arrayInit es p)).isVoid = false := by
    have hvoid := isVoid_checkValues h.1 a ha
    simp only [typeHint, hty]
    simp only [Ty.isVoid] at hvoid ⊢
    rw [hk] at hvoid
    exact hvoid
  obtain ⟨f, σ₁, hf, _⟩ :=
    exists_packs threads_isValue hes hlen _ (isVoid_initElementTy hhint hw) σ
  exact ⟨f, σ₁, .arrayInit hf, trivial⟩

theorem obtainable_name {n : String} {p : Span} (h : s.isBound (.name n p) = true) :
    s.Obtainable (.name n p) := by
  intro want σ _
  obtain ⟨b, hb⟩ := Option.isSome_iff_exists.1 h
  cases b with
  | localVar v | param v => exact ⟨_, σ, .var hb rfl, trivial⟩
  | field f => exact ⟨_, _, .field hb, trivial⟩

mutual

/-- An accepted expression has a derivation. A call has to return something for that. -/
theorem obtainable (hs : s.Settled) : ∀ {e : Expr}, (s.check e).found = [] → s.isBound e = true →
    (∀ n ∈ e.nodes, n.countable = true) →
    (∀ t m as p, e.stripParens = .call t m as p → (s.check e).value.isVoid = false) →
    s.Obtainable e
  | .literal v p, _, _, _, _ => fun want σ _ => ⟨_, σ, .literal, trivial⟩
  | .name n p, _, hb, _, _ => obtainable_name hb
  | .this p, h, _, _, _ => by
    intro want σ _
    cases hstatic : s.method.isStatic with
    | true => simp [check, thisTy, hstatic, Checked.ofRule] at h
    | false => exact ⟨_, σ, .this hstatic, trivial⟩
  | .binary op l r p, h, hb, hn, _ => by
    simp only [check, Checked.found_bind, List.append_eq_nil_iff] at h
    rw [isBound, Bool.and_eq_true] at hb
    simp only [Expr.nodes, List.cons_append, List.forall_mem_cons, List.forall_mem_append] at hn
    obtain ⟨hl, hlv, _⟩ := Checked.asValue_eq h.1
    obtain ⟨hr, hrv, _⟩ := Checked.asValue_eq h.2.1
    intro want σ _
    obtain ⟨hwl, hwr⟩ := s.isValue_operandExpectations op l r
    obtain ⟨lf, σ₁, hlf, _⟩ := obtainable hs hl hb.1 hn.2.1 (fun _ _ _ _ _ => hlv) _ σ hwl
    obtain ⟨rf, σ₂, hrf, _⟩ := obtainable hs hr hb.2 hn.2.2 (fun _ _ _ _ _ => hrv) _ σ₁ hwr
    exact ⟨_, _, .binary hlf hrf, trivial⟩
  | .unary op e p, h, hb, hn, _ => by
    simp only [check, Checked.found_bind, List.append_eq_nil_iff] at h
    simp only [Expr.nodes, List.forall_mem_cons] at hn
    obtain ⟨he, hv, _⟩ := Checked.asValue_eq h.1
    intro want σ _
    obtain ⟨f, σ₁, hf, _⟩ :=
      obtainable hs he hb hn.2 (fun _ _ _ _ _ => hv) (.value op.ty) σ op.scalar_ty.2
    exact ⟨_, _, .unary hf, trivial⟩
  | .paren e, h, hb, hn, hv => by
    simp only [Expr.nodes, List.forall_mem_cons] at hn
    intro want σ hw
    obtain ⟨f, σ₁, hf, _⟩ := obtainable (e := e) hs h hb hn.2 hv want σ hw
    exact ⟨f, σ₁, .paren hf, trivial⟩
  | .index a i p, h, hb, hn, _ => by
    simp only [check, Checked.found_bind, List.append_eq_nil_iff] at h
    rw [isBound, Bool.and_eq_true] at hb
    simp only [Expr.nodes, List.cons_append, List.forall_mem_cons, List.forall_mem_append] at hn
    obtain ⟨ha, hav, _⟩ := Checked.asValue_eq h.1
    obtain ⟨hi, hiv, _⟩ := Checked.asValue_eq h.2.1
    intro want σ hw
    obtain ⟨af, σ₁, haf, _⟩ := obtainable hs ha hb.1 hn.2.1 (fun _ _ _ _ _ => hav) _ σ
      (isValue_arrayExpectation hw)
    obtain ⟨jf, σ₂, hjf, _⟩ :=
      obtainable hs hi hb.2 hn.2.2 (fun _ _ _ _ _ => hiv) (.value .int) σ₁ rfl
    exact ⟨_, _, .index haf hjf, trivial⟩
  | .length a p, h, hb, hn, _ => by
    simp only [check, Checked.found_bind, List.append_eq_nil_iff] at h
    simp only [Expr.nodes, List.forall_mem_cons] at hn
    obtain ⟨ha, hv, _⟩ := Checked.asValue_eq h.1
    intro want σ _
    obtain ⟨f, σ₁, hf, _⟩ :=
      obtainable hs ha hb hn.2 (fun _ _ _ _ _ => hv) (.value Ty.int.array) σ rfl
    exact ⟨_, _, .length hf, trivial⟩
  | .call none m as p, h, hb, hn, hv => by
    obtain ⟨hlen, _, hna⟩ := Expr.countable_call hn
    exact hs.obtainable_call h (by simp)
      (obtainable_all hs (found_of_check_call h).2 (isBound_call.1 hb).2 hna) hlen (hv _ _ _ _ rfl)
  | .call (some t) m as p, h, hb, hn, hv => by
    obtain ⟨hlen, hnt, hna⟩ := Expr.countable_call hn
    obtain ⟨hft, hfa⟩ := found_of_check_call h
    obtain ⟨hbt, hba⟩ := isBound_call.1 hb
    refine hs.obtainable_call h ?_ (obtainable_all hs hfa hba hna) hlen (hv _ _ _ _ rfl)
    intro e he hnone
    obtain rfl : t = e := Option.some.inj he
    obtain ⟨hf, hfv, _⟩ := Checked.asValue_eq (hft t rfl hnone)
    exact obtainable hs hf (hbt t rfl hnone) (hnt t rfl) (fun _ _ _ _ _ => hfv)
  | .newObject c p, _, _, _, _ => fun want σ _ => ⟨_, _, .newObject, trivial⟩
  | .newArray t e p, h, hb, hn, _ => by
    simp only [check, Checked.found_bind, List.append_eq_nil_iff] at h
    simp only [Expr.nodes, List.forall_mem_cons] at hn
    obtain ⟨he, hv, _⟩ := Checked.asValue_eq h.1
    intro want σ _
    obtain ⟨f, σ₁, hf, _⟩ := obtainable hs he hb hn.2 (fun _ _ _ _ _ => hv) (.value .int) σ rfl
    exact ⟨_, _, .newArray hf, trivial⟩
  | .arrayInit es p, h, hb, hn, _ => by
    have hfes := h
    simp only [check, Checked.found_bind, List.append_eq_nil_iff] at hfes
    simp only [Expr.nodes, List.forall_mem_cons] at hn
    have hlen : es.length < 2147483648 := by
      simpa [Node.countable, Expr.countable] using hn.1
    exact hs.obtainable_arrayInit h (obtainable_all hs hfes.1 hb hn.2) hlen

theorem obtainable_all (hs : s.Settled) : ∀ {es : List Expr}, (s.checkValues es).found = [] →
    s.areBound es = true → (∀ n ∈ Expr.nodesOf es, n.countable = true) →
    ∀ e ∈ es, s.Obtainable e
  | [], _, _, _ => by simp
  | e :: es, h, hb, hn => by
    obtain ⟨hvalue, hes⟩ := found_checkValues_cons.1 h
    rw [areBound, Bool.and_eq_true] at hb
    simp only [Expr.nodesOf, List.forall_mem_append] at hn
    obtain ⟨he, hv, _⟩ := Checked.asValue_eq hvalue
    exact List.forall_mem_cons.2 ⟨obtainable hs he hb.1 hn.1 (fun _ _ _ _ _ => hv),
      obtainable_all hs hes hb.2 hn.2⟩

end

theorem Settled.exists_effect (hs : s.Settled) {e : Expr} (h : (s.check e).found = [])
    (hb : s.isBound e = true) (hn : ∀ n ∈ e.nodes, n.countable = true) (σ : Supply) :
    ∃ code σ', s.LowersEffect e σ code σ' := by
  rw [← check_stripParens] at h
  rw [← isBound_stripParens] at hb
  replace hn : ∀ n ∈ e.stripParens.nodes, n.countable = true := fun n hmem =>
    hn n (e.nodes_stripParens_subset hmem)
  by_cases hcall : ∃ t m as p, e.stripParens = .call t m as p
  · obtain ⟨t, m, as, p, he⟩ := hcall
    rw [he] at h hb hn
    obtain ⟨hlen, hnt, hna⟩ := Expr.countable_call hn
    obtain ⟨hft, hfa⟩ := found_of_check_call h
    obtain ⟨hbt, hba⟩ := isBound_call.1 hb
    have ht : ∀ e ∈ t, s.staticReceiver? e = none → s.Obtainable e := by
      intro e he hnone
      obtain ⟨hf, hv, _⟩ := Checked.asValue_eq (hft e he hnone)
      exact obtainable hs hf (hbt e he hnone) (hnt e he) (fun _ _ _ _ _ => hv)
    obtain ⟨code, dest, σ₁, hc, _⟩ :=
      hs.exists_lowersCall h ht (obtainable_all hs hfa hba hna) hlen .discard σ
    exact ⟨code, σ₁, .call he hc⟩
  · have hplain : ∀ t m as p, e.stripParens ≠ .call t m as p :=
      fun t m as p he => hcall ⟨t, m, as, p, he⟩
    obtain ⟨f, σ₁, hf, _⟩ := obtainable hs h hb hn
      (fun t m as p he => absurd (e.stripParens_stripParens.symm.trans he) (hplain t m as p))
      (.of (s.typeHint e.stripParens)) σ (isValue_of _)
    exact ⟨f.code, σ₁, .value hplain hf⟩

theorem Settled.exists_value (hs : s.Settled) {e : Expr} (h : (s.checkValue e).found = [])
    (hb : s.isBound e = true) (hn : ∀ n ∈ e.nodes, n.countable = true) {want : Expectation}
    (hw : IsValue want) (σ : Supply) : ∃ f σ', s.Lowers e want σ f σ' := by
  obtain ⟨hf, hv, _⟩ := Checked.asValue_eq h
  obtain ⟨f, σ', hl, _⟩ := obtainable hs hf hb hn (fun _ _ _ _ _ => hv) want σ hw
  exact ⟨f, σ', hl⟩

theorem Settled.exists_assign (hs : s.Settled) {target value : Expr}
    (ht : (s.checkTarget target).found = []) (hv : (s.checkValue value).found = [])
    (hbt : s.isBound target = true) (hbv : s.isBound value = true)
    (hnt : ∀ n ∈ target.nodes, n.countable = true) (hnv : ∀ n ∈ value.nodes, n.countable = true)
    (σ : Supply) : ∃ code σ', s.LowersAssign target value σ code σ' := by
  cases target with
  | name n p =>
    obtain ⟨b, hb⟩ := Option.isSome_iff_exists.1 hbt
    obtain ⟨v, σ₁, hl⟩ := hs.exists_value hv hbv hnv (isValue_of b.symbol.ty.asValue) σ
    cases b with
    | localVar x | param x => exact ⟨_, σ₁, .var hb rfl hl⟩
    | field f => exact ⟨_, σ₁, .field hb hl⟩
  | index a i p =>
    have hplace := (Checked.asValue_eq ht).1
    simp only [check, Checked.found_bind, List.append_eq_nil_iff] at hplace
    rw [isBound, Bool.and_eq_true] at hbt
    simp only [Expr.nodes, List.cons_append, List.forall_mem_cons, List.forall_mem_append] at hnt
    obtain ⟨af, σ₁, ha⟩ := hs.exists_value hplace.1 hbt.1 hnt.2.1 isValue_unknown σ
    obtain ⟨jf, σ₂, hi⟩ := hs.exists_value hplace.2.1 hbt.2 hnt.2.2 isValue_int σ₁
    obtain ⟨v, σ₃, hl⟩ := hs.exists_value hv hbv hnv (isValue_of af.operand.ty.element) σ₂
    exact ⟨_, σ₃, .element ha hi hl⟩
  | _ => simp [checkTarget, Checked.report] at ht

mutual

theorem exists_lowersStmt (hs : s.Settled) : ∀ {t : Stmt}, (s.checkStmt t).found = [] →
    s.isBoundStmt t = true → (∀ n ∈ t.nodes, n.countable = true) → ∀ σ : Supply,
    ∃ code σ', s.LowersStmt t σ code σ'
  | .block b p, h, hb, hn, σ => by
    simp only [Stmt.nodes, List.forall_mem_cons] at hn
    have hfound : (s.checkBody b).found = [] := h
    obtain ⟨code, σ₁, hl⟩ := exists_lowersBody hs hfound hb hn.2 σ
    exact ⟨code, σ₁, .block hl⟩
  | .cond c t none p, h, hb, hn, σ => by
    simp only [checkStmt, checkCondition, Checked.found_bind, List.append_eq_nil_iff] at h
    rw [isBoundStmt, Bool.and_eq_true] at hb
    simp only [Stmt.nodes, List.cons_append, List.forall_mem_cons, List.forall_mem_append] at hn
    obtain ⟨cf, σ₁, hc⟩ :=
      hs.exists_value h.1.1 hb.1 hn.2.1 isValue_boolean σ.takeLabel
    obtain ⟨tc, σ₂, ht⟩ := exists_lowersStmt hs h.2 hb.2 hn.2.2 σ₁
    exact ⟨_, σ₂, .condThen hc ht⟩
  | .cond c t (some e) p, h, hb, hn, σ => by
    simp only [checkStmt, checkCondition, Checked.found_bind, List.append_eq_nil_iff] at h
    rw [isBoundStmt, Bool.and_eq_true, Bool.and_eq_true] at hb
    simp only [Stmt.nodes, List.cons_append, List.forall_mem_cons, List.forall_mem_append] at hn
    obtain ⟨cf, σ₁, hc⟩ :=
      hs.exists_value h.1.1 hb.1.1 hn.2.1.1 isValue_boolean σ.takeLabel
    obtain ⟨ec, σ₂, he⟩ := exists_lowersStmt hs h.2.2 hb.2 hn.2.2 σ₁
    obtain ⟨tc, σ₃, ht⟩ := exists_lowersStmt hs h.2.1 hb.1.2 hn.2.1.2 σ₂
    exact ⟨_, σ₃, .condElse hc he ht⟩
  | .loop c b p, h, hb, hn, σ => by
    simp only [checkStmt, checkCondition, Checked.found_bind, List.append_eq_nil_iff] at h
    rw [isBoundStmt, Bool.and_eq_true] at hb
    simp only [Stmt.nodes, List.cons_append, List.forall_mem_cons, List.forall_mem_append] at hn
    obtain ⟨cf, σ₁, hc⟩ :=
      hs.exists_value h.1.1 hb.1 hn.2.1 isValue_boolean σ.takeLabel
    obtain ⟨bc, σ₂, hl⟩ := exists_lowersStmt hs h.2 hb.2 hn.2.2 σ₁
    exact ⟨_, σ₂, .loop hc hl⟩
  | .expr e p, h, hb, hn, σ => by
    simp only [checkStmt, Checked.found_bind, Checked.found_pure, List.append_nil] at h
    simp only [Stmt.nodes, List.forall_mem_cons] at hn
    obtain ⟨code, σ₁, hl⟩ := hs.exists_effect h hb hn.2 σ
    exact ⟨code, σ₁, .expr hl⟩
  | .assign target value p, h, hb, hn, σ => by
    simp only [checkStmt, Checked.found_bind, List.append_eq_nil_iff] at h
    rw [isBoundStmt, Bool.and_eq_true] at hb
    simp only [Stmt.nodes, List.cons_append, List.forall_mem_cons, List.forall_mem_append] at hn
    obtain ⟨code, σ₁, hl⟩ := hs.exists_assign h.1 h.2.1 hb.1 hb.2 hn.2.1 hn.2.2 σ
    exact ⟨code, σ₁, .assign hl⟩
  | .ret none p, _, _, _, σ => ⟨_, σ, .retNone⟩
  | .ret (some e) p, h, hb, hn, σ => by
    simp only [checkStmt, checkReturn] at h
    simp only [Stmt.nodes, List.forall_mem_cons] at hn
    split at h
    · simp [Checked.report] at h
    · simp only [Checked.found_bind, List.append_eq_nil_iff] at h
      obtain ⟨v, σ₁, hl⟩ := hs.exists_value h.1 hb hn.2 (isValue_of s.method.returnTy) σ
      exact ⟨_, σ₁, .retSome hl⟩

theorem exists_lowersBody (hs : s.Settled) : ∀ {ts : List Stmt}, (s.checkBody ts).found = [] →
    s.isBoundBody ts = true → (∀ n ∈ Stmt.nodesOf ts, n.countable = true) → ∀ σ : Supply,
    ∃ code σ', s.LowersBody ts σ code σ'
  | [], _, _, _, σ => ⟨[], σ, .nil⟩
  | t :: ts, h, hb, hn, σ => by
    simp only [checkBody, Checked.found_bind, List.append_eq_nil_iff] at h
    rw [isBoundBody, Bool.and_eq_true] at hb
    simp only [Stmt.nodesOf, List.forall_mem_append] at hn
    obtain ⟨code, σ₁, ht⟩ := exists_lowersStmt hs h.1 hb.1 hn.1 σ
    obtain ⟨rest, σ₂, hts⟩ := exists_lowersBody hs h.2 hb.2 hn.2 σ₁
    exact ⟨_, σ₂, .cons ht hts⟩

end

end Scope

end SingleClass
