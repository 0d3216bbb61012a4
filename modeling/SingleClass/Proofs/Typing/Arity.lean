import SingleClass.Proofs.Constant.Reduction
import SingleClass.Proofs.Typing.Agreement
import SingleClass.Proofs.Typing.Parts
set_option autoImplicit false

/-!
Calls have the arguments that their methods need. In an open world types are known in part only, and
what is lowered may have been optimised after it was checked, so the calls that count are told by the
form of their receivers: `Scope.ofOwnClass` holds of all expressions that have the type of the class
itself, and of none that it did not hold of before literals were put in (`Expr.Reduces.ofOwnClass`).
-/

namespace SingleClass

namespace Scope

mutual

/-- By its form, the expression can have the class itself, or an array of it, as its type. -/
def ofOwnClass (s : Scope) : Expr → Bool
  | .literal .. | .binary .. | .unary .. | .length .. => false
  | .name n _ => (s.lookup n).any (·.symbol.ty.kind = .named s.symbols.className)
  | .this _ => true
  | .paren e => s.ofOwnClass e
  | .index a _ _ => s.ofOwnClass a
  | .call none m _ _ => (s.symbols.method? m).any (·.returnTy.kind = .named s.symbols.className)
  | .call (some t) m _ _ =>
    s.ofOwnClass t && (s.symbols.method? m).any (·.returnTy.kind = .named s.symbols.className)
  | .newObject c _ => c = s.symbols.className
  | .newArray t _ _ => (Ty.ofName t).kind = .named s.symbols.className
  | .arrayInit es _ => s.anyOfOwnClass es

def anyOfOwnClass (s : Scope) : List Expr → Bool
  | [] => false
  | e :: es => s.ofOwnClass e || s.anyOfOwnClass es

end

end Scope

namespace Typing

theorem ty_of_binary {op : BinaryOp} {l r t : Ty} (h : Typing.binary op l r = .ok t) :
    t = op.resultTy := by
  unfold Typing.binary at h
  (repeat' split at h) <;> cases h <;> rfl

theorem ty_of_unary {op : UnaryOp} {u t : Ty} (h : Typing.unary op u = .ok t) : t = op.ty := by
  unfold Typing.unary at h
  split at h <;> cases h
  rfl

theorem ty_of_length {u t : Ty} (h : Typing.length u = .ok t) : t = .int := by
  unfold Typing.length at h
  cases he : Typing.element u with
  | error err => simp [he, Except.map] at h
  | ok v =>
    simp only [he, Except.map, Except.ok.injEq] at h
    exact h.symm

theorem kind_element {t t' : Ty} (h : Typing.element t = .ok t') : t'.kind = t.kind := by
  unfold Typing.element at h
  split at h
  · cases h
    rfl
  · split at h
    · cases h
      rfl
    · cases h

theorem exists_kind_of_arrayInit {ts : List Ty} {t : Ty} (h : Typing.arrayInit ts = .ok t) :
    ∃ u ∈ ts, u.kind = t.kind := by
  unfold Typing.arrayInit at h
  cases hfirst : ts.find? fun u => !u.isEscape with
  | none =>
    cases ts with
    | nil => simp at h
    | cons u us =>
      simp only [hfirst, List.head?_cons, Except.ok.injEq] at h
      exact ⟨u, List.mem_cons_self, h ▸ rfl⟩
  | some first =>
    simp only [hfirst] at h
    split at h
    · cases h
    · split at h
      · cases h
      · cases h
        exact ⟨first, List.mem_of_find?_eq_some hfirst, rfl⟩

theorem kind_of_arrayInit {ts : List Ty} {t u : Ty} (h : Typing.arrayInit ts = .ok t) (hu : u ∈ ts)
    (hescape : u.isEscape = false) : t.kind = u.kind := by
  unfold Typing.arrayInit at h
  cases hfirst : ts.find? fun u => !u.isEscape with
  | none => simpa [hescape] using List.find?_eq_none.1 hfirst u hu
  | some first =>
    simp only [hfirst] at h
    split at h
    · cases h
    · split at h
      · cases h
      · next hother =>
        cases h
        have hsame := List.find?_eq_none.1 hother u hu
        simp only [hescape, Bool.not_false, Bool.true_and, decide_eq_true_eq, ne_eq,
          Decidable.not_not] at hsame
        rw [hsame]
        rfl

end Typing

namespace Symbols

variable {S : Symbols}

theorem checkCallOn_own (hown : S.isExternal S.ownTy = false) {span : Span} {m : String} {t : Ty}
    {args : List PlacedTy} (hk : t.kind = .named S.className)
    (h : (S.checkCallOn span m t args).found = []) :
    t.isArray = false ∧ S.checkCallOn span m t args = S.checkOwnCall span m args := by
  have hext : (t.isEscape || S.isExternal t) = false := by
    simp [Ty.isEscape, hk, isExternal_of_kind hk, hown]
  unfold checkCallOn at h ⊢
  cases ha : t.isArray with
  | true => simp [hext, ha, Checked.report] at h
  | false =>
    simp only [hext, hk, ne_eq, not_true_eq_false, decide_false, Bool.or_self, Bool.false_eq_true,
      if_false, and_self]

theorem any_kind_of_callTy {m : String} {k : String} (h : (S.callTy m none).kind = .named k) :
    (S.method? m).any (·.returnTy.kind = .named k) = true := by
  unfold callTy callee? at h
  cases hm : S.method? m with
  | none => simp [hm, Ty.external] at h
  | some c => simpa [hm] using h

theorem kind_callTy_of_any {m : String} {k : String}
    (h : (S.method? m).any (·.returnTy.kind = .named k) = true) :
    (S.callTy m none).kind = .named k := by
  cases hm : S.method? m with
  | none => simp [hm] at h
  | some c => simpa [callTy, callee?, hm] using h

/-- Calls with so many arguments are enough for the method, if the class declares it. -/
def Suffices (S : Symbols) (m : String) (n : Nat) : Prop :=
  ∀ c, S.method? m = some c → c.fixedArity ≤ n

theorem suffices_of_checkOwnCall {span : Span} {m : String} {args : List PlacedTy}
    (h : (S.checkOwnCall span m args).found = []) : S.Suffices m args.length := by
  intro c hc
  simp only [checkOwnCall, hc, Checked.found_bind, Checked.reportAll, Checked.found_pure,
    List.append_nil, checkArguments] at h
  split at h
  · next harity => exact c.fixedArity_le_of_admits harity
  · simp at h

end Symbols

namespace Scope

variable {s : Scope}

theorem exists_typeOf {A : Type} {e : Expr} {f : Ty → Except TypeError A} {a : A}
    (h : (s.typeOf e >>= fun t => Typing.value e t >>= f) = .ok a) :
    ∃ t, s.typeOf e = .ok t ∧ f t = .ok a := by
  obtain ⟨t, ht, _, hf⟩ := typeOf_bind_eq_ok.1 h
  exact ⟨t, ht, hf⟩

mutual

theorem ofOwnClass_of_typeOf : ∀ {e : Expr} {t : Ty}, s.typeOf e = .ok t →
    t.kind = .named s.symbols.className → s.ofOwnClass e = true
  | .literal v p, t, h, hk => by
    cases h
    cases v <;> simp [Literal.ty, Ty.int, Ty.boolean] at hk
  | .name n p, t, h, hk => by
    simp only [typeOf, nameTy] at h
    cases hb : s.lookup n with
    | some b =>
      simp only [hb, Except.ok.injEq] at h
      subst h
      simpa [ofOwnClass, hb] using hk
    | none =>
      simp only [hb] at h
      split at h
      · cases h
        simp [Ty.external] at hk
      · split at h <;> cases h
  | .this p, t, h, hk => rfl
  | .binary op l r p, t, h, hk => by
    obtain ⟨lt, _, h⟩ := exists_typeOf h
    obtain ⟨rt, _, h⟩ := exists_typeOf h
    obtain rfl := Typing.ty_of_binary h
    unfold BinaryOp.resultTy at hk
    split at hk <;> simp [Ty.int, Ty.boolean] at hk
  | .unary op e p, t, h, hk => by
    obtain ⟨et, _, h⟩ := exists_typeOf h
    obtain rfl := Typing.ty_of_unary h
    cases op <;> simp [UnaryOp.ty, Ty.int, Ty.boolean] at hk
  | .paren e, t, h, hk => ofOwnClass_of_typeOf (e := e) h hk
  | .index a i p, t, h, hk => by
    obtain ⟨at', hat, h⟩ := exists_typeOf h
    exact ofOwnClass_of_typeOf (e := a) hat ((Typing.kind_element h).symm.trans hk)
  | .length a p, t, h, hk => by
    obtain ⟨at', _, h⟩ := exists_typeOf h
    obtain rfl := Typing.ty_of_length h
    simp [Ty.int] at hk
  | .call none m as p, t, h, hk => by
    simp only [typeOf] at h
    split at h
    · cases h
    · cases h
      exact Symbols.any_kind_of_callTy hk
  | .call (some r) m as p, t, h, hk => by
    obtain ⟨rt, hr, h⟩ := exists_typeOf h
    cases h
    by_cases hown : rt.isArray = false ∧ rt.kind = .named s.symbols.className
    · rw [Symbols.callTy_of_own hown.1 hown.2] at hk
      simp only [ofOwnClass, ofOwnClass_of_typeOf hr hown.2, Bool.true_and]
      exact Symbols.any_kind_of_callTy hk
    · rw [Symbols.callTy_of_not_own hown] at hk
      simp [Ty.external] at hk
  | .newObject c p, t, h, hk => by
    cases h
    simpa [ofOwnClass, Ty.named] using hk
  | .newArray u e p, t, h, hk => by
    cases h
    simpa [ofOwnClass, Typing.newArray, Ty.array, Ty.element] using hk
  | .arrayInit es p, t, h, hk => by
    simp only [typeOf] at h
    cases hes : s.valuesOf es with
    | error err => simp [hes, bind, Except.bind] at h
    | ok ts =>
      simp only [hes, bind, Except.bind] at h
      obtain ⟨u, hu, huk⟩ := Typing.exists_kind_of_arrayInit h
      exact anyOfOwnClass_of_valuesOf hes hu (huk.trans hk)

theorem anyOfOwnClass_of_valuesOf : ∀ {es : List Expr} {ts : List Ty} {t : Ty},
    s.valuesOf es = .ok ts → t ∈ ts → t.kind = .named s.symbols.className →
      s.anyOfOwnClass es = true
  | [], ts, t, h, ht, hk => by
    cases h
    simp at ht
  | e :: es, ts, t, h, ht, hk => by
    obtain ⟨et, het, h⟩ := exists_typeOf h
    cases hes : s.valuesOf es with
    | error err => simp [hes, bind, Except.bind] at h
    | ok us =>
      simp only [hes, bind, Except.bind, pure, Except.pure, Except.ok.injEq] at h
      subst h
      rw [anyOfOwnClass, Bool.or_eq_true]
      rcases List.mem_cons.1 ht with rfl | ht
      · exact .inl (ofOwnClass_of_typeOf het hk)
      · exact .inr (anyOfOwnClass_of_valuesOf hes ht hk)

end

theorem ofOwnClass_of_staticReceiver? {e : Expr} {i : Import} (h : s.staticReceiver? e = some i) :
    s.ofOwnClass e = false := by
  fun_induction staticReceiver? s e with
  | case1 n p hn => simp [ofOwnClass, Option.isNone_iff_eq_none.1 hn]
  | case2 => simp at h
  | case3 e ih => exact ih h
  | case4 => simp at h

mutual

theorem kind_of_ofOwnClass (hown : s.symbols.isExternal s.symbols.ownTy = false) : ∀ {e : Expr},
    (s.check e).found = [] → s.ofOwnClass e = true →
      (s.check e).value.kind = .named s.symbols.className
  | .literal .., _, ho | .binary .., _, ho | .unary .., _, ho | .length .., _, ho => by
    simp [ofOwnClass] at ho
  | .name n p, h, ho => by
    have hty := agrees_name s n p h
    cases hb : s.lookup n with
    | none => simp [ofOwnClass, hb] at ho
    | some b =>
      simp only [typeOf, nameTy, hb, Except.ok.injEq] at hty
      rw [← hty]
      simpa [ofOwnClass, hb] using ho
  | .this p, h, ho => by
    cases hs : s.method.isStatic with
    | true => simp [check, thisTy, hs, Checked.ofRule] at h
    | false => simp [check, thisTy, hs, Checked.ofRule, Symbols.ownTy, Ty.named]
  | .paren e, h, ho => kind_of_ofOwnClass hown (e := e) h ho
  | .index a i p, h, ho => by
    simp only [check, Checked.found_bind, Checked.value_bind, List.append_eq_nil_iff] at h ⊢
    obtain ⟨ha, _, hrest⟩ := h
    obtain ⟨hfound, _, hvalue⟩ := Checked.asValue_eq ha
    have hint := Checked.eq_false_of_unreported hrest
    simp only [hint, Bool.false_eq_true, if_false] at hrest ⊢
    rw [Typing.kind_element (Checked.ofRule_eq hrest), hvalue]
    exact kind_of_ofOwnClass hown hfound ho
  | .call none m as p, h, ho => by
    simp only [check] at h ⊢
    cases hs : s.method.isStatic with
    | true => simp [hs, Checked.report] at h
    | false =>
      simp only [hs, Bool.false_eq_true, if_false, Checked.found_bind, Checked.value_bind,
        List.append_eq_nil_iff] at h ⊢
      rw [Symbols.value_checkOwnCall h.2]
      exact Symbols.kind_callTy_of_any ho
  | .call (some t) m as p, h, ho => by
    rw [ofOwnClass, Bool.and_eq_true] at ho
    simp only [check] at h ⊢
    cases hi : s.staticReceiver? t with
    | some i => simp [ofOwnClass_of_staticReceiver? hi] at ho
    | none =>
      simp only [hi, Option.isSome_none, Bool.false_eq_true, if_false, Checked.found_bind,
        Checked.value_bind, List.append_eq_nil_iff] at h ⊢
      obtain ⟨ht, _, hcall⟩ := h
      obtain ⟨hfound, _, hvalue⟩ := Checked.asValue_eq ht
      have hk := kind_of_ofOwnClass hown hfound ho.1
      rw [hvalue] at hcall ⊢
      have hcallee := (Symbols.checkCallOn_own hown hk hcall).2
      rw [hcallee] at hcall ⊢
      rw [Symbols.value_checkOwnCall hcall]
      exact Symbols.kind_callTy_of_any ho.2
  | .newObject c p, h, ho => by
    have hc : c = s.symbols.className := by simpa [ofOwnClass] using ho
    simp only [check]
    split <;> exact congrArg Kind.named hc
  | .newArray t e p, h, ho => by
    have hk : (Ty.ofName t).kind = .named s.symbols.className := by simpa [ofOwnClass] using ho
    simp only [check, Checked.value_bind]
    split <;> split <;> exact hk
  | .arrayInit es p, h, ho => by
    simp only [check, Checked.found_bind, Checked.value_bind, List.append_eq_nil_iff] at h ⊢
    obtain ⟨hes, hinit⟩ := h
    obtain ⟨a, ha, hk⟩ := exists_kind_of_anyOfOwnClass hown hes ho
    have hescape : a.ty.isEscape = false := by simp [Ty.isEscape, hk]
    rw [Typing.kind_of_arrayInit (Checked.ofRule_eq hinit) (List.mem_map.2 ⟨a, ha, rfl⟩) hescape, hk]

theorem exists_kind_of_anyOfOwnClass (hown : s.symbols.isExternal s.symbols.ownTy = false) :
    ∀ {es : List Expr}, (s.checkValues es).found = [] → s.anyOfOwnClass es = true →
      ∃ a ∈ (s.checkValues es).value, a.ty.kind = .named s.symbols.className
  | [], _, ho => by simp [anyOfOwnClass] at ho
  | e :: es, h, ho => by
    obtain ⟨he, hes⟩ := found_checkValues_cons.1 h
    obtain ⟨hfound, _, hvalue⟩ := Checked.asValue_eq he
    rw [value_checkValues_cons]
    rw [anyOfOwnClass, Bool.or_eq_true] at ho
    rcases ho with ho | ho
    · exact ⟨_, List.mem_cons_self, hvalue ▸ kind_of_ofOwnClass hown hfound ho⟩
    · obtain ⟨a, ha, hk⟩ := exists_kind_of_anyOfOwnClass hown hes ho
      exact ⟨a, List.mem_cons_of_mem _ ha, hk⟩

end

/-- A call on the class itself has the arguments that its method needs, and a return without a value
is one from a void method. -/
def Regular (s : Scope) : Node → Prop
  | .expr (.call none m as _) => s.symbols.Suffices m as.length
  | .expr (.call (some t) m as _) => s.ofOwnClass t = true → s.symbols.Suffices m as.length
  | .stmt (.ret none _) => s.method.returnTy.isVoid = true
  | _ => True

theorem length_checkValues (s : Scope) (es : List Expr) :
    (s.checkValues es).value.length = es.length := by
  induction es with
  | nil => rfl
  | cons e es ih => simp [checkValues, ih]

theorem regular_of_unreported (hown : s.symbols.isExternal s.symbols.ownTy = false) {n : Node}
    (h : s.Unreported n) : s.Regular n := by
  match n with
  | .expr (.call none m as p) =>
    simp only [Unreported, check] at h
    cases hs : s.method.isStatic with
    | true => simp [hs, Checked.report] at h
    | false =>
      simp only [hs, Bool.false_eq_true, if_false, Checked.found_bind, List.append_eq_nil_iff] at h
      have hsuffices := Symbols.suffices_of_checkOwnCall h.2
      rwa [length_checkValues] at hsuffices
  | .expr (.call (some t) m as p) =>
    intro ho
    simp only [Unreported, check] at h
    cases hi : s.staticReceiver? t with
    | some i => simp [ofOwnClass_of_staticReceiver? hi] at ho
    | none =>
      simp only [hi, Option.isSome_none, Bool.false_eq_true, if_false, Checked.found_bind,
        List.append_eq_nil_iff] at h
      obtain ⟨ht, _, hcall⟩ := h
      obtain ⟨hfound, _, hvalue⟩ := Checked.asValue_eq ht
      rw [hvalue] at hcall
      rw [(Symbols.checkCallOn_own hown (kind_of_ofOwnClass hown hfound ho) hcall).2] at hcall
      have hsuffices := Symbols.suffices_of_checkOwnCall hcall
      rwa [length_checkValues] at hsuffices
  | .stmt (.ret none p) =>
    simp only [Unreported, checkStmt, checkReturn] at h
    cases hvoid : s.method.returnTy.isVoid with
    | true => exact hvoid
    | false => simp [hvoid, Checked.report] at h
  | .stmt (.ret (some _) _) | .stmt (.block ..) | .stmt (.cond ..) | .stmt (.loop ..)
  | .stmt (.expr ..) | .stmt (.assign ..) => trivial
  | .expr (.literal ..) | .expr (.name ..) | .expr (.this _) | .expr (.binary ..) | .expr (.unary ..)
  | .expr (.paren _) | .expr (.index ..) | .expr (.length ..) | .expr (.newObject ..)
  | .expr (.newArray ..) | .expr (.arrayInit ..) => trivial
  | .program | .importDecl _ | .classDecl _ | .field _ | .method _ => trivial

theorem regular_of_checkBody (hown : s.symbols.isExternal s.symbols.ownTy = false) {ts : List Stmt}
    (h : (s.checkBody ts).found = []) : ∀ n ∈ Stmt.nodesOf ts, s.Regular n :=
  fun n hn => regular_of_unreported hown (unreported_of_checkBody h n hn)

end Scope

mutual

theorem Expr.Reduces.ofOwnClass {s : Scope} {f : Facts} {e e' : Expr} (h : e.Reduces f e')
    (ho : s.ofOwnClass e' = true) : s.ofOwnClass e = true := by
  match h with
  | .refl => exact ho
  | .literal _ | .binary .. | .unary .. | .length .. => simp [Scope.ofOwnClass] at ho
  | .paren he => exact he.ofOwnClass ho
  | .index ha _ => exact ha.ofOwnClass ho
  | .call _ => exact ho
  | .callOn ht _ =>
    rw [Scope.ofOwnClass, Bool.and_eq_true] at ho ⊢
    exact ⟨ht.ofOwnClass ho.1, ho.2⟩
  | .newArray _ => exact ho
  | .arrayInit hes => exact hes.anyOfOwnClass ho

theorem Expr.ReducesAll.anyOfOwnClass {s : Scope} {f : Facts} {es es' : List Expr}
    (h : Expr.ReducesAll f es es') (ho : s.anyOfOwnClass es' = true) :
    s.anyOfOwnClass es = true := by
  match h with
  | .nil => exact ho
  | .cons he hes =>
    rw [Scope.anyOfOwnClass, Bool.or_eq_true] at ho ⊢
    exact ho.imp he.ofOwnClass hes.anyOfOwnClass

end

theorem Node.Reduces.regular {s : Scope} {n n' : Node} (h : n.Reduces n') (hr : s.Regular n) :
    s.Regular n' := by
  cases h with
  | stmt h => cases h <;> trivial
  | expr h =>
    cases h with
    | refl => exact hr
    | literal | binary | unary | paren | index | length | newArray | arrayInit => trivial
    | call has =>
      rw [Scope.Regular, has.length_eq]
      exact hr
    | callOn ht has =>
      rw [Scope.Regular, has.length_eq]
      exact fun ho => hr (ht.ofOwnClass ho)

theorem Stmt.ReducesAll.regular {s : Scope} {ts ts' : List Stmt} (h : Stmt.ReducesAll ts ts')
    (hr : ∀ n ∈ Stmt.nodesOf ts, s.Regular n) : ∀ n ∈ Stmt.nodesOf ts', s.Regular n :=
  h.nodes (fun _ _ hn => hn.regular) hr

end SingleClass
