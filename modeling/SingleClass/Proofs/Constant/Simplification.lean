import SingleClass.Proofs.Constant.Reduction
import SingleClass.Proofs.Lowering.ConcreteTypes
set_option autoImplicit false

/-!
Constant optimisation in an open world. A read becomes a literal of the type that it had
(`Scope.Simplifies`), and so do the expressions around it: they keep their types, and with them all
that lowering asks about an expression.

Only a local whose type is declared elsewhere can be known to hold a literal of another type, since
such a type takes every value (`Scope.Fits`). So types are kept where the names of such locals are
(`Scope.foreignNames`).
-/

namespace SingleClass

theorem Ty.isInt_or_isBoolean_of_literal {t : Ty} {v : Literal} (h : t.asValue = v.ty) :
    (t.isInt || t.isBoolean) = true := by
  have hkind := congrArg Ty.kind h
  have harray := congrArg Ty.isArray h
  cases v <;> simp_all [Ty.isInt, Ty.isBoolean, Literal.ty, Ty.int, Ty.boolean, Ty.asValue]

namespace Scope

mutual

/-- The second expression is the first with literals of the same types for some locals and for
arithmetic on literals. -/
inductive Simplifies (s : Scope) : Expr → Expr → Prop
  | literal {v : Literal} {p : Span} : Simplifies s (.literal v p) (.literal v p)
  | name {n : String} {p : Span} : Simplifies s (.name n p) (.name n p)
  | read {n : String} {p : Span} {x : Symbol} {v : Literal} (hx : s.method.local? n = some x)
      (hty : x.ty.asValue = v.ty) : Simplifies s (.name n p) (.literal v p)
  | this {p : Span} : Simplifies s (.this p) (.this p)
  | binary {op : BinaryOp} {l l' r r' : Expr} {p : Span} (hl : Simplifies s l l')
      (hr : Simplifies s r r') : Simplifies s (.binary op l r p) (.binary op l' r' p)
  | compute {op : BinaryOp} {l r : Expr} {p q q' : Span} {a b c : Int32}
      (hl : Simplifies s l (.literal (.int a) q)) (hr : Simplifies s r (.literal (.int b) q'))
      (hc : op.compute a b = some c) : Simplifies s (.binary op l r p) (.literal (.int c) p)
  | unary {op : UnaryOp} {e e' : Expr} {p : Span} (he : Simplifies s e e') :
      Simplifies s (.unary op e p) (.unary op e' p)
  | paren {e e' : Expr} (he : Simplifies s e e') : Simplifies s (.paren e) (.paren e')
  | unparen {e : Expr} {v : Literal} {p : Span} (he : Simplifies s e (.literal v p)) :
      Simplifies s (.paren e) (.literal v p)
  | index {a a' i i' : Expr} {p : Span} (ha : Simplifies s a a') (hi : Simplifies s i i') :
      Simplifies s (.index a i p) (.index a' i' p)
  | length {a a' : Expr} {p : Span} (ha : Simplifies s a a') :
      Simplifies s (.length a p) (.length a' p)
  | call {m : String} {as as' : List Expr} {p : Span} (has : SimplifiesAll s as as') :
      Simplifies s (.call none m as p) (.call none m as' p)
  | callOn {t t' : Expr} {m : String} {as as' : List Expr} {p : Span} (ht : Simplifies s t t')
      (has : SimplifiesAll s as as') :
      Simplifies s (.call (some t) m as p) (.call (some t') m as' p)
  | newObject {c : String} {p : Span} : Simplifies s (.newObject c p) (.newObject c p)
  | newArray {t : TypeName} {e e' : Expr} {p : Span} (he : Simplifies s e e') :
      Simplifies s (.newArray t e p) (.newArray t e' p)
  | arrayInit {es es' : List Expr} {p : Span} (hes : SimplifiesAll s es es') :
      Simplifies s (.arrayInit es p) (.arrayInit es' p)

inductive SimplifiesAll (s : Scope) : List Expr → List Expr → Prop
  | nil : SimplifiesAll s [] []
  | cons {e e' : Expr} {es es' : List Expr} (he : Simplifies s e e')
      (hes : SimplifiesAll s es es') : SimplifiesAll s (e :: es) (e' :: es')

end

mutual

inductive SimplifiesStmt (s : Scope) : Stmt → Stmt → Prop
  | block {b b' : List Stmt} {p : Span} (hb : SimplifiesBody s b b') :
      SimplifiesStmt s (.block b p) (.block b' p)
  | condThen {c c' : Expr} {t t' : Stmt} {p : Span} (hc : Simplifies s c c')
      (ht : SimplifiesStmt s t t') : SimplifiesStmt s (.cond c t none p) (.cond c' t' none p)
  | condElse {c c' : Expr} {t t' e e' : Stmt} {p : Span} (hc : Simplifies s c c')
      (ht : SimplifiesStmt s t t') (he : SimplifiesStmt s e e') :
      SimplifiesStmt s (.cond c t (some e) p) (.cond c' t' (some e') p)
  | loop {c c' : Expr} {b b' : Stmt} {p : Span} (hc : Simplifies s c c')
      (hb : SimplifiesStmt s b b') : SimplifiesStmt s (.loop c b p) (.loop c' b' p)
  | expr {e e' : Expr} {p : Span} (he : Simplifies s e e') :
      SimplifiesStmt s (.expr e p) (.expr e' p)
  /-- A name stays where it is assigned. -/
  | assignName {n : String} {q : Span} {v v' : Expr} {p : Span} (hv : Simplifies s v v') :
      SimplifiesStmt s (.assign (.name n q) v p) (.assign (.name n q) v' p)
  | assign {t t' v v' : Expr} {p : Span} (hn : ∀ n q, t ≠ .name n q) (ht : Simplifies s t t')
      (hv : Simplifies s v v') : SimplifiesStmt s (.assign t v p) (.assign t' v' p)
  | retNone {p : Span} : SimplifiesStmt s (.ret none p) (.ret none p)
  | retSome {v v' : Expr} {p : Span} (hv : Simplifies s v v') :
      SimplifiesStmt s (.ret (some v) p) (.ret (some v') p)

inductive SimplifiesBody (s : Scope) : List Stmt → List Stmt → Prop
  | nil : SimplifiesBody s [] []
  | cons {t t' : Stmt} {ts ts' : List Stmt} (ht : SimplifiesStmt s t t')
      (hts : SimplifiesBody s ts ts') : SimplifiesBody s (t :: ts) (t' :: ts')

end

variable {s : Scope}

theorem Simplifies.foldBinary {op : BinaryOp} {l l' r r' : Expr} {p : Span}
    (hl : s.Simplifies l l') (hr : s.Simplifies r r') :
    s.Simplifies (.binary op l r p) (.foldBinary op l' r' p) := by
  unfold Expr.foldBinary
  split
  next v hv =>
    unfold BinaryOp.constant? at hv
    split at hv
    next => exact .compute hl hr hv
    next => cases hv
  next => exact .binary hl hr

theorem Simplifies.foldParen {e e' : Expr} (he : s.Simplifies e e') :
    s.Simplifies (.paren e) e'.foldParen := by
  unfold Expr.foldParen
  split
  · cases e' with
    | literal v p => exact .unparen he
    | _ => simp_all [Expr.isLiteral]
  · exact .paren he

mutual

theorem simplifies_fold (s : Scope) : ∀ e : Expr, s.Simplifies e e.fold
  | .literal .. => .literal
  | .name .. => .name
  | .this _ => .this
  | .newObject .. => .newObject
  | .binary _ l r _ => .foldBinary (simplifies_fold s l) (simplifies_fold s r)
  | .unary _ e _ => .unary (simplifies_fold s e)
  | .paren e => .foldParen (simplifies_fold s e)
  | .index a i _ => .index (simplifies_fold s a) (simplifies_fold s i)
  | .length a _ => .length (simplifies_fold s a)
  | .call none _ as _ => .call (simplifiesAll_foldAll s as)
  | .call (some t) _ as _ => .callOn (simplifies_fold s t) (simplifiesAll_foldAll s as)
  | .newArray _ e _ => .newArray (simplifies_fold s e)
  | .arrayInit es _ => .arrayInit (simplifiesAll_foldAll s es)

theorem simplifiesAll_foldAll (s : Scope) :
    ∀ es : List Expr, s.SimplifiesAll es (Expr.foldAll es)
  | [] => .nil
  | e :: es => .cons (simplifies_fold s e) (simplifiesAll_foldAll s es)

end

theorem simplifiesStmt_fold_assign (s : Scope) (target value : Expr) (p : Span) :
    s.SimplifiesStmt (.assign target value p) (Stmt.assign target value p).fold := by
  have hv := s.simplifies_fold value
  have ht := s.simplifies_fold target
  cases target with
  | name n q => exact .assignName hv
  | _ => exact .assign (by simp) ht hv

mutual

theorem simplifiesStmt_fold (s : Scope) : ∀ t : Stmt, s.SimplifiesStmt t t.fold
  | .block b _ => .block (simplifiesBody_foldAll s b)
  | .cond c t none _ => .condThen (s.simplifies_fold c) (simplifiesStmt_fold s t)
  | .cond c t (some e) _ =>
    .condElse (s.simplifies_fold c) (simplifiesStmt_fold s t) (simplifiesStmt_fold s e)
  | .loop c b _ => .loop (s.simplifies_fold c) (simplifiesStmt_fold s b)
  | .expr e _ => .expr (s.simplifies_fold e)
  | .assign t v p => simplifiesStmt_fold_assign s t v p
  | .ret none _ => .retNone
  | .ret (some v) _ => .retSome (s.simplifies_fold v)

theorem simplifiesBody_foldAll (s : Scope) :
    ∀ ts : List Stmt, s.SimplifiesBody ts (Stmt.foldAll ts)
  | [] => .nil
  | t :: ts => .cons (simplifiesStmt_fold s t) (simplifiesBody_foldAll s ts)

end

mutual

def foreignNames (s : Scope) : Expr → Nat
  | .name n _ => if (s.method.local? n).any fun x => s.symbols.isExternal x.ty then 1 else 0
  | .literal .. | .this _ | .newObject .. => 0
  | .binary _ l r _ => s.foreignNames l + s.foreignNames r
  | .unary _ e _ | .paren e | .length e _ | .newArray _ e _ => s.foreignNames e
  | .index a i _ => s.foreignNames a + s.foreignNames i
  | .call none _ as _ => s.foreignNamesOf as
  | .call (some t) _ as _ => s.foreignNames t + s.foreignNamesOf as
  | .arrayInit es _ => s.foreignNamesOf es

def foreignNamesOf (s : Scope) : List Expr → Nat
  | [] => 0
  | e :: es => s.foreignNames e + s.foreignNamesOf es

end

mutual

def foreignNamesIn (s : Scope) : Stmt → Nat
  | .block b _ => s.foreignNamesInAll b
  | .cond c t none _ => s.foreignNames c + s.foreignNamesIn t
  | .cond c t (some e) _ => s.foreignNames c + s.foreignNamesIn t + s.foreignNamesIn e
  | .loop c b _ => s.foreignNames c + s.foreignNamesIn b
  | .expr e _ => s.foreignNames e
  | .assign t v _ => s.foreignNames t + s.foreignNames v
  | .ret none _ => 0
  | .ret (some v) _ => s.foreignNames v

def foreignNamesInAll (s : Scope) : List Stmt → Nat
  | [] => 0
  | t :: ts => s.foreignNamesIn t + s.foreignNamesInAll ts

end

end Scope

mutual

theorem Expr.Reduces.foreignNames_le {f : Facts} {e e' : Expr} (h : e.Reduces f e') (s : Scope) :
    s.foreignNames e' ≤ s.foreignNames e := by
  match h with
  | .refl => exact Nat.le_refl _
  | .literal _ => exact Nat.zero_le _
  | .binary hl hr =>
    simp only [Scope.foreignNames]
    exact Nat.add_le_add (hl.foreignNames_le s) (hr.foreignNames_le s)
  | .unary he | .paren he | .length he | .newArray he =>
    simp only [Scope.foreignNames]
    exact he.foreignNames_le s
  | .index ha hi =>
    simp only [Scope.foreignNames]
    exact Nat.add_le_add (ha.foreignNames_le s) (hi.foreignNames_le s)
  | .call has =>
    simp only [Scope.foreignNames]
    exact has.foreignNamesOf_le s
  | .callOn ht has =>
    simp only [Scope.foreignNames]
    exact Nat.add_le_add (ht.foreignNames_le s) (has.foreignNamesOf_le s)
  | .arrayInit hes =>
    simp only [Scope.foreignNames]
    exact hes.foreignNamesOf_le s

theorem Expr.ReducesAll.foreignNamesOf_le {f : Facts} {es es' : List Expr}
    (h : Expr.ReducesAll f es es') (s : Scope) : s.foreignNamesOf es' ≤ s.foreignNamesOf es := by
  match h with
  | .nil => exact Nat.le_refl _
  | .cons he hes =>
    simp only [Scope.foreignNamesOf]
    exact Nat.add_le_add (he.foreignNames_le s) (hes.foreignNamesOf_le s)

end

mutual

theorem Stmt.Reduces.foreignNamesIn_le {t t' : Stmt} (h : t.Reduces t') (s : Scope) :
    s.foreignNamesIn t' ≤ s.foreignNamesIn t := by
  match h with
  | .block hb =>
    simp only [Scope.foreignNamesIn]
    exact hb.foreignNamesInAll_le s
  | .condThen hc ht =>
    simp only [Scope.foreignNamesIn]
    exact Nat.add_le_add (hc.foreignNames_le s) (ht.foreignNamesIn_le s)
  | .condElse hc ht he =>
    simp only [Scope.foreignNamesIn]
    exact Nat.add_le_add (Nat.add_le_add (hc.foreignNames_le s) (ht.foreignNamesIn_le s))
      (he.foreignNamesIn_le s)
  | .loop hc hb =>
    simp only [Scope.foreignNamesIn]
    exact Nat.add_le_add (hc.foreignNames_le s) (hb.foreignNamesIn_le s)
  | .expr he => exact he.foreignNames_le s
  | .assign ht hv =>
    simp only [Scope.foreignNamesIn]
    exact Nat.add_le_add (ht.foreignNames_le s) (hv.foreignNames_le s)
  | .retNone => exact Nat.le_refl _
  | .retSome hv => exact hv.foreignNames_le s

theorem Stmt.ReducesAll.foreignNamesInAll_le {ts ts' : List Stmt} (h : Stmt.ReducesAll ts ts')
    (s : Scope) : s.foreignNamesInAll ts' ≤ s.foreignNamesInAll ts := by
  match h with
  | .nil => exact Nat.le_refl _
  | .cons ht hts =>
    simp only [Scope.foreignNamesInAll]
    exact Nat.add_le_add (ht.foreignNamesIn_le s) (hts.foreignNamesInAll_le s)

end

theorem MethodDecl.foreignNames_simplify_le (d : MethodDecl) (s : Scope) :
    s.foreignNamesInAll d.simplify.body ≤ s.foreignNamesInAll d.body :=
  Nat.le_trans ((Stmt.reducesAll_foldAll _).foreignNamesInAll_le s)
    ((Stmt.reducesAll_propagateAll _ _ _).foreignNamesInAll_le s)

theorem MethodDecl.foreignNames_optimize_le (d : MethodDecl) (s : Scope) :
    s.foreignNamesInAll d.optimize.1.body ≤ s.foreignNamesInAll d.body :=
  d.optimize_induction (P := fun b => s.foreignNamesInAll b ≤ s.foreignNamesInAll d.body)
    (fun _ _ hb h => Nat.le_trans (hb.foreignNamesInAll_le s) h) (Nat.le_refl _)

namespace Facts

/-- Every fact gives a local a literal, of the local's own type unless that is declared elsewhere. -/
def OfLocals (f : Facts) (s : Scope) : Prop :=
  ∀ n v, f.get? n = some v → ∃ x, s.method.local? n = some x ∧
    (x.ty.asValue = v.ty ∨ s.symbols.isExternal x.ty = true)

variable {s : Scope} {f g : Facts}

theorem ofLocals_empty : ({} : Facts).OfLocals s := by
  intro n v hv
  simp at hv

theorem OfLocals.meet (h : f.OfLocals s) (g : Facts) : (f.meet g).OfLocals s :=
  fun n v hv => h n v (get?_of_meet hv)

theorem OfLocals.forget (h : f.OfLocals s) (names : List String) : (f.forget names).OfLocals s :=
  fun n v hv => h n v (get?_of_forget hv)

end Facts

namespace Scope

variable {s : Scope}

mutual

theorem simplifies_substitute {f : Facts} (hf : f.OfLocals s) :
    ∀ e : Expr, s.foreignNames e ≤ s.foreignNames (e.substitute f) → s.Simplifies e (e.substitute f)
  | .literal .., _ => .literal
  | .name n p, h => by
    rw [Expr.substitute] at h ⊢
    split
    next v hv =>
      obtain ⟨x, hx, hty | hexternal⟩ := hf n v hv
      · exact .read hx hty
      · simp [hv, foreignNames, hx, hexternal] at h
    next => exact .name
  | .this _, _ => .this
  | .newObject .., _ => .newObject
  | .binary _ l r _, h => by
    have hl := (l.reduces_substitute f).foreignNames_le s
    have hr := (r.reduces_substitute f).foreignNames_le s
    simp only [Expr.substitute, foreignNames] at h
    exact .binary (simplifies_substitute hf l (by omega)) (simplifies_substitute hf r (by omega))
  | .unary _ e _, h => .unary (simplifies_substitute hf e h)
  | .paren e, h => .paren (simplifies_substitute hf e h)
  | .index a i _, h => by
    have ha := (a.reduces_substitute f).foreignNames_le s
    have hi := (i.reduces_substitute f).foreignNames_le s
    simp only [Expr.substitute, foreignNames] at h
    exact .index (simplifies_substitute hf a (by omega)) (simplifies_substitute hf i (by omega))
  | .length a _, h => .length (simplifies_substitute hf a h)
  | .call none _ as _, h => .call (simplifiesAll_substituteAll hf as h)
  | .call (some t) _ as _, h => by
    have ht := (t.reduces_substitute f).foreignNames_le s
    have has := (Expr.reducesAll_substituteAll f as).foreignNamesOf_le s
    simp only [Expr.substitute, foreignNames] at h
    exact .callOn (simplifies_substitute hf t (by omega))
      (simplifiesAll_substituteAll hf as (by omega))
  | .newArray _ e _, h => .newArray (simplifies_substitute hf e h)
  | .arrayInit es _, h => .arrayInit (simplifiesAll_substituteAll hf es h)

theorem simplifiesAll_substituteAll {f : Facts} (hf : f.OfLocals s) :
    ∀ es : List Expr, s.foreignNamesOf es ≤ s.foreignNamesOf (Expr.substituteAll f es) →
      s.SimplifiesAll es (Expr.substituteAll f es)
  | [], _ => .nil
  | e :: es, h => by
    have he := (e.reduces_substitute f).foreignNames_le s
    have hes := (Expr.reducesAll_substituteAll f es).foreignNamesOf_le s
    simp only [Expr.substituteAll, foreignNamesOf] at h
    exact .cons (simplifies_substitute hf e (by omega)) (simplifiesAll_substituteAll hf es (by omega))

end

theorem valuesOf_bind_eq_ok {A : Type} {es : List Expr} {g : List Ty → Except TypeError A} {a : A} :
    (s.valuesOf es >>= g) = .ok a ↔ ∃ ts, s.valuesOf es = .ok ts ∧ g ts = .ok a := by
  cases s.valuesOf es with
  | error err => simp [bind, Except.bind]
  | ok ts => simp [bind, Except.bind]

theorem typeOf_compute {op : BinaryOp} {l r : Expr} {p : Span} {a b c : Int32}
    (hl : s.typeOf l = .ok .int) (hr : s.typeOf r = .ok .int) (hc : op.compute a b = some c) :
    s.typeOf (.binary op l r p) = .ok .int := by
  have harith := BinaryOp.arithmetic_of_compute hc
  refine typeOf_bind_eq_ok.2 ⟨.int, hl, rfl, typeOf_bind_eq_ok.2 ⟨.int, hr, rfl, ?_⟩⟩
  simp [Typing.binary, BinaryOp.accepts, BinaryOp.resultTy, harith, Ty.isEscape, Ty.isInt, Ty.int]

mutual

theorem Simplifies.typeOf_eq_ok {e e' : Expr} (h : s.Simplifies e e') :
    ∀ t, s.typeOf e' = .ok t ↔ s.typeOf e = .ok t := by
  match h with
  | .literal | .name | .this | .newObject => exact fun t => Iff.rfl
  | .read hx hty =>
    intro t
    simp only [typeOf, nameTy, lookup_of_local? hx, Binding.symbol, hty]
  | .binary hl hr =>
    intro t
    have ihl := hl.typeOf_eq_ok
    have ihr := hr.typeOf_eq_ok
    simp only [typeOf, typeOf_bind_eq_ok, ihl, ihr]
  | .compute hl hr hc =>
    intro t
    rw [typeOf_compute ((hl.typeOf_eq_ok .int).1 rfl) ((hr.typeOf_eq_ok .int).1 rfl) hc]
    rfl
  | .unary he =>
    intro t
    have ih := he.typeOf_eq_ok
    simp only [typeOf, typeOf_bind_eq_ok, ih]
  | .paren he => exact he.typeOf_eq_ok
  | .unparen he => exact he.typeOf_eq_ok
  | .index ha _ =>
    intro t
    have ih := ha.typeOf_eq_ok
    simp only [typeOf, typeOf_bind_eq_ok, ih]
  | .length ha =>
    intro t
    have ih := ha.typeOf_eq_ok
    simp only [typeOf, typeOf_bind_eq_ok, ih]
  | .call _ => exact fun t => Iff.rfl
  | .callOn ht _ =>
    intro t
    have ih := ht.typeOf_eq_ok
    simp only [typeOf, typeOf_bind_eq_ok, ih]
  | .newArray _ => exact fun t => Iff.rfl
  | .arrayInit hes =>
    intro t
    have ih := hes.valuesOf_eq_ok
    simp only [typeOf, valuesOf_bind_eq_ok, ih]

theorem SimplifiesAll.valuesOf_eq_ok {es es' : List Expr} (h : s.SimplifiesAll es es') :
    ∀ ts, s.valuesOf es' = .ok ts ↔ s.valuesOf es = .ok ts := by
  match h with
  | .nil => exact fun ts => Iff.rfl
  | .cons he hes =>
    intro ts
    have ih := he.typeOf_eq_ok
    have ihs := hes.valuesOf_eq_ok
    simp only [valuesOf, typeOf_bind_eq_ok, valuesOf_bind_eq_ok, ih, ihs]

end

theorem Simplifies.typeHint_eq {e e' : Expr} (h : s.Simplifies e e') :
    s.typeHint e' = s.typeHint e := by
  have hty := h.typeOf_eq_ok
  unfold typeHint
  cases he : s.typeOf e with
  | ok t => rw [(hty t).2 he]
  | error err =>
    cases he' : s.typeOf e' with
    | ok t => simp [(hty t).1 he'] at he
    | error err' => rfl

theorem SimplifiesAll.typeHints_eq {es es' : List Expr} (h : s.SimplifiesAll es es') :
    es'.map s.typeHint = es.map s.typeHint := by
  match h with
  | .nil => rfl
  | .cons he hes => rw [List.map_cons, List.map_cons, he.typeHint_eq, hes.typeHints_eq]

theorem Simplifies.staticReceiver?_eq {e e' : Expr} (h : s.Simplifies e e') :
    s.staticReceiver? e' = s.staticReceiver? e := by
  match h with
  | .read hx _ => simp [staticReceiver?, lookup_of_local? hx]
  | .paren he => exact he.staticReceiver?_eq
  | .unparen he => exact he.staticReceiver?_eq
  | .literal | .name | .this | .binary .. | .compute .. | .unary _ | .index .. | .length _ | .call _
  | .callOn .. | .newObject | .newArray _ | .arrayInit _ => rfl

theorem Simplifies.stripParens {e e' : Expr} (h : s.Simplifies e e') :
    s.Simplifies e.stripParens e'.stripParens := by
  match h with
  | .paren he => exact he.stripParens
  | .unparen he => exact he.stripParens
  | .literal => exact .literal
  | .name => exact .name
  | .read hx hty => exact .read hx hty
  | .this => exact .this
  | .binary hl hr => exact .binary hl hr
  | .compute hl hr hc => exact .compute hl hr hc
  | .unary he => exact .unary he
  | .index ha hi => exact .index ha hi
  | .length ha => exact .length ha
  | .call has => exact .call has
  | .callOn ht has => exact .callOn ht has
  | .newObject => exact .newObject
  | .newArray he => exact .newArray he
  | .arrayInit hes => exact .arrayInit hes

/-- The expression is made of literals and of locals that can hold them, by arithmetic alone, so
optimisation can make it a literal. -/
def mayBeLiteral (s : Scope) : Expr → Bool
  | .literal .. => true
  | .name n _ => (s.method.local? n).any fun x => x.ty.isInt || x.ty.isBoolean
  | .paren e => s.mayBeLiteral e
  | .binary op l r _ => op.family = .arithmetic && s.mayBeLiteral l && s.mayBeLiteral r
  | _ => false

theorem Simplifies.mayBeLiteral {e e' : Expr} (h : s.Simplifies e e')
    (hl : s.mayBeLiteral e' = true) : s.mayBeLiteral e = true := by
  match h with
  | .literal | .name | .this | .unary _ | .index .. | .length _ | .call _ | .callOn .. | .newObject
  | .newArray _ | .arrayInit _ => exact hl
  | .read hx hty =>
    simp only [Scope.mayBeLiteral, hx, Option.any_some]
    exact Ty.isInt_or_isBoolean_of_literal hty
  | .binary hll hrr =>
    simp only [Scope.mayBeLiteral, Bool.and_eq_true] at hl ⊢
    exact ⟨⟨hl.1.1, hll.mayBeLiteral hl.1.2⟩, hrr.mayBeLiteral hl.2⟩
  | .compute hll hrr hc =>
    simp only [Scope.mayBeLiteral, Bool.and_eq_true, decide_eq_true_eq]
    exact ⟨⟨BinaryOp.arithmetic_of_compute hc, hll.mayBeLiteral rfl⟩, hrr.mayBeLiteral rfl⟩
  | .paren he => exact he.mayBeLiteral hl
  | .unparen he => exact he.mayBeLiteral hl

mutual

/-- A local is given what may become a literal only if that is of its type, or its type is declared
elsewhere. -/
def Fits (s : Scope) : Stmt → Prop
  | .block b _ => s.FitsAll b
  | .cond _ t none _ => s.Fits t
  | .cond _ t (some e) _ => s.Fits t ∧ s.Fits e
  | .loop _ b _ => s.Fits b
  | .assign (.name n _) v _ =>
    ∀ x, s.method.local? n = some x → s.mayBeLiteral v = true →
      s.typeOf v = .ok x.ty.asValue ∨ s.symbols.isExternal x.ty = true
  | .assign .. | .expr .. | .ret .. => True

def FitsAll (s : Scope) : List Stmt → Prop
  | [] => True
  | t :: ts => s.Fits t ∧ s.FitsAll ts

end

mutual

theorem SimplifiesStmt.fits {t t' : Stmt} (h : s.SimplifiesStmt t t') (hf : s.Fits t) :
    s.Fits t' := by
  match h with
  | .block hb => exact hb.fitsAll hf
  | .condThen _ ht => exact ht.fits hf
  | .condElse _ ht he =>
    simp only [Fits] at hf ⊢
    exact ⟨ht.fits hf.1, he.fits hf.2⟩
  | .loop _ hb => exact hb.fits hf
  | .expr _ | .retNone | .retSome _ => trivial
  | .assignName hv =>
    intro x hx hl
    exact (hf x hx (hv.mayBeLiteral hl)).imp_left (hv.typeOf_eq_ok _).2
  | .assign hn ht hv =>
    cases ht with
    | name => exact absurd rfl (hn _ _)
    | _ => trivial

theorem SimplifiesBody.fitsAll {ts ts' : List Stmt} (h : s.SimplifiesBody ts ts')
    (hf : s.FitsAll ts) : s.FitsAll ts' := by
  match h with
  | .nil => trivial
  | .cons ht hts =>
    simp only [FitsAll] at hf ⊢
    exact ⟨ht.fits hf.1, hts.fitsAll hf.2⟩

end

theorem ofLocals_store {f : Facts} (hf : f.OfLocals s) {n : String} {e : Expr}
    (he : ∀ v p, e = .literal v p → ∃ x, s.method.local? n = some x ∧
      (x.ty.asValue = v.ty ∨ s.symbols.isExternal x.ty = true)) : (f.store n e).OfLocals s := by
  unfold Facts.store
  split
  next v p =>
    intro k w hk
    rw [Facts.get?_insert] at hk
    split at hk
    next hkn =>
      cases hk
      rw [hkn]
      exact he v p rfl
    next => exact hf k w hk
  next => exact fun k w hk => hf k w (Facts.get?_of_erase hk)

theorem propagate_assign_spec {names : List String}
    (hnames : ∀ n ∈ names, ∃ x, s.method.local? n = some x) {f : Facts} (hf : f.OfLocals s)
    {target value : Expr} {p : Span}
    (h : s.Fits (.assign target value p))
    (hforeign : s.foreignNamesIn (.assign target value p) ≤
      s.foreignNamesIn ((Stmt.assign target value p).propagate names f)) :
    s.SimplifiesStmt (.assign target value p) ((Stmt.assign target value p).propagate names f) ∧
      ((Stmt.assign target value p).after names f).OfLocals s := by
  have hv := (value.reduces_substitute f).foreignNames_le s
  have ht := (target.reduces_substitute f).foreignNames_le s
  cases target with
  | name n q =>
    simp only [Stmt.propagate, foreignNamesIn] at hforeign
    have hsimp := simplifies_substitute hf value (by omega)
    refine ⟨.assignName hsimp, ?_⟩
    simp only [Stmt.after]
    split
    next hn =>
      refine ofLocals_store hf fun v q hlit => ?_
      obtain ⟨x, hx⟩ := hnames n hn
      rw [hlit] at hsimp
      refine ⟨x, hx, (h x hx (hsimp.mayBeLiteral rfl)).imp_left fun hty => ?_⟩
      exact Except.ok.inj (hty.symm.trans ((hsimp.typeOf_eq_ok _).1 rfl))
    next => exact hf
  | _ =>
    simp only [Stmt.propagate, foreignNamesIn] at hforeign
    exact ⟨.assign (by simp) (simplifies_substitute hf _ (by omega))
      (simplifies_substitute hf value (by omega)), hf⟩

mutual

/-- Where no name of another type is lost, propagation keeps the types of a fitting statement, and the
facts behind it are of the locals' types again. -/
theorem propagate_spec {names : List String}
    (hnames : ∀ n ∈ names, ∃ x, s.method.local? n = some x) {f : Facts} (hf : f.OfLocals s)
    (t : Stmt) (h : s.Fits t)
    (hforeign : s.foreignNamesIn t ≤ s.foreignNamesIn (t.propagate names f)) :
    s.SimplifiesStmt t (t.propagate names f) ∧ (t.after names f).OfLocals s := by
  cases t with
  | block b p =>
    obtain ⟨hb, hf'⟩ := propagateAll_spec hnames hf b h hforeign
    exact ⟨.block hb, hf'⟩
  | cond c t e p =>
    have hc := (c.reduces_substitute f).foreignNames_le s
    have ht := (t.reduces_propagate names f).foreignNamesIn_le s
    cases e with
    | none =>
      simp only [Stmt.propagate, foreignNamesIn] at hforeign
      have hthen := (propagate_spec hnames hf t h (by omega)).1
      exact ⟨.condThen (simplifies_substitute hf c (by omega)) hthen, hf.meet _⟩
    | some e =>
      have he := (e.reduces_propagate names f).foreignNamesIn_le s
      simp only [Stmt.propagate, foreignNamesIn] at hforeign
      simp only [Fits] at h
      have hthen := (propagate_spec hnames hf t h.1 (by omega)).1
      obtain ⟨helse, hf'⟩ := propagate_spec hnames hf e h.2 (by omega)
      exact ⟨.condElse (simplifies_substitute hf c (by omega)) hthen helse, hf'.meet _⟩
  | loop c b p =>
    have hf := hf.forget b.assigned
    have hc := (c.reduces_substitute (f.forget b.assigned)).foreignNames_le s
    have hb := (b.reduces_propagate names (f.forget b.assigned)).foreignNamesIn_le s
    simp only [Stmt.propagate, foreignNamesIn] at hforeign
    have hbody := (propagate_spec hnames hf b h (by omega)).1
    exact ⟨.loop (simplifies_substitute hf c (by omega)) hbody, hf⟩
  | expr e p => exact ⟨.expr (simplifies_substitute hf e hforeign), hf⟩
  | assign target value p => exact propagate_assign_spec hnames hf h hforeign
  | ret v p =>
    cases v with
    | none => exact ⟨.retNone, hf⟩
    | some v => exact ⟨.retSome (simplifies_substitute hf v hforeign), hf⟩

theorem propagateAll_spec {names : List String}
    (hnames : ∀ n ∈ names, ∃ x, s.method.local? n = some x) {f : Facts} (hf : f.OfLocals s)
    (ts : List Stmt) (h : s.FitsAll ts)
    (hforeign : s.foreignNamesInAll ts ≤ s.foreignNamesInAll (Stmt.propagateAll names f ts)) :
    s.SimplifiesBody ts (Stmt.propagateAll names f ts) ∧ (Stmt.afterAll names f ts).OfLocals s := by
  cases ts with
  | nil => exact ⟨.nil, hf⟩
  | cons t ts =>
    have ht := (t.reduces_propagate names f).foreignNamesIn_le s
    have hts := (Stmt.reducesAll_propagateAll names (t.after names f) ts).foreignNamesInAll_le s
    simp only [Stmt.propagateAll, foreignNamesInAll] at hforeign
    simp only [FitsAll] at h
    obtain ⟨hstmt, hf'⟩ := propagate_spec hnames hf t h.1 (by omega)
    obtain ⟨hrest, hf''⟩ := propagateAll_spec hnames hf' ts h.2 (by omega)
    exact ⟨.cons hstmt hrest, hf''⟩

end

/-- Simplification of a fitting body leads from `P` to `Q`, for there is a round always. No round adds a
name, so if as many stand at the end, no round has lost one. -/
theorem FitsAll.optimize_induction {P Q : List Stmt → Prop} {d : MethodDecl} (hd : s.FitsAll d.body)
    (hnames : ∀ n ∈ d.localNames, ∃ x, s.method.local? n = some x)
    (hforeign : s.foreignNamesInAll d.body ≤ s.foreignNamesInAll d.optimize.1.body)
    (hstep : ∀ b b' : List Stmt, s.SimplifiesBody b b' → P b → Q b') (hweak : ∀ b, Q b → P b)
    (h : P d.body) : Q d.optimize.1.body := by
  have hround : ∀ d : MethodDecl, s.FitsAll d.body →
      (∀ n ∈ d.localNames, ∃ x, s.method.local? n = some x) →
      s.foreignNamesInAll d.body ≤ s.foreignNamesInAll d.simplify.body → P d.body →
      s.FitsAll d.simplify.body ∧ Q d.simplify.body := by
    intro d hd hnames hforeign h
    have hfolded :=
      (Stmt.reducesAll_foldAll (Stmt.propagateAll d.localNames {} d.body)).foreignNamesInAll_le s
    have hpropagate := (propagateAll_spec hnames Facts.ofLocals_empty d.body hd
      (Nat.le_trans hforeign hfolded)).1
    have hfold := s.simplifiesBody_foldAll (Stmt.propagateAll d.localNames {} d.body)
    exact ⟨hfold.fitsAll (hpropagate.fitsAll hd),
      hstep _ _ hfold (hweak _ (hstep _ _ hpropagate h))⟩
  fun_induction MethodDecl.optimize d with
  | case1 d _ => exact (hround d hd hnames hforeign h).2
  | case2 d _ done rounds heq ih =>
    have hrest := d.simplify.foreignNames_optimize_le s
    rw [heq] at hrest ih
    obtain ⟨hd', h'⟩ := hround d hd hnames (Nat.le_trans hforeign hrest) h
    exact ih hd' hnames (Nat.le_trans (d.foreignNames_simplify_le s) hforeign) (hweak _ h')

end Scope

end SingleClass
