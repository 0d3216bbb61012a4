import SingleClass.Analysis.Program
import SingleClass.Constant.Fixpoint
set_option autoImplicit false

/-!
What constant optimisation can do to a tree, in an open world too: expressions that come to literals
by what is known of names become those literals, and everything else stays in its place. A property that
passes from a tree to one with such literals in it holds at the fixpoint (`MethodDecl.optimize_induction`).
-/

namespace SingleClass

/-- Facts and arithmetic make an expression a literal. -/
inductive Expr.ComesTo (f : Facts) : Expr → Literal → Prop
  | literal {v : Literal} {p : Span} : ComesTo f (.literal v p) v
  | name {n : String} {p : Span} {v : Literal} (h : f.get? n = some v) : ComesTo f (.name n p) v
  | paren {e : Expr} {v : Literal} (he : ComesTo f e v) : ComesTo f (.paren e) v
  | binary {op : BinaryOp} {l r : Expr} {p : Span} {a b c : Int32} (hl : ComesTo f l (.int a))
      (hr : ComesTo f r (.int b)) (hc : op.compute a b = some c) :
      ComesTo f (.binary op l r p) (.int c)

mutual

/-- The second expression is the first with literals in the place of parts that come to them. -/
inductive Expr.Reduces (f : Facts) : Expr → Expr → Prop
  | refl {e : Expr} : Reduces f e e
  | literal {e : Expr} {v : Literal} {p : Span} (h : e.ComesTo f v) : Reduces f e (.literal v p)
  | binary {op : BinaryOp} {l l' r r' : Expr} {p : Span} (hl : Reduces f l l') (hr : Reduces f r r') :
      Reduces f (.binary op l r p) (.binary op l' r' p)
  | unary {op : UnaryOp} {e e' : Expr} {p : Span} (he : Reduces f e e') :
      Reduces f (.unary op e p) (.unary op e' p)
  | paren {e e' : Expr} (he : Reduces f e e') : Reduces f (.paren e) (.paren e')
  | index {a a' i i' : Expr} {p : Span} (ha : Reduces f a a') (hi : Reduces f i i') :
      Reduces f (.index a i p) (.index a' i' p)
  | length {a a' : Expr} {p : Span} (ha : Reduces f a a') : Reduces f (.length a p) (.length a' p)
  | call {m : String} {as as' : List Expr} {p : Span} (has : ReducesAll f as as') :
      Reduces f (.call none m as p) (.call none m as' p)
  | callOn {t t' : Expr} {m : String} {as as' : List Expr} {p : Span} (ht : Reduces f t t')
      (has : ReducesAll f as as') : Reduces f (.call (some t) m as p) (.call (some t') m as' p)
  | newArray {t : TypeName} {e e' : Expr} {p : Span} (he : Reduces f e e') :
      Reduces f (.newArray t e p) (.newArray t e' p)
  | arrayInit {es es' : List Expr} {p : Span} (hes : ReducesAll f es es') :
      Reduces f (.arrayInit es p) (.arrayInit es' p)

inductive Expr.ReducesAll (f : Facts) : List Expr → List Expr → Prop
  | nil : ReducesAll f [] []
  | cons {e e' : Expr} {es es' : List Expr} (he : Reduces f e e') (hes : ReducesAll f es es') :
      ReducesAll f (e :: es) (e' :: es')

end

mutual

inductive Stmt.Reduces : Stmt → Stmt → Prop
  | block {b b' : List Stmt} {p : Span} (hb : ReducesAll b b') : Reduces (.block b p) (.block b' p)
  | condThen {f : Facts} {c c' : Expr} {t t' : Stmt} {p : Span} (hc : c.Reduces f c')
      (ht : Reduces t t') : Reduces (.cond c t none p) (.cond c' t' none p)
  | condElse {f : Facts} {c c' : Expr} {t t' e e' : Stmt} {p : Span} (hc : c.Reduces f c')
      (ht : Reduces t t') (he : Reduces e e') :
      Reduces (.cond c t (some e) p) (.cond c' t' (some e') p)
  | loop {f : Facts} {c c' : Expr} {b b' : Stmt} {p : Span} (hc : c.Reduces f c')
      (hb : Reduces b b') : Reduces (.loop c b p) (.loop c' b' p)
  | expr {f : Facts} {e e' : Expr} {p : Span} (he : e.Reduces f e') :
      Reduces (.expr e p) (.expr e' p)
  | assign {f : Facts} {t t' v v' : Expr} {p : Span} (ht : t.Reduces f t') (hv : v.Reduces f v') :
      Reduces (.assign t v p) (.assign t' v' p)
  | retNone {p : Span} : Reduces (.ret none p) (.ret none p)
  | retSome {f : Facts} {v v' : Expr} {p : Span} (hv : v.Reduces f v') :
      Reduces (.ret (some v) p) (.ret (some v') p)

inductive Stmt.ReducesAll : List Stmt → List Stmt → Prop
  | nil : ReducesAll [] []
  | cons {t t' : Stmt} {ts ts' : List Stmt} (ht : Reduces t t') (hts : ReducesAll ts ts') :
      ReducesAll (t :: ts) (t' :: ts')

end

theorem Expr.ReducesAll.length_eq {f : Facts} {es es' : List Expr} (h : Expr.ReducesAll f es es') :
    es'.length = es.length := by
  match h with
  | .nil => rfl
  | .cons _ hes => simp [hes.length_eq]

theorem Expr.Reduces.comesTo {f : Facts} {e : Expr} {v : Literal} {p : Span}
    (h : e.Reduces f (.literal v p)) : e.ComesTo f v := by
  cases h with
  | refl => exact .literal
  | literal h => exact h

theorem Expr.ComesTo.eq_of_literal? {f : Facts} {e : Expr} {u v : Literal} (h : e.ComesTo f v)
    (hu : e.literal? = some u) : u = v := by
  induction h with
  | literal => exact (Option.some.inj hu).symm
  | paren _ ih => exact ih hu
  | name | binary => cases hu

theorem Expr.ComesTo.stripParens {f : Facts} {e : Expr} {v : Literal} (h : e.ComesTo f v) :
    e.stripParens.ComesTo f v := by
  induction h with
  | paren _ ih => exact ih
  | literal => exact .literal
  | name h => exact .name h
  | binary hl hr hc => exact .binary hl hr hc

theorem Expr.Reduces.foldBinary {f : Facts} {op : BinaryOp} {l l' r r' : Expr} {p : Span}
    (hl : l.Reduces f l') (hr : r.Reduces f r') :
    (Expr.binary op l r p).Reduces f (.foldBinary op l' r' p) := by
  unfold Expr.foldBinary
  split
  next v hv =>
    unfold BinaryOp.constant? at hv
    split at hv
    next => exact .literal (.binary hl.comesTo hr.comesTo hv)
    next => cases hv
  next => exact .binary hl hr

theorem Expr.Reduces.foldParen {f : Facts} {e e' : Expr} (he : e.Reduces f e') :
    (Expr.paren e).Reduces f e'.foldParen := by
  unfold Expr.foldParen
  split
  · cases e' with
    | literal v p => exact .literal (.paren he.comesTo)
    | _ => simp_all [Expr.isLiteral]
  · exact .paren he

mutual

theorem Expr.reduces_fold : ∀ e : Expr, e.Reduces {} e.fold
  | .literal .. | .name .. | .this _ | .newObject .. => .refl
  | .binary _ l r _ => .foldBinary (Expr.reduces_fold l) (Expr.reduces_fold r)
  | .unary _ e _ => .unary (Expr.reduces_fold e)
  | .paren e => .foldParen (Expr.reduces_fold e)
  | .index a i _ => .index (Expr.reduces_fold a) (Expr.reduces_fold i)
  | .length a _ => .length (Expr.reduces_fold a)
  | .call none _ as _ => .call (Expr.reducesAll_foldAll as)
  | .call (some t) _ as _ => .callOn (Expr.reduces_fold t) (Expr.reducesAll_foldAll as)
  | .newArray _ e _ => .newArray (Expr.reduces_fold e)
  | .arrayInit es _ => .arrayInit (Expr.reducesAll_foldAll es)

theorem Expr.reducesAll_foldAll : ∀ es : List Expr, Expr.ReducesAll {} es (Expr.foldAll es)
  | [] => .nil
  | e :: es => .cons (Expr.reduces_fold e) (Expr.reducesAll_foldAll es)

end

mutual

theorem Stmt.reduces_fold : ∀ t : Stmt, t.Reduces t.fold
  | .block b _ => .block (Stmt.reducesAll_foldAll b)
  | .cond c t none _ => .condThen c.reduces_fold (Stmt.reduces_fold t)
  | .cond c t (some e) _ => .condElse c.reduces_fold (Stmt.reduces_fold t) (Stmt.reduces_fold e)
  | .loop c b _ => .loop c.reduces_fold (Stmt.reduces_fold b)
  | .expr e _ => .expr e.reduces_fold
  | .assign t v _ => .assign t.reduces_fold v.reduces_fold
  | .ret none _ => .retNone
  | .ret (some v) _ => .retSome v.reduces_fold

theorem Stmt.reducesAll_foldAll : ∀ ts : List Stmt, Stmt.ReducesAll ts (Stmt.foldAll ts)
  | [] => .nil
  | t :: ts => .cons (Stmt.reduces_fold t) (Stmt.reducesAll_foldAll ts)

end

mutual

theorem Expr.reduces_substitute (f : Facts) : ∀ e : Expr, e.Reduces f (e.substitute f)
  | .literal .. | .this _ | .newObject .. => .refl
  | .name n p => by
    rw [Expr.substitute]
    split
    next v hv => exact .literal (.name hv)
    next => exact .refl
  | .binary _ l r _ => .binary (Expr.reduces_substitute f l) (Expr.reduces_substitute f r)
  | .unary _ e _ => .unary (Expr.reduces_substitute f e)
  | .paren e => .paren (Expr.reduces_substitute f e)
  | .index a i _ => .index (Expr.reduces_substitute f a) (Expr.reduces_substitute f i)
  | .length a _ => .length (Expr.reduces_substitute f a)
  | .call none _ as _ => .call (Expr.reducesAll_substituteAll f as)
  | .call (some t) _ as _ =>
    .callOn (Expr.reduces_substitute f t) (Expr.reducesAll_substituteAll f as)
  | .newArray _ e _ => .newArray (Expr.reduces_substitute f e)
  | .arrayInit es _ => .arrayInit (Expr.reducesAll_substituteAll f es)

theorem Expr.reducesAll_substituteAll (f : Facts) :
    ∀ es : List Expr, Expr.ReducesAll f es (Expr.substituteAll f es)
  | [] => .nil
  | e :: es => .cons (Expr.reduces_substitute f e) (Expr.reducesAll_substituteAll f es)

end

theorem Stmt.reduces_propagate_assign (names : List String) (f : Facts) (target value : Expr)
    (p : Span) :
    (Stmt.assign target value p).Reduces ((Stmt.assign target value p).propagate names f) := by
  have hv := value.reduces_substitute f
  have ht := target.reduces_substitute f
  cases target with
  | name n q => exact .assign .refl hv
  | _ => exact .assign ht hv

mutual

theorem Stmt.reduces_propagate (names : List String) (f : Facts) :
    ∀ t : Stmt, t.Reduces (t.propagate names f)
  | .block b _ => .block (Stmt.reducesAll_propagateAll names f b)
  | .cond c t none _ => .condThen (c.reduces_substitute f) (Stmt.reduces_propagate names f t)
  | .cond c t (some e) _ =>
    .condElse (c.reduces_substitute f) (Stmt.reduces_propagate names f t)
      (Stmt.reduces_propagate names f e)
  | .loop c b _ => .loop (c.reduces_substitute _) (Stmt.reduces_propagate names _ b)
  | .expr e _ => .expr (e.reduces_substitute f)
  | .assign target value p => Stmt.reduces_propagate_assign names f target value p
  | .ret none _ => .retNone
  | .ret (some v) _ => .retSome (v.reduces_substitute f)

theorem Stmt.reducesAll_propagateAll (names : List String) (f : Facts) :
    ∀ ts : List Stmt, Stmt.ReducesAll ts (Stmt.propagateAll names f ts)
  | [] => .nil
  | t :: ts => .cons (Stmt.reduces_propagate names f t)
      (Stmt.reducesAll_propagateAll names (t.after names f) ts)

end

theorem Expr.Reduces.stripParens {f : Facts} {e e' : Expr} (h : e.Reduces f e') :
    e.stripParens.Reduces f e'.stripParens := by
  match h with
  | .refl => exact .refl
  | .literal hv => exact .literal hv.stripParens
  | .paren he => exact he.stripParens
  | .binary hl hr => exact .binary hl hr
  | .unary he => exact .unary he
  | .index ha hi => exact .index ha hi
  | .length ha => exact .length ha
  | .call has => exact .call has
  | .callOn ht has => exact .callOn ht has
  | .newArray he => exact .newArray he
  | .arrayInit hes => exact .arrayInit hes

theorem Expr.Reduces.literal?_eq {f : Facts} {e e' : Expr} {v : Literal} (h : e.Reduces f e')
    (hv : e.literal? = some v) : e'.literal? = some v := by
  match h with
  | .refl => exact hv
  | .literal hc => exact congrArg some (hc.eq_of_literal? hv).symm
  | .paren he => exact he.literal?_eq hv
  | .binary .. | .unary _ | .index .. | .length _ | .call _ | .callOn .. | .newArray _
  | .arrayInit _ => cases hv

mutual

theorem Stmt.Reduces.returns {t t' : Stmt} (h : t.Reduces t') (hr : t.returns = true) :
    t'.returns = true := by
  match h with
  | .block hb => exact hb.anyReturns hr
  | .condThen _ _ | .expr _ | .assign .. => cases hr
  | .condElse _ ht he =>
    simp only [Stmt.returns, Bool.and_eq_true] at hr ⊢
    exact ⟨ht.returns hr.1, he.returns hr.2⟩
  | .loop hc _ =>
    simp only [Stmt.returns, decide_eq_true_eq] at hr ⊢
    exact hc.literal?_eq hr
  | .retNone | .retSome _ => rfl

theorem Stmt.ReducesAll.anyReturns {ts ts' : List Stmt} (h : Stmt.ReducesAll ts ts')
    (hr : Stmt.anyReturns ts = true) : Stmt.anyReturns ts' = true := by
  match h with
  | .nil => exact hr
  | .cons ht hts =>
    simp only [Stmt.anyReturns, Bool.or_eq_true] at hr ⊢
    exact hr.imp ht.returns hts.anyReturns

end

inductive Node.Reduces : Node → Node → Prop
  | expr {f : Facts} {e e' : Expr} (h : e.Reduces f e') : Reduces (.expr e) (.expr e')
  | stmt {t t' : Stmt} (h : t.Reduces t') : Reduces (.stmt t) (.stmt t')

mutual

theorem Expr.Reduces.nodes {N : Node → Prop} (hN : ∀ n n', n.Reduces n' → N n → N n') {f : Facts}
    {e e' : Expr} (h : e.Reduces f e') (hn : ∀ n ∈ e.nodes, N n) : ∀ n ∈ e'.nodes, N n := by
  have hself := hN _ _ (.expr h) (hn _ e.mem_nodes_self)
  match h with
  | .refl => exact hn
  | .literal _ => exact List.forall_mem_singleton.2 hself
  | .binary h₁ h₂ | .index h₁ h₂ =>
    simp only [Expr.nodes, List.cons_append, List.forall_mem_cons, List.forall_mem_append] at hn ⊢
    exact ⟨hself, h₁.nodes hN hn.2.1, h₂.nodes hN hn.2.2⟩
  | .unary he | .paren he | .length he | .newArray he =>
    simp only [Expr.nodes, List.forall_mem_cons] at hn ⊢
    exact ⟨hself, he.nodes hN hn.2⟩
  | .call has | .arrayInit has =>
    simp only [Expr.nodes, List.forall_mem_cons] at hn ⊢
    exact ⟨hself, has.nodes hN hn.2⟩
  | .callOn ht has =>
    simp only [Expr.nodes, List.cons_append, List.forall_mem_cons, List.forall_mem_append] at hn ⊢
    exact ⟨hself, ht.nodes hN hn.2.1, has.nodes hN hn.2.2⟩

theorem Expr.ReducesAll.nodes {N : Node → Prop} (hN : ∀ n n', n.Reduces n' → N n → N n')
    {f : Facts} {es es' : List Expr} (h : Expr.ReducesAll f es es')
    (hn : ∀ n ∈ Expr.nodesOf es, N n) : ∀ n ∈ Expr.nodesOf es', N n := by
  match h with
  | .nil => exact hn
  | .cons he hes =>
    simp only [Expr.nodesOf, List.forall_mem_append] at hn ⊢
    exact ⟨he.nodes hN hn.1, hes.nodes hN hn.2⟩

end

mutual

theorem Stmt.Reduces.nodes {N : Node → Prop} (hN : ∀ n n', n.Reduces n' → N n → N n') {t t' : Stmt}
    (h : t.Reduces t') (hn : ∀ n ∈ t.nodes, N n) : ∀ n ∈ t'.nodes, N n := by
  have hself := hN _ _ (.stmt h) (hn _ t.mem_nodes_self)
  match h with
  | .block hb =>
    simp only [Stmt.nodes, List.forall_mem_cons] at hn ⊢
    exact ⟨hself, hb.nodes hN hn.2⟩
  | .condThen hc ht | .loop hc ht =>
    simp only [Stmt.nodes, List.cons_append, List.forall_mem_cons, List.forall_mem_append] at hn ⊢
    exact ⟨hself, hc.nodes hN hn.2.1, ht.nodes hN hn.2.2⟩
  | .condElse hc ht he =>
    simp only [Stmt.nodes, List.cons_append, List.forall_mem_cons, List.forall_mem_append] at hn ⊢
    exact ⟨hself, ⟨hc.nodes hN hn.2.1.1, ht.nodes hN hn.2.1.2⟩, he.nodes hN hn.2.2⟩
  | .expr he | .retSome he =>
    simp only [Stmt.nodes, List.forall_mem_cons] at hn ⊢
    exact ⟨hself, he.nodes hN hn.2⟩
  | .assign ht hv =>
    simp only [Stmt.nodes, List.cons_append, List.forall_mem_cons, List.forall_mem_append] at hn ⊢
    exact ⟨hself, ht.nodes hN hn.2.1, hv.nodes hN hn.2.2⟩
  | .retNone => exact hn

theorem Stmt.ReducesAll.nodes {N : Node → Prop} (hN : ∀ n n', n.Reduces n' → N n → N n')
    {ts ts' : List Stmt} (h : Stmt.ReducesAll ts ts') (hn : ∀ n ∈ Stmt.nodesOf ts, N n) :
    ∀ n ∈ Stmt.nodesOf ts', N n := by
  match h with
  | .nil => exact hn
  | .cons ht hts =>
    simp only [Stmt.nodesOf, List.forall_mem_append] at hn ⊢
    exact ⟨ht.nodes hN hn.1, hts.nodes hN hn.2⟩

end

theorem MethodDecl.exists_local? (d : MethodDecl) :
    ∀ n ∈ d.localNames, ∃ x, (Signature.ofDecl d).local? n = some x := by
  intro n hn
  obtain ⟨v, hv, rfl⟩ := List.mem_map.1 hn
  exact Option.isSome_iff_exists.1 (List.find?_isSome.2
    ⟨Symbol.ofDecl v, List.mem_map_of_mem hv, by simp [Symbol.ofDecl]⟩)

/-- What each round keeps is kept by all. -/
theorem MethodDecl.optimize_rounds {P : MethodDecl → Prop} (d : MethodDecl)
    (hround : ∀ d : MethodDecl, P d → P d.simplify) (h : P d) : P d.optimize.1 := by
  fun_induction MethodDecl.optimize d with
  | case1 d _ => exact hround d h
  | case2 d _ done rounds heq ih =>
    have hdone := ih (hround d h)
    rw [heq] at hdone
    exact hdone

theorem MethodDecl.optimize_induction {P : List Stmt → Prop} {d : MethodDecl}
    (hstep : ∀ b b' : List Stmt, Stmt.ReducesAll b b' → P b → P b') (h : P d.body) :
    P d.optimize.1.body :=
  d.optimize_rounds (P := fun d => P d.body) (fun _ h => hstep _ _ (Stmt.reducesAll_foldAll _)
    (hstep _ _ (Stmt.reducesAll_propagateAll _ _ _) h)) h

end SingleClass
