import SingleClass.Proofs.Constant.Termination
set_option autoImplicit false

/-!
What constant optimisation leaves is in normal form: no operator on two literals that has a value, no
parentheses around a literal, no read of a local that is known to hold a literal. One pass of folding
leaves no redex and one pass of propagation no known read, so each pass is idempotent, and the
fixpoint of a program is its own (`Program.optimize_fixpoint`).
-/

namespace SingleClass

/-- A node that folding replaces. -/
def Node.isRedex : Node → Bool
  | .expr (.binary op l r _) => (op.constant? l r).isSome
  | .expr (.paren e) => e.isLiteral
  | _ => false

mutual

theorem Expr.isRedex_of_folds : ∀ {e : Expr}, e.folds = 0 → ∀ n ∈ e.nodes, n.isRedex = false
  | .literal .., _ | .name .., _ | .this _, _ | .newObject .., _ => by simp [Expr.nodes, Node.isRedex]
  | .binary op l r p, h => by
    simp only [Expr.folds, Nat.add_eq_zero_iff] at h
    obtain ⟨⟨hl, hr⟩, hop⟩ := h
    rw [Expr.fold_eq_self hl, Expr.fold_eq_self hr] at hop
    simp only [Expr.nodes, List.cons_append, List.forall_mem_cons, List.forall_mem_append]
    exact ⟨by simpa [Node.isRedex] using hop, Expr.isRedex_of_folds hl, Expr.isRedex_of_folds hr⟩
  | .paren e, h => by
    simp only [Expr.folds, Nat.add_eq_zero_iff] at h
    obtain ⟨he, hlit⟩ := h
    rw [Expr.fold_eq_self he] at hlit
    simp only [Expr.nodes, List.forall_mem_cons]
    exact ⟨by simpa [Node.isRedex] using hlit, Expr.isRedex_of_folds he⟩
  | .unary op e p, h => List.forall_mem_cons.2 ⟨rfl, Expr.isRedex_of_folds (e := e) h⟩
  | .length a p, h => List.forall_mem_cons.2 ⟨rfl, Expr.isRedex_of_folds (e := a) h⟩
  | .newArray t e p, h => List.forall_mem_cons.2 ⟨rfl, Expr.isRedex_of_folds (e := e) h⟩
  | .index a i p, h => by
    simp only [Expr.folds, Nat.add_eq_zero_iff] at h
    simp only [Expr.nodes, List.cons_append, List.forall_mem_cons, List.forall_mem_append]
    exact ⟨rfl, Expr.isRedex_of_folds h.1, Expr.isRedex_of_folds h.2⟩
  | .call none m as p, h => List.forall_mem_cons.2 ⟨rfl, Expr.isRedex_of_foldsOf h⟩
  | .call (some t) m as p, h => by
    simp only [Expr.folds, Nat.add_eq_zero_iff] at h
    simp only [Expr.nodes, List.cons_append, List.forall_mem_cons, List.forall_mem_append]
    exact ⟨rfl, Expr.isRedex_of_folds h.1, Expr.isRedex_of_foldsOf h.2⟩
  | .arrayInit es p, h => List.forall_mem_cons.2 ⟨rfl, Expr.isRedex_of_foldsOf h⟩

theorem Expr.isRedex_of_foldsOf : ∀ {es : List Expr}, Expr.foldsOf es = 0 →
    ∀ n ∈ Expr.nodesOf es, n.isRedex = false
  | [], _ => by simp [Expr.nodesOf]
  | e :: es, h => by
    simp only [Expr.foldsOf, Nat.add_eq_zero_iff] at h
    rw [Expr.nodesOf, List.forall_mem_append]
    exact ⟨Expr.isRedex_of_folds h.1, Expr.isRedex_of_foldsOf h.2⟩

end

mutual

theorem Stmt.isRedex_of_folds : ∀ {t : Stmt}, t.folds = 0 → ∀ n ∈ t.nodes, n.isRedex = false
  | .block b p, h => List.forall_mem_cons.2 ⟨rfl, Stmt.isRedex_of_foldsOf h⟩
  | .cond c t none p, h => by
    simp only [Stmt.folds, Nat.add_eq_zero_iff] at h
    simp only [Stmt.nodes, List.cons_append, List.forall_mem_cons, List.forall_mem_append]
    exact ⟨rfl, Expr.isRedex_of_folds h.1, Stmt.isRedex_of_folds h.2⟩
  | .cond c t (some e) p, h => by
    simp only [Stmt.folds, Nat.add_eq_zero_iff] at h
    simp only [Stmt.nodes, List.cons_append, List.forall_mem_cons, List.forall_mem_append]
    exact ⟨rfl, ⟨Expr.isRedex_of_folds h.1.1, Stmt.isRedex_of_folds h.1.2⟩,
      Stmt.isRedex_of_folds h.2⟩
  | .loop c b p, h => by
    simp only [Stmt.folds, Nat.add_eq_zero_iff] at h
    simp only [Stmt.nodes, List.cons_append, List.forall_mem_cons, List.forall_mem_append]
    exact ⟨rfl, Expr.isRedex_of_folds h.1, Stmt.isRedex_of_folds h.2⟩
  | .expr e p, h => List.forall_mem_cons.2 ⟨rfl, Expr.isRedex_of_folds (e := e) h⟩
  | .assign t v p, h => by
    simp only [Stmt.folds, Nat.add_eq_zero_iff] at h
    simp only [Stmt.nodes, List.cons_append, List.forall_mem_cons, List.forall_mem_append]
    exact ⟨rfl, Expr.isRedex_of_folds h.1, Expr.isRedex_of_folds h.2⟩
  | .ret none p, _ => by simp [Stmt.nodes, Node.isRedex]
  | .ret (some v) p, h => List.forall_mem_cons.2 ⟨rfl, Expr.isRedex_of_folds (e := v) h⟩

theorem Stmt.isRedex_of_foldsOf : ∀ {ts : List Stmt}, Stmt.foldsOf ts = 0 →
    ∀ n ∈ Stmt.nodesOf ts, n.isRedex = false
  | [], _ => by simp [Stmt.nodesOf]
  | t :: ts, h => by
    simp only [Stmt.foldsOf, Nat.add_eq_zero_iff] at h
    rw [Stmt.nodesOf, List.forall_mem_append]
    exact ⟨Stmt.isRedex_of_folds h.1, Stmt.isRedex_of_foldsOf h.2⟩

end

theorem Expr.folds_foldBinary {op : BinaryOp} {l r : Expr} (p : Span) (hl : l.folds = 0)
    (hr : r.folds = 0) : (Expr.foldBinary op l r p).folds = 0 := by
  unfold Expr.foldBinary
  split
  next => rfl
  next h =>
    rw [Expr.folds, Expr.fold_eq_self hl, Expr.fold_eq_self hr, h, hl, hr]
    rfl

theorem Expr.folds_foldParen {e : Expr} (h : e.folds = 0) : e.foldParen.folds = 0 := by
  unfold Expr.foldParen
  split
  · exact h
  · next hlit =>
    rw [Expr.folds, Expr.fold_eq_self h, h]
    simpa using hlit

mutual

theorem Expr.folds_fold : ∀ e : Expr, e.fold.folds = 0
  | .literal .. | .name .. | .this _ | .newObject .. => rfl
  | .binary op l r p => Expr.folds_foldBinary p (Expr.folds_fold l) (Expr.folds_fold r)
  | .unary op e p => Expr.folds_fold e
  | .paren e => Expr.folds_foldParen (Expr.folds_fold e)
  | .index a i p => by rw [Expr.fold, Expr.folds, Expr.folds_fold a, Expr.folds_fold i]
  | .length a p => Expr.folds_fold a
  | .call none m as p => Expr.foldsOf_foldAll as
  | .call (some t) m as p => by rw [Expr.fold, Expr.folds, Expr.folds_fold t, Expr.foldsOf_foldAll as]
  | .newArray t e p => Expr.folds_fold e
  | .arrayInit es p => Expr.foldsOf_foldAll es

theorem Expr.foldsOf_foldAll : ∀ es : List Expr, Expr.foldsOf (Expr.foldAll es) = 0
  | [] => rfl
  | e :: es => by rw [Expr.foldAll, Expr.foldsOf, Expr.folds_fold e, Expr.foldsOf_foldAll es]

end

mutual

theorem Stmt.folds_fold : ∀ t : Stmt, t.fold.folds = 0
  | .block b p => Stmt.foldsOf_foldAll b
  | .cond c t none p => by rw [Stmt.fold, Stmt.folds, c.folds_fold, Stmt.folds_fold t]
  | .cond c t (some e) p => by
    rw [Stmt.fold, Stmt.folds, c.folds_fold, Stmt.folds_fold t, Stmt.folds_fold e]
  | .loop c b p => by rw [Stmt.fold, Stmt.folds, c.folds_fold, Stmt.folds_fold b]
  | .expr e p => e.folds_fold
  | .assign t v p => by rw [Stmt.fold, Stmt.folds, t.folds_fold, v.folds_fold]
  | .ret none p => rfl
  | .ret (some v) p => v.folds_fold

theorem Stmt.foldsOf_foldAll : ∀ ts : List Stmt, Stmt.foldsOf (Stmt.foldAll ts) = 0
  | [] => rfl
  | t :: ts => by rw [Stmt.foldAll, Stmt.foldsOf, Stmt.folds_fold t, Stmt.foldsOf_foldAll ts]

end

theorem MethodDecl.folds_fold (m : MethodDecl) : m.fold.folds = 0 := Stmt.foldsOf_foldAll m.body

/-- A name that is read, with what is known at that point. -/
structure Read where
  name : String
  facts : Facts

def Read.isKnown (r : Read) : Bool := (r.facts.get? r.name).isSome

def Node.name? : Node → Option String
  | .expr (.name n _) => some n
  | _ => none

def Expr.reads (f : Facts) (e : Expr) : List Read :=
  (e.nodes.filterMap Node.name?).map fun n => { name := n, facts := f }

def Expr.readsOf (f : Facts) (es : List Expr) : List Read :=
  ((Expr.nodesOf es).filterMap Node.name?).map fun n => { name := n, facts := f }

mutual

/-- The reads in a statement, left to right, where `f` is known before it. A name that is assigned is
no read. -/
def Stmt.reads (names : List String) (f : Facts) : Stmt → List Read
  | .block b _ => Stmt.readsOf names f b
  | .cond c t none _ => c.reads f ++ t.reads names f
  | .cond c t (some e) _ => c.reads f ++ t.reads names f ++ e.reads names f
  | .loop c b _ => c.reads (f.forget b.assigned) ++ b.reads names (f.forget b.assigned)
  | .expr e _ => e.reads f
  | .assign (.name _ _) v _ => v.reads f
  | .assign t v _ => t.reads f ++ v.reads f
  | .ret none _ => []
  | .ret (some v) _ => v.reads f

def Stmt.readsOf (names : List String) (f : Facts) : List Stmt → List Read
  | [] => []
  | t :: ts => t.reads names f ++ Stmt.readsOf names (t.after names f) ts

end

def MethodDecl.reads (m : MethodDecl) : List Read := Stmt.readsOf m.localNames {} m.body

mutual

theorem Expr.countP_reads (f : Facts) : ∀ e : Expr,
    (e.reads f).countP Read.isKnown = e.substitutions f
  | .literal .. | .this _ | .newObject .. => rfl
  | .name n p => by
    simp only [Expr.reads, Expr.nodes, Node.name?, Expr.substitutions, List.filterMap_cons,
      List.filterMap_nil, List.map_cons, List.map_nil, List.countP_cons, List.countP_nil, Read.isKnown]
    by_cases h : (f.get? n).isSome = true <;> simp [h]
  | .binary op l r p => by
    have hl := Expr.countP_reads f l
    have hr := Expr.countP_reads f r
    simp only [Expr.reads] at hl hr
    simp only [Expr.reads, Expr.nodes, Expr.substitutions, List.cons_append, List.filterMap_cons,
      Node.name?, List.filterMap_append, List.map_append, List.countP_append, hl, hr]
  | .unary op e p => Expr.countP_reads f e
  | .paren e => Expr.countP_reads f e
  | .index a i p => by
    have ha := Expr.countP_reads f a
    have hi := Expr.countP_reads f i
    simp only [Expr.reads] at ha hi
    simp only [Expr.reads, Expr.nodes, Expr.substitutions, List.cons_append, List.filterMap_cons,
      Node.name?, List.filterMap_append, List.map_append, List.countP_append, ha, hi]
  | .length a p => Expr.countP_reads f a
  | .call none m as p => Expr.countP_readsOf f as
  | .call (some t) m as p => by
    have ht := Expr.countP_reads f t
    have has := Expr.countP_readsOf f as
    simp only [Expr.reads, Expr.readsOf] at ht has
    simp only [Expr.reads, Expr.nodes, Expr.substitutions, List.cons_append, List.filterMap_cons,
      Node.name?, List.filterMap_append, List.map_append, List.countP_append, ht, has]
  | .newArray t e p => Expr.countP_reads f e
  | .arrayInit es p => Expr.countP_readsOf f es

theorem Expr.countP_readsOf (f : Facts) : ∀ es : List Expr,
    (Expr.readsOf f es).countP Read.isKnown = Expr.substitutionsOf f es
  | [] => rfl
  | e :: es => by
    have he := Expr.countP_reads f e
    have hes := Expr.countP_readsOf f es
    simp only [Expr.reads, Expr.readsOf] at he hes
    simp only [Expr.readsOf, Expr.nodesOf, Expr.substitutionsOf, List.filterMap_append,
      List.map_append, List.countP_append, he, hes]

end

mutual

theorem Stmt.countP_reads (names : List String) (f : Facts) : ∀ t : Stmt,
    (t.reads names f).countP Read.isKnown = t.substitutions names f
  | .block b p => Stmt.countP_readsOf names f b
  | .cond c t none p => by
    simp only [Stmt.reads, Stmt.substitutions, List.countP_append, c.countP_reads,
      Stmt.countP_reads names f t]
  | .cond c t (some e) p => by
    simp only [Stmt.reads, Stmt.substitutions, List.countP_append, c.countP_reads,
      Stmt.countP_reads names f t, Stmt.countP_reads names f e]
  | .loop c b p => by
    simp only [Stmt.reads, Stmt.substitutions, List.countP_append, c.countP_reads,
      Stmt.countP_reads names _ b]
  | .expr e p => e.countP_reads f
  | .assign t v p => by
    cases t <;>
      simp only [Stmt.reads, Stmt.substitutions, List.countP_append, Expr.countP_reads]
  | .ret none p => rfl
  | .ret (some v) p => v.countP_reads f

theorem Stmt.countP_readsOf (names : List String) (f : Facts) : ∀ ts : List Stmt,
    (Stmt.readsOf names f ts).countP Read.isKnown = Stmt.substitutionsOf names f ts
  | [] => rfl
  | t :: ts => by
    simp only [Stmt.readsOf, Stmt.substitutionsOf, List.countP_append, Stmt.countP_reads names f t,
      Stmt.countP_readsOf names _ ts]

end

theorem MethodDecl.get?_of_substitutions {m : MethodDecl} (h : m.substitutions = 0) :
    ∀ r ∈ m.reads, r.facts.get? r.name = none := by
  have hcount : m.reads.countP Read.isKnown = 0 := (Stmt.countP_readsOf _ _ _).trans h
  intro r hr
  simpa [Read.isKnown] using List.countP_eq_zero.1 hcount r hr

mutual

theorem Expr.substitutions_substitute (f : Facts) : ∀ e : Expr, (e.substitute f).substitutions f = 0
  | .literal .. | .this _ | .newObject .. => rfl
  | .name n p => by
    rw [Expr.substitute]
    split
    next => rfl
    next h => simp [Expr.substitutions, h]
  | .binary op l r p => by
    rw [Expr.substitute, Expr.substitutions, Expr.substitutions_substitute f l,
      Expr.substitutions_substitute f r]
  | .unary op e p => Expr.substitutions_substitute f e
  | .paren e => Expr.substitutions_substitute f e
  | .index a i p => by
    rw [Expr.substitute, Expr.substitutions, Expr.substitutions_substitute f a,
      Expr.substitutions_substitute f i]
  | .length a p => Expr.substitutions_substitute f a
  | .call none m as p => Expr.substitutionsOf_substituteAll f as
  | .call (some t) m as p => by
    rw [Expr.substitute, Expr.substitutions, Expr.substitutions_substitute f t,
      Expr.substitutionsOf_substituteAll f as]
  | .newArray t e p => Expr.substitutions_substitute f e
  | .arrayInit es p => Expr.substitutionsOf_substituteAll f es

theorem Expr.substitutionsOf_substituteAll (f : Facts) : ∀ es : List Expr,
    Expr.substitutionsOf f (Expr.substituteAll f es) = 0
  | [] => rfl
  | e :: es => by
    rw [Expr.substituteAll, Expr.substitutionsOf, Expr.substitutions_substitute f e,
      Expr.substitutionsOf_substituteAll f es]

end

theorem Expr.substitute_substitute (f : Facts) (e : Expr) :
    (e.substitute f).substitute f = e.substitute f :=
  Expr.substitute_eq_self (Expr.substitutions_substitute f e)

mutual

theorem Stmt.stores_propagate (names : List String) (f : Facts) : ∀ t : Stmt,
    (t.propagate names f).stores = t.stores
  | .block b p => Stmt.storesOf_propagateAll names f b
  | .cond c t none p => Stmt.stores_propagate names f t
  | .cond c t (some e) p => by
    rw [Stmt.propagate, Stmt.stores, Stmt.stores, Stmt.stores_propagate names f t,
      Stmt.stores_propagate names f e]
  | .loop c b p => Stmt.stores_propagate names _ b
  | .expr e p => rfl
  | .assign t v p => by
    cases t with
    | name n q => rfl
    | call t m as q => cases t <;> rfl
    | _ => rfl
  | .ret none p => rfl
  | .ret (some v) p => rfl

theorem Stmt.storesOf_propagateAll (names : List String) (f : Facts) : ∀ ts : List Stmt,
    Stmt.storesOf (Stmt.propagateAll names f ts) = Stmt.storesOf ts
  | [] => rfl
  | t :: ts => by
    rw [Stmt.propagateAll, Stmt.storesOf, Stmt.storesOf, Stmt.stores_propagate names f t,
      Stmt.storesOf_propagateAll names _ ts]

end

theorem Stmt.assigned_propagate (names : List String) (f : Facts) (t : Stmt) :
    (t.propagate names f).assigned = t.assigned := by
  rw [Stmt.assigned, Stmt.assigned, Stmt.stores_propagate]

theorem Stmt.after_propagate_assign (names : List String) (f : Facts) (target value : Expr) (p : Span) :
    ((Stmt.assign target value p).propagate names f).after names f =
      (Stmt.assign target value p).after names f := by
  cases target with
  | name n q => rw [Stmt.propagate, Stmt.after, Stmt.after, Expr.substitute_substitute]
  | call t m as q => cases t <;> rfl
  | _ => rfl

mutual

theorem Stmt.after_propagate (names : List String) (f : Facts) : ∀ t : Stmt,
    (t.propagate names f).after names f = t.after names f
  | .block b p => Stmt.afterAll_propagateAll names f b
  | .cond c t none p => by
    rw [Stmt.propagate, Stmt.after, Stmt.after, Stmt.after_propagate names f t]
  | .cond c t (some e) p => by
    rw [Stmt.propagate, Stmt.after, Stmt.after, Stmt.after_propagate names f t,
      Stmt.after_propagate names f e]
  | .loop c b p => by rw [Stmt.propagate, Stmt.after, Stmt.after, Stmt.assigned_propagate]
  | .expr e p => rfl
  | .assign t v p => Stmt.after_propagate_assign names f t v p
  | .ret none p => rfl
  | .ret (some v) p => rfl

theorem Stmt.afterAll_propagateAll (names : List String) (f : Facts) : ∀ ts : List Stmt,
    Stmt.afterAll names f (Stmt.propagateAll names f ts) = Stmt.afterAll names f ts
  | [] => rfl
  | t :: ts => by
    rw [Stmt.propagateAll, Stmt.afterAll, Stmt.afterAll, Stmt.after_propagate names f t,
      Stmt.afterAll_propagateAll names _ ts]

end

theorem Stmt.substitutions_propagate_assign (names : List String) (f : Facts) (target value : Expr)
    (p : Span) : ((Stmt.assign target value p).propagate names f).substitutions names f = 0 := by
  have ht := target.substitutions_substitute f
  have hv := value.substitutions_substitute f
  cases target with
  | name n q => exact hv
  | call t m as q =>
    cases t <;>
      (simp only [Stmt.propagate, Expr.substitute, Stmt.substitutions] at ht ⊢; rw [ht, hv])
  | _ => simp only [Stmt.propagate, Expr.substitute, Stmt.substitutions] at ht ⊢; rw [ht, hv]

mutual

theorem Stmt.substitutions_propagate (names : List String) (f : Facts) : ∀ t : Stmt,
    (t.propagate names f).substitutions names f = 0
  | .block b p => Stmt.substitutionsOf_propagateAll names f b
  | .cond c t none p => by
    rw [Stmt.propagate, Stmt.substitutions, c.substitutions_substitute,
      Stmt.substitutions_propagate names f t]
  | .cond c t (some e) p => by
    rw [Stmt.propagate, Stmt.substitutions, c.substitutions_substitute,
      Stmt.substitutions_propagate names f t, Stmt.substitutions_propagate names f e]
  | .loop c b p => by
    rw [Stmt.propagate, Stmt.substitutions, Stmt.assigned_propagate, c.substitutions_substitute,
      Stmt.substitutions_propagate names _ b]
  | .expr e p => e.substitutions_substitute f
  | .assign t v p => Stmt.substitutions_propagate_assign names f t v p
  | .ret none p => rfl
  | .ret (some v) p => v.substitutions_substitute f

theorem Stmt.substitutionsOf_propagateAll (names : List String) (f : Facts) : ∀ ts : List Stmt,
    Stmt.substitutionsOf names f (Stmt.propagateAll names f ts) = 0
  | [] => rfl
  | t :: ts => by
    rw [Stmt.propagateAll, Stmt.substitutionsOf, Stmt.after_propagate,
      Stmt.substitutions_propagate names f t, Stmt.substitutionsOf_propagateAll names _ ts]

end

theorem MethodDecl.substitutions_propagate (m : MethodDecl) : m.propagate.substitutions = 0 :=
  Stmt.substitutionsOf_propagateAll m.localNames {} m.body

namespace MethodDecl

/-- No redex, and no read of a local that is known to hold a literal. -/
structure IsNormal (m : MethodDecl) : Prop where
  folded : ∀ n ∈ Stmt.nodesOf m.body, n.isRedex = false
  propagated : ∀ r ∈ m.reads, r.facts.get? r.name = none

theorem isNormal_of_changes {m : MethodDecl} (h : m.round.changes = 0) : m.IsNormal := by
  simp only [round, Round.changes, Nat.add_eq_zero_iff] at h
  obtain ⟨hsub, hfold⟩ := h
  rw [propagate_eq_self hsub] at hfold
  exact ⟨Stmt.isRedex_of_foldsOf hfold, get?_of_substitutions hsub⟩

theorem changes_optimize (m : MethodDecl) : m.optimize.1.round.changes = 0 := by
  obtain ⟨n, hrun, hlast, -⟩ := m.exists_rounds
  have hfix := changes_eq_zero_iff.1 hlast
  rw [hrun, Function.iterate_succ_apply', hfix]
  exact hlast

theorem optimize_of_changes {m : MethodDecl} (h : m.round.changes = 0) :
    m.optimize = (m, [m.round]) := by
  rw [optimize, if_pos h, changes_eq_zero_iff.1 h]

end MethodDecl

theorem Optimized.foldl_max_one {rounds : List (String × List Round)} (h : ∀ r ∈ rounds, r.2.length = 1)
    (n : Nat) : rounds.foldl (fun n r => max n r.2.length) n = if rounds.isEmpty then n else max n 1 := by
  induction rounds generalizing n with
  | nil => rfl
  | cons r rs ih =>
    obtain ⟨hr, hrs⟩ := List.forall_mem_cons.1 h
    rw [List.foldl_cons, ih hrs, hr]
    cases rs <;> simp

namespace Program

theorem methods_optimize (p : Program) :
    p.optimize.program.classDecl.methods = p.classDecl.methods.map fun m => m.optimize.1 := by
  simp [Program.optimize]

theorem rounds_optimize (p : Program) :
    p.optimize.rounds = p.classDecl.methods.map fun m => (m.name, m.optimize.2) := by
  simp [Program.optimize]

theorem optimize_of_changes {p : Program} (h : ∀ m ∈ p.classDecl.methods, m.round.changes = 0) :
    p.optimize.program = p ∧
      p.optimize.roundCount = if p.classDecl.methods.isEmpty then 0 else 1 := by
  constructor
  · have hmethods : p.classDecl.methods.map (fun m => m.optimize.1) = p.classDecl.methods := by
      refine (List.map_congr_left fun m hm => ?_).trans (List.map_id _)
      rw [MethodDecl.optimize_of_changes (h m hm)]
      rfl
    simp only [Program.optimize, List.map_map, Function.comp_def, hmethods]
  · have hone : ∀ r ∈ p.optimize.rounds, r.2.length = 1 := by
      rw [rounds_optimize]
      intro r hr
      obtain ⟨m, hm, rfl⟩ := List.mem_map.1 hr
      rw [MethodDecl.optimize_of_changes (h m hm)]
      rfl
    rw [Optimized.roundCount, Optimized.foldl_max_one hone, rounds_optimize, List.isEmpty_map]
    rfl

/-- Folding and propagation are idempotent, optimisation leaves methods in normal form, and what it
leaves is its own fixpoint. -/
theorem optimize_fixpoint :
    (∀ e : Expr, e.fold.fold = e.fold ∧ e.fold.folds = 0) ∧
    (∀ t : Stmt, t.fold.fold = t.fold ∧ t.fold.folds = 0) ∧
    (∀ m : MethodDecl, m.fold.fold = m.fold ∧ m.fold.folds = 0) ∧
    (∀ m : MethodDecl, m.propagate.propagate = m.propagate ∧ m.propagate.substitutions = 0 ∧
      ∀ r ∈ m.propagate.reads, r.facts.get? r.name = none) ∧
    ∀ p : Program, (∀ m ∈ p.optimize.program.classDecl.methods, m.IsNormal) ∧
      p.optimize.program.optimize.program = p.optimize.program ∧
      p.optimize.program.optimize.roundCount = if p.classDecl.methods.isEmpty then 0 else 1 := by
  refine ⟨fun e => ⟨Expr.fold_eq_self e.folds_fold, e.folds_fold⟩,
    fun t => ⟨Stmt.fold_eq_self t.folds_fold, t.folds_fold⟩,
    fun m => ⟨MethodDecl.fold_eq_self m.folds_fold, m.folds_fold⟩,
    fun m => ⟨MethodDecl.propagate_eq_self m.substitutions_propagate, m.substitutions_propagate,
      MethodDecl.get?_of_substitutions m.substitutions_propagate⟩, fun p => ?_⟩
  have hchanges : ∀ m ∈ p.optimize.program.classDecl.methods, m.round.changes = 0 := by
    rw [methods_optimize]
    intro m hm
    obtain ⟨d, -, rfl⟩ := List.mem_map.1 hm
    exact d.changes_optimize
  obtain ⟨hprogram, hcount⟩ := optimize_of_changes hchanges
  rw [hcount, methods_optimize, List.isEmpty_map]
  exact ⟨fun m hm => MethodDecl.isNormal_of_changes (hchanges m (methods_optimize p ▸ hm)), hprogram, rfl⟩

end Program

end SingleClass
