import Mathlib.Logic.Function.Iterate
import SingleClass.Constant.Fixpoint
set_option autoImplicit false

/-!
The rounds of constant optimisation end. A change takes one removable node off the body, a name, a
binary operator or parentheses, and a round that counts no change returns its method as it is. So the
rounds are the iterates of `simplify` up to the first that changes nothing, and there are at most as
many changes as removable nodes (`MethodDecl.rounds_of_optimize`).
-/

namespace SingleClass

def Node.isRemovable : Node → Bool
  | .expr (.name ..) | .expr (.binary ..) | .expr (.paren _) => true
  | _ => false

mutual

theorem Expr.countP_nodes : ∀ e : Expr, e.nodes.countP Node.isRemovable = e.weight
  | .literal .. | .name .. | .this _ | .newObject .. => rfl
  | .binary op l r p => by
    have hl := Expr.countP_nodes l
    have hr := Expr.countP_nodes r
    simp only [Expr.nodes, Expr.weight, List.cons_append, List.countP_cons, List.countP_append, hl, hr]
    rfl
  | .unary op e p => Expr.countP_nodes e
  | .paren e => by
    have he := Expr.countP_nodes e
    simp only [Expr.nodes, Expr.weight, List.countP_cons, he]
    rfl
  | .index a i p => by
    have ha := Expr.countP_nodes a
    have hi := Expr.countP_nodes i
    simp only [Expr.nodes, Expr.weight, List.cons_append, List.countP_cons, List.countP_append, ha, hi]
    rfl
  | .length a p => Expr.countP_nodes a
  | .call none m as p => Expr.countP_nodesOf as
  | .call (some t) m as p => by
    have ht := Expr.countP_nodes t
    have has := Expr.countP_nodesOf as
    simp only [Expr.nodes, Expr.weight, List.cons_append, List.countP_cons, List.countP_append, ht, has]
    rfl
  | .newArray t e p => Expr.countP_nodes e
  | .arrayInit es p => Expr.countP_nodesOf es

theorem Expr.countP_nodesOf : ∀ es : List Expr,
    (Expr.nodesOf es).countP Node.isRemovable = Expr.weightOf es
  | [] => rfl
  | e :: es => by
    rw [Expr.nodesOf, Expr.weightOf, List.countP_append, Expr.countP_nodes e, Expr.countP_nodesOf es]

end

mutual

theorem Stmt.countP_nodes : ∀ t : Stmt, t.nodes.countP Node.isRemovable = t.weight
  | .block b p => Stmt.countP_nodesOf b
  | .cond c t none p => by
    have ht := Stmt.countP_nodes t
    simp only [Stmt.nodes, Stmt.weight, List.cons_append, List.countP_cons, List.countP_append,
      c.countP_nodes, ht]
    rfl
  | .cond c t (some e) p => by
    have ht := Stmt.countP_nodes t
    have he := Stmt.countP_nodes e
    simp only [Stmt.nodes, Stmt.weight, List.cons_append, List.countP_cons, List.countP_append,
      c.countP_nodes, ht, he]
    rfl
  | .loop c b p => by
    have hb := Stmt.countP_nodes b
    simp only [Stmt.nodes, Stmt.weight, List.cons_append, List.countP_cons, List.countP_append,
      c.countP_nodes, hb]
    rfl
  | .expr e p => e.countP_nodes
  | .assign t v p => by
    simp only [Stmt.nodes, Stmt.weight, List.cons_append, List.countP_cons, List.countP_append,
      t.countP_nodes, v.countP_nodes]
    rfl
  | .ret none p => rfl
  | .ret (some v) p => v.countP_nodes

theorem Stmt.countP_nodesOf : ∀ ts : List Stmt,
    (Stmt.nodesOf ts).countP Node.isRemovable = Stmt.weightOf ts
  | [] => rfl
  | t :: ts => by
    rw [Stmt.nodesOf, Stmt.weightOf, List.countP_append, Stmt.countP_nodes t, Stmt.countP_nodesOf ts]

end

theorem Expr.foldBinary_of_none {op : BinaryOp} {l r : Expr} (p : Span)
    (h : (op.constant? l r).isSome.toNat = 0) : Expr.foldBinary op l r p = .binary op l r p := by
  have hnone : op.constant? l r = none := by simpa using h
  simp only [Expr.foldBinary, hnone]

theorem Expr.foldParen_of_not_literal {e : Expr} (h : e.isLiteral.toNat = 0) :
    e.foldParen = .paren e := by
  have hlit : e.isLiteral = false := by simpa using h
  simp only [Expr.foldParen, hlit, Bool.false_eq_true, if_false]

mutual

theorem Expr.fold_eq_self : ∀ {e : Expr}, e.folds = 0 → e.fold = e
  | .literal .., _ | .name .., _ | .this _, _ | .newObject .., _ => rfl
  | .binary op l r p, h => by
    simp only [Expr.folds, Nat.add_eq_zero_iff] at h
    obtain ⟨⟨hl, hr⟩, hop⟩ := h
    rw [Expr.fold, Expr.foldBinary_of_none p hop, Expr.fold_eq_self hl, Expr.fold_eq_self hr]
  | .unary op e p, h => congrArg (Expr.unary op · p) (Expr.fold_eq_self (e := e) h)
  | .paren e, h => by
    simp only [Expr.folds, Nat.add_eq_zero_iff] at h
    rw [Expr.fold, Expr.foldParen_of_not_literal h.2, Expr.fold_eq_self h.1]
  | .index a i p, h => by
    simp only [Expr.folds, Nat.add_eq_zero_iff] at h
    rw [Expr.fold, Expr.fold_eq_self h.1, Expr.fold_eq_self h.2]
  | .length a p, h => congrArg (Expr.length · p) (Expr.fold_eq_self (e := a) h)
  | .call none m as p, h => by rw [Expr.fold, Expr.foldAll_eq_self h]
  | .call (some t) m as p, h => by
    simp only [Expr.folds, Nat.add_eq_zero_iff] at h
    rw [Expr.fold, Expr.fold_eq_self h.1, Expr.foldAll_eq_self h.2]
  | .newArray t e p, h => congrArg (Expr.newArray t · p) (Expr.fold_eq_self (e := e) h)
  | .arrayInit es p, h => by rw [Expr.fold, Expr.foldAll_eq_self h]

theorem Expr.foldAll_eq_self : ∀ {es : List Expr}, Expr.foldsOf es = 0 → Expr.foldAll es = es
  | [], _ => rfl
  | e :: es, h => by
    simp only [Expr.foldsOf, Nat.add_eq_zero_iff] at h
    rw [Expr.foldAll, Expr.fold_eq_self h.1, Expr.foldAll_eq_self h.2]

end

mutual

theorem Stmt.fold_eq_self : ∀ {t : Stmt}, t.folds = 0 → t.fold = t
  | .block b p, h => by rw [Stmt.fold, Stmt.foldAll_eq_self h]
  | .cond c t none p, h => by
    simp only [Stmt.folds, Nat.add_eq_zero_iff] at h
    rw [Stmt.fold, Expr.fold_eq_self h.1, Stmt.fold_eq_self h.2]
  | .cond c t (some e) p, h => by
    simp only [Stmt.folds, Nat.add_eq_zero_iff] at h
    rw [Stmt.fold, Expr.fold_eq_self h.1.1, Stmt.fold_eq_self h.1.2, Stmt.fold_eq_self h.2]
  | .loop c b p, h => by
    simp only [Stmt.folds, Nat.add_eq_zero_iff] at h
    rw [Stmt.fold, Expr.fold_eq_self h.1, Stmt.fold_eq_self h.2]
  | .expr e p, h => by rw [Stmt.fold, Expr.fold_eq_self h]
  | .assign t v p, h => by
    simp only [Stmt.folds, Nat.add_eq_zero_iff] at h
    rw [Stmt.fold, Expr.fold_eq_self h.1, Expr.fold_eq_self h.2]
  | .ret none p, _ => rfl
  | .ret (some v) p, h => by rw [Stmt.fold, Expr.fold_eq_self h]

theorem Stmt.foldAll_eq_self : ∀ {ts : List Stmt}, Stmt.foldsOf ts = 0 → Stmt.foldAll ts = ts
  | [], _ => rfl
  | t :: ts, h => by
    simp only [Stmt.foldsOf, Nat.add_eq_zero_iff] at h
    rw [Stmt.foldAll, Stmt.fold_eq_self h.1, Stmt.foldAll_eq_self h.2]

end

mutual

theorem Expr.substitute_eq_self {f : Facts} : ∀ {e : Expr}, e.substitutions f = 0 →
    e.substitute f = e
  | .literal .., _ | .this _, _ | .newObject .., _ => rfl
  | .name n p, h => by
    have hnone : f.get? n = none := by simpa [Expr.substitutions] using h
    simp only [Expr.substitute, hnone]
  | .binary op l r p, h => by
    simp only [Expr.substitutions, Nat.add_eq_zero_iff] at h
    rw [Expr.substitute, Expr.substitute_eq_self h.1, Expr.substitute_eq_self h.2]
  | .unary op e p, h => congrArg (Expr.unary op · p) (Expr.substitute_eq_self (e := e) h)
  | .paren e, h => congrArg Expr.paren (Expr.substitute_eq_self (e := e) h)
  | .index a i p, h => by
    simp only [Expr.substitutions, Nat.add_eq_zero_iff] at h
    rw [Expr.substitute, Expr.substitute_eq_self h.1, Expr.substitute_eq_self h.2]
  | .length a p, h => congrArg (Expr.length · p) (Expr.substitute_eq_self (e := a) h)
  | .call none m as p, h => by rw [Expr.substitute, Expr.substituteAll_eq_self h]
  | .call (some t) m as p, h => by
    simp only [Expr.substitutions, Nat.add_eq_zero_iff] at h
    rw [Expr.substitute, Expr.substitute_eq_self h.1, Expr.substituteAll_eq_self h.2]
  | .newArray t e p, h => congrArg (Expr.newArray t · p) (Expr.substitute_eq_self (e := e) h)
  | .arrayInit es p, h => by rw [Expr.substitute, Expr.substituteAll_eq_self h]

theorem Expr.substituteAll_eq_self {f : Facts} : ∀ {es : List Expr}, Expr.substitutionsOf f es = 0 →
    Expr.substituteAll f es = es
  | [], _ => rfl
  | e :: es, h => by
    simp only [Expr.substitutionsOf, Nat.add_eq_zero_iff] at h
    rw [Expr.substituteAll, Expr.substitute_eq_self h.1, Expr.substituteAll_eq_self h.2]

end

theorem Stmt.propagate_assign_eq_self {names : List String} {f : Facts} {target value : Expr} {p : Span}
    (h : (Stmt.assign target value p).substitutions names f = 0) :
    (Stmt.assign target value p).propagate names f = .assign target value p := by
  cases target with
  | name n q => rw [Stmt.propagate, Expr.substitute_eq_self h]
  | _ =>
    simp only [Stmt.substitutions, Nat.add_eq_zero_iff] at h
    rw [Stmt.propagate, Expr.substitute_eq_self h.1, Expr.substitute_eq_self h.2]
    simp

mutual

theorem Stmt.propagate_eq_self {names : List String} {f : Facts} : ∀ {t : Stmt},
    t.substitutions names f = 0 → t.propagate names f = t
  | .block b p, h => by rw [Stmt.propagate, Stmt.propagateAll_eq_self h]
  | .cond c t none p, h => by
    simp only [Stmt.substitutions, Nat.add_eq_zero_iff] at h
    rw [Stmt.propagate, Expr.substitute_eq_self h.1, Stmt.propagate_eq_self h.2]
  | .cond c t (some e) p, h => by
    simp only [Stmt.substitutions, Nat.add_eq_zero_iff] at h
    rw [Stmt.propagate, Expr.substitute_eq_self h.1.1, Stmt.propagate_eq_self h.1.2,
      Stmt.propagate_eq_self h.2]
  | .loop c b p, h => by
    simp only [Stmt.substitutions, Nat.add_eq_zero_iff] at h
    rw [Stmt.propagate, Expr.substitute_eq_self h.1, Stmt.propagate_eq_self h.2]
  | .expr e p, h => by rw [Stmt.propagate, Expr.substitute_eq_self h]
  | .assign .., h => Stmt.propagate_assign_eq_self h
  | .ret none p, _ => rfl
  | .ret (some v) p, h => by rw [Stmt.propagate, Expr.substitute_eq_self h]

theorem Stmt.propagateAll_eq_self {names : List String} {f : Facts} : ∀ {ts : List Stmt},
    Stmt.substitutionsOf names f ts = 0 → Stmt.propagateAll names f ts = ts
  | [], _ => rfl
  | t :: ts, h => by
    simp only [Stmt.substitutionsOf, Nat.add_eq_zero_iff] at h
    rw [Stmt.propagateAll, Stmt.propagate_eq_self h.1, Stmt.propagateAll_eq_self h.2]

end

namespace MethodDecl

theorem fold_eq_self {m : MethodDecl} (h : m.folds = 0) : m.fold = m := by
  rw [fold, Stmt.foldAll_eq_self h]

theorem propagate_eq_self {m : MethodDecl} (h : m.substitutions = 0) : m.propagate = m := by
  rw [propagate, Stmt.propagateAll_eq_self h]

theorem changes_eq_zero_iff {m : MethodDecl} : m.round.changes = 0 ↔ m.simplify = m := by
  constructor
  · intro h
    simp only [round, Round.changes, Nat.add_eq_zero_iff] at h
    rw [simplify, fold_eq_self h.2, propagate_eq_self h.1]
  · intro h
    have hweight := m.weight_simplify
    rw [h] at hweight
    omega

end MethodDecl

def Round.total : List Round → Nat
  | [] => 0
  | r :: rs => r.changes + Round.total rs

namespace MethodDecl

theorem total_rounds_add_weight (m : MethodDecl) :
    Round.total m.optimize.2 + m.optimize.1.weight = m.weight := by
  fun_induction optimize m with
  | case1 m h =>
    have hround := m.weight_simplify
    simp only [Round.total]
    omega
  | case2 m h done rounds heq ih =>
    have hround := m.weight_simplify
    rw [heq] at ih
    simp only [Round.total] at ih ⊢
    omega

theorem length_rounds_le (m : MethodDecl) : m.optimize.2.length ≤ Round.total m.optimize.2 + 1 := by
  fun_induction optimize m with
  | case1 m h => simp
  | case2 m h done rounds heq ih =>
    rw [heq] at ih
    simp only [List.length_cons, Round.total] at ih ⊢
    omega

/-- The rounds are those of the iterates, up to the first that changes nothing. -/
theorem exists_rounds (m : MethodDecl) : ∃ n,
    m.optimize = (simplify^[n + 1] m, (List.range (n + 1)).map fun i => (simplify^[i] m).round) ∧
      (simplify^[n] m).round.changes = 0 ∧ ∀ i < n, (simplify^[i] m).round.changes ≠ 0 := by
  fun_induction optimize m with
  | case1 m h => exact ⟨0, rfl, h, by simp⟩
  | case2 m h done rounds heq ih =>
    obtain ⟨n, hrun, hlast, hearlier⟩ := ih
    rw [heq] at hrun
    obtain ⟨hdone, hrounds⟩ := Prod.mk.inj hrun
    refine ⟨n + 1, ?_, hlast, ?_⟩
    · rw [List.range_succ_eq_map, List.map_cons, List.map_map, hdone, hrounds]
      rfl
    · intro i hi
      cases i with
      | zero => exact h
      | succ i => exact hearlier i (by omega)

/-- Optimisation of a method stops at the first round that changes nothing, with as many changes as
the body has removable nodes at most. -/
theorem rounds_of_optimize (m : MethodDecl) :
    (∃ n, m.optimize = (simplify^[n + 1] m, (List.range (n + 1)).map fun i => (simplify^[i] m).round) ∧
      (simplify^[n] m).round.changes = 0 ∧ ∀ i < n, (simplify^[i] m).round.changes ≠ 0) ∧
    Round.total m.optimize.2 ≤ (Stmt.nodesOf m.body).countP Node.isRemovable ∧
    m.optimize.2.length ≤ (Stmt.nodesOf m.body).countP Node.isRemovable + 1 ∧
    ∀ d : MethodDecl, d.round.changes = 0 ↔ d.simplify = d := by
  have hweight : (Stmt.nodesOf m.body).countP Node.isRemovable = m.weight :=
    Stmt.countP_nodesOf m.body
  have htotal := m.total_rounds_add_weight
  have hlength := m.length_rounds_le
  refine ⟨m.exists_rounds, by omega, by omega, fun d => changes_eq_zero_iff⟩

end MethodDecl

end SingleClass
