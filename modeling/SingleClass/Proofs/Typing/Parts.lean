import SingleClass.Proofs.Typing.Checking
set_option autoImplicit false

/-!
What the analysis says of a body it says of the parts: checking finds nothing in a statement or an
expression of a body in which it finds nothing (`Scope.unreported_of_checkBody`), and the parts of an
accepted body are accepted (`Scope.AcceptsAll.keeps`). So a rule that a form of expression has to keep to
holds wherever the form stands.
-/

namespace SingleClass

namespace Scope

variable {s : Scope}

def Unreported (s : Scope) : Node → Prop
  | .expr e => (s.check e).found = []
  | .stmt t => (s.checkStmt t).found = []
  | _ => True

theorem found_checkValue_of_checkValues {es : List Expr} (h : (s.checkValues es).found = []) :
    ∀ e ∈ es, (s.checkValue e).found = [] := by
  induction es with
  | nil => simp
  | cons e es ih =>
    obtain ⟨he, hes⟩ := found_checkValues_cons.1 h
    exact List.forall_mem_cons.2 ⟨he, ih hes⟩

theorem found_of_checkValues {es : List Expr} (h : (s.checkValues es).found = []) :
    ∀ e ∈ es, (s.check e).found = [] :=
  fun e he => (Checked.asValue_eq (found_checkValue_of_checkValues h e he)).1

theorem found_of_check_call {t : Option Expr} {m : String} {as : List Expr} {p : Span}
    (h : (s.check (.call t m as p)).found = []) :
    (∀ e ∈ t, s.staticReceiver? e = none → ((s.check e).asValue e).found = []) ∧
      (s.checkValues as).found = [] := by
  cases t with
  | none =>
    simp only [check] at h
    cases hs : s.method.isStatic with
    | true => simp [hs, Checked.report] at h
    | false =>
      simp only [hs, Bool.false_eq_true, if_false, Checked.found_bind, List.append_eq_nil_iff] at h
      exact ⟨by simp, h.1⟩
  | some t =>
    simp only [check] at h
    cases hi : s.staticReceiver? t with
    | some i =>
      simp only [hi, Option.isSome_some, if_true, Checked.found_bind, Checked.found_pure,
        List.append_nil] at h
      refine ⟨?_, h⟩
      intro e he hnone
      cases he
      simp [hi] at hnone
    | none =>
      simp only [hi, Option.isSome_none, Bool.false_eq_true, if_false, Checked.found_bind,
        List.append_eq_nil_iff] at h
      refine ⟨?_, h.2.1⟩
      intro e he _
      cases he
      exact h.1

theorem unreported_of_staticReceiver? {e : Expr} {i : Import} (h : s.staticReceiver? e = some i) :
    ∀ n ∈ e.nodes, s.Unreported n := by
  fun_induction staticReceiver? s e with
  | case1 n p hn =>
    have hb := Option.isNone_iff_eq_none.1 hn
    have hi : s.symbols.isImported n = true := by simp [Symbols.isImported, h]
    simp [Expr.nodes, Unreported, check, checkName, nameTy, hb, hi, Checked.ofRule]
  | case2 => simp at h
  | case3 e ih =>
    simp only [Expr.nodes, List.forall_mem_cons]
    exact ⟨ih h (.expr e) (Expr.mem_nodes_self e), ih h⟩
  | case4 => simp at h

mutual

theorem unreported_of_check : ∀ {e : Expr}, (s.check e).found = [] → ∀ n ∈ e.nodes, s.Unreported n
  | .literal .., h | .name .., h | .this _, h | .newObject .., h => by
    simp only [Expr.nodes, List.forall_mem_singleton]
    exact h
  | .binary op l r p, h | .index l r p, h => by
    have hparts := h
    simp only [check, Checked.found_bind, List.append_eq_nil_iff] at hparts
    simp only [Expr.nodes, List.cons_append, List.forall_mem_cons, List.forall_mem_append]
    exact ⟨h, unreported_of_check (Checked.asValue_eq hparts.1).1,
      unreported_of_check (Checked.asValue_eq hparts.2.1).1⟩
  | .unary _ e p, h | .length e p, h | .newArray _ e p, h => by
    have hparts := h
    simp only [check, Checked.found_bind, List.append_eq_nil_iff] at hparts
    simp only [Expr.nodes, List.forall_mem_cons]
    exact ⟨h, unreported_of_check (Checked.asValue_eq hparts.1).1⟩
  | .paren e, h => by
    simp only [Expr.nodes, List.forall_mem_cons]
    exact ⟨h, unreported_of_check (e := e) h⟩
  | .call none m as p, h => by
    simp only [Expr.nodes, List.forall_mem_cons]
    exact ⟨h, unreported_of_checkValues (found_of_check_call h).2⟩
  | .call (some t) m as p, h => by
    obtain ⟨ht, has⟩ := found_of_check_call h
    simp only [Expr.nodes, List.cons_append, List.forall_mem_cons, List.forall_mem_append]
    refine ⟨h, ?_, unreported_of_checkValues has⟩
    cases hi : s.staticReceiver? t with
    | some i => exact unreported_of_staticReceiver? hi
    | none => exact unreported_of_check (Checked.asValue_eq (ht t rfl hi)).1
  | .arrayInit es p, h => by
    have hparts := h
    simp only [check, Checked.found_bind, List.append_eq_nil_iff] at hparts
    simp only [Expr.nodes, List.forall_mem_cons]
    exact ⟨h, unreported_of_checkValues hparts.1⟩

theorem unreported_of_checkValues : ∀ {es : List Expr}, (s.checkValues es).found = [] →
    ∀ n ∈ Expr.nodesOf es, s.Unreported n
  | [], _ => by simp [Expr.nodesOf]
  | e :: es, h => by
    obtain ⟨he, hes⟩ := found_checkValues_cons.1 h
    simp only [Expr.nodesOf, List.forall_mem_append]
    exact ⟨unreported_of_check (Checked.asValue_eq he).1, unreported_of_checkValues hes⟩

end

theorem found_checkValue_of_checkCondition {e : Expr} (h : (s.checkCondition e).found = []) :
    (s.checkValue e).found = [] := by
  simp only [checkCondition, Checked.found_bind, List.append_eq_nil_iff] at h
  exact h.1

theorem unreported_of_checkCondition {e : Expr} (h : (s.checkCondition e).found = []) :
    ∀ n ∈ e.nodes, s.Unreported n :=
  unreported_of_check (Checked.asValue_eq (found_checkValue_of_checkCondition h)).1

theorem unreported_of_checkTarget {e : Expr} (h : (s.checkTarget e).found = []) :
    ∀ n ∈ e.nodes, s.Unreported n := by
  cases e with
  | name n p =>
    simp only [Expr.nodes, List.forall_mem_singleton, Unreported, check]
    cases hb : s.lookup n with
    | none =>
      simp only [checkTarget, hb] at h
      split at h <;> simp [Checked.report] at h
    | some b =>
      cases b with
      | localVar v | param v => simp [checkName, nameTy, hb, Checked.ofRule]
      | field f =>
        cases hs : s.method.isStatic with
        | true => simp [checkTarget, hb, Binding.isField, hs, Checked.report] at h
        | false => simp [checkName, nameTy, hb, hs, Checked.ofRule]
  | index a i p => exact unreported_of_check (Checked.asValue_eq h).1
  | _ => simp [checkTarget, Checked.report] at h

theorem found_checkValue_of_checkReturn {e : Expr} {p : Span}
    (h : (s.checkReturn (some e) p).found = []) : (s.checkValue e).found = [] := by
  cases hvoid : s.method.returnTy.isVoid with
  | true => simp [checkReturn, hvoid, Checked.report] at h
  | false =>
    simp only [checkReturn, hvoid, Bool.false_eq_true, if_false, Checked.found_bind,
      List.append_eq_nil_iff] at h
    exact h.1

theorem unreported_of_checkReturn {e : Expr} {p : Span}
    (h : (s.checkReturn (some e) p).found = []) : ∀ n ∈ e.nodes, s.Unreported n :=
  unreported_of_check (Checked.asValue_eq (found_checkValue_of_checkReturn h)).1

mutual

theorem unreported_of_checkStmt : ∀ {t : Stmt}, (s.checkStmt t).found = [] →
    ∀ n ∈ t.nodes, s.Unreported n
  | .block b p, h => by
    have hbody : (s.checkBody b).found = [] := h
    simp only [Stmt.nodes, List.forall_mem_cons]
    exact ⟨h, unreported_of_checkBody hbody⟩
  | .cond c t none p, h | .loop c t p, h => by
    have hparts := h
    simp only [checkStmt, Checked.found_bind, List.append_eq_nil_iff] at hparts
    simp only [Stmt.nodes, List.cons_append, List.forall_mem_cons, List.forall_mem_append]
    exact ⟨h, unreported_of_checkCondition hparts.1, unreported_of_checkStmt hparts.2⟩
  | .cond c t (some e) p, h => by
    have hparts := h
    simp only [checkStmt, Checked.found_bind, List.append_eq_nil_iff] at hparts
    simp only [Stmt.nodes, List.cons_append, List.forall_mem_cons, List.forall_mem_append]
    exact ⟨h, ⟨unreported_of_checkCondition hparts.1, unreported_of_checkStmt hparts.2.1⟩,
      unreported_of_checkStmt hparts.2.2⟩
  | .expr e p, h => by
    have hparts := h
    simp only [checkStmt, Checked.found_bind, Checked.found_pure, List.append_nil] at hparts
    simp only [Stmt.nodes, List.forall_mem_cons]
    exact ⟨h, unreported_of_check hparts⟩
  | .assign target value p, h => by
    have hparts := h
    simp only [checkStmt, Checked.found_bind, List.append_eq_nil_iff] at hparts
    simp only [Stmt.nodes, List.cons_append, List.forall_mem_cons, List.forall_mem_append]
    exact ⟨h, unreported_of_checkTarget hparts.1,
      unreported_of_check (Checked.asValue_eq hparts.2.1).1⟩
  | .ret none p, h => by
    simp only [Stmt.nodes, List.forall_mem_singleton]
    exact h
  | .ret (some e) p, h => by
    simp only [Stmt.nodes, List.forall_mem_cons]
    exact ⟨h, unreported_of_checkReturn h⟩

theorem unreported_of_checkBody : ∀ {ts : List Stmt}, (s.checkBody ts).found = [] →
    ∀ n ∈ Stmt.nodesOf ts, s.Unreported n
  | [], _ => by simp [Stmt.nodesOf]
  | t :: ts, h => by
    simp only [checkBody, Checked.found_bind, List.append_eq_nil_iff] at h
    simp only [Stmt.nodesOf, List.forall_mem_append]
    exact ⟨unreported_of_checkStmt h.1, unreported_of_checkBody h.2⟩

end

def Keeps (s : Scope) : Node → Prop
  | .expr e => ∃ t, s.HasType e t
  | .stmt t => s.Accepts t
  | _ => True

mutual

theorem HasType.keeps {e : Expr} {t : Ty} (h : s.HasType e t) : ∀ n ∈ e.nodes, s.Keeps n := by
  match e, t, h with
  | _, _, h@.literal | _, _, h@(.name ..) | _, _, h@(.this _) | _, _, h@.newObject =>
    exact List.forall_mem_singleton.2 ⟨_, h⟩
  | _, _, h@(.binary _ hl hr) | _, _, h@(.index hl hr _ _) =>
    simp only [Expr.nodes, List.cons_append, List.forall_mem_cons, List.forall_mem_append]
    exact ⟨⟨_, h⟩, hl.keeps, hr.keeps⟩
  | _, _, h@(.unary he) | _, _, h@(.paren he) | _, _, h@(.length he _ _)
  | _, _, h@(.newArray he _) =>
    simp only [Expr.nodes, List.forall_mem_cons]
    exact ⟨⟨_, h⟩, he.keeps⟩
  | _, _, h@(.call (.implicit _) _ has _) | _, _, h@(.arrayInit has _ _ _) =>
    simp only [Expr.nodes, List.forall_mem_cons]
    exact ⟨⟨_, h⟩, has.keeps⟩
  | _, _, h@(.call (.explicit ht) _ has _) =>
    simp only [Expr.nodes, List.cons_append, List.forall_mem_cons, List.forall_mem_append]
    exact ⟨⟨_, h⟩, ht.keeps, has.keeps⟩

theorem HaveTypes.keeps {es : List Expr} {ts : List Ty} (h : s.HaveTypes es ts) :
    ∀ n ∈ Expr.nodesOf es, s.Keeps n := by
  match h with
  | .nil => simp [Expr.nodesOf]
  | .cons he _ hes =>
    rw [Expr.nodesOf, List.forall_mem_append]
    exact ⟨he.keeps, hes.keeps⟩

end

mutual

theorem Accepts.keeps : ∀ {t : Stmt}, s.Accepts t → ∀ n ∈ t.nodes, s.Keeps n
  | .block b p, h => by
    have hb : s.AcceptsAll b := by simpa only [Accepts] using h
    simp only [Stmt.nodes, List.forall_mem_cons]
    exact ⟨h, AcceptsAll.keeps hb⟩
  | .cond c t none p, h | .loop c t p, h => by
    have hparts : s.HasType c .boolean ∧ s.Accepts t := by simpa only [Accepts] using h
    simp only [Stmt.nodes, List.cons_append, List.forall_mem_cons, List.forall_mem_append]
    exact ⟨h, hparts.1.keeps, Accepts.keeps hparts.2⟩
  | .cond c t (some e) p, h => by
    have hparts : s.HasType c .boolean ∧ s.Accepts t ∧ s.Accepts e := by simpa only [Accepts] using h
    simp only [Stmt.nodes, List.cons_append, List.forall_mem_cons, List.forall_mem_append]
    exact ⟨h, ⟨hparts.1.keeps, Accepts.keeps hparts.2.1⟩, Accepts.keeps hparts.2.2⟩
  | .expr e p, h => by
    obtain ⟨_, he⟩ : ∃ t, s.HasType e t := by simpa only [Accepts] using h
    simp only [Stmt.nodes, List.forall_mem_cons]
    exact ⟨h, he.keeps⟩
  | .assign target value p, h => by
    obtain ⟨_, _, _, ht, hv⟩ : IsPlace target ∧
        ∃ t, t.isVoid = false ∧ s.HasType target t ∧ s.HasType value t := by
      simpa only [Accepts] using h
    simp only [Stmt.nodes, List.cons_append, List.forall_mem_cons, List.forall_mem_append]
    exact ⟨h, ht.keeps, hv.keeps⟩
  | .ret none p, h => List.forall_mem_singleton.2 h
  | .ret (some e) p, h => by
    have hparts : s.method.returnTy.isVoid = false ∧ s.HasType e s.method.returnTy.asValue := by
      simpa only [Accepts] using h
    simp only [Stmt.nodes, List.forall_mem_cons]
    exact ⟨h, hparts.2.keeps⟩

/-- The parts of an accepted body are accepted. -/
theorem AcceptsAll.keeps : ∀ {ts : List Stmt}, s.AcceptsAll ts → ∀ n ∈ Stmt.nodesOf ts, s.Keeps n
  | [], _ => by simp [Stmt.nodesOf]
  | t :: ts, h => by
    simp only [AcceptsAll] at h
    rw [Stmt.nodesOf, List.forall_mem_append]
    exact ⟨Accepts.keeps h.1, AcceptsAll.keeps h.2⟩

end

end Scope

end SingleClass
