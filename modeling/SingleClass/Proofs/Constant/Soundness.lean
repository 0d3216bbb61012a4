import Mathlib.Data.List.Forall2
import SingleClass.Proofs.Behaviour.Interpretation
import SingleClass.Proofs.Constant.Reduction
set_option autoImplicit false

/-!
Constant optimisation keeps the runs of every body. The invariant of propagation is that the facts at
a point hold of the variables whenever control is there; a loop keeps the facts about what its body
does not assign. That a reduced expression acts as before is asked of the evaluator
(`Evaluator.Steady`), and every interpretation has it.
-/

namespace SingleClass

namespace Behaviour

variable {V M A : Type}

theorem exists_of_andThen {x : (String → V) → Action M A} {k : A → Behaviour V M} {s s' : State V M}
    (h : andThen x k s (.normal s')) :
    ∃ a m, x s.vars s.memory = .returns a m ∧ k a { s with memory := m } (.normal s') := by
  unfold andThen at h
  split at h
  next a m hx => exact ⟨a, m, hx, h⟩
  next => cases h
  next => exact h.elim

theorem Loop.preserves {test : (String → V) → Action M Bool} {body : Behaviour V M}
    (P : (String → V) → Prop) (hbody : ∀ vars m s', P vars → body ⟨vars, m⟩ (.normal s') → P s'.vars)
    {s s' : State V M} (h : Loop test body s (.normal s')) (hs : P s.vars) : P s'.vars := by
  generalize ho : Outcome.normal s' = o at h
  induction h with
  | stop => cases ho; exact hs
  | fail => cases ho
  | leave _ _ hn => subst ho; cases hn
  | again _ hb _ ih => exact ih (hbody _ _ _ hs hb) ho

theorem Loop.imp {test test' : (String → V) → Action M Bool} {body body' : Behaviour V M}
    (P : (String → V) → Prop) (htest : ∀ vars, P vars → test vars = test' vars)
    (hbody : ∀ vars m o, P vars → body ⟨vars, m⟩ o → body' ⟨vars, m⟩ o)
    (hkeep : ∀ vars m s', P vars → body ⟨vars, m⟩ (.normal s') → P s'.vars)
    {s : State V M} {o : Outcome V M} (hs : P s.vars) (h : Loop test body s o) :
    Loop test' body' s o := by
  induction h with
  | stop h => exact .stop (htest _ hs ▸ h)
  | fail h => exact .fail (htest _ hs ▸ h)
  | leave h hb hn => exact .leave (htest _ hs ▸ h) (hbody _ _ _ hs hb) hn
  | again h hb _ ih =>
    exact .again (htest _ hs ▸ h) (hbody _ _ _ hs hb) (ih (hkeep _ _ _ hs hb))

theorem Loop.congr {test test' : (String → V) → Action M Bool} {body body' : Behaviour V M}
    (P : (String → V) → Prop) (htest : ∀ vars, P vars → test vars = test' vars)
    (hbody : ∀ vars m o, P vars → (body ⟨vars, m⟩ o ↔ body' ⟨vars, m⟩ o))
    (hkeep : ∀ vars m s', P vars → body ⟨vars, m⟩ (.normal s') → P s'.vars)
    {s : State V M} {o : Outcome V M} (hs : P s.vars) :
    Loop test body s o ↔ Loop test' body' s o := by
  constructor
  · exact Loop.imp P htest (fun vars m o hv => (hbody vars m o hv).mp) hkeep hs
  · refine Loop.imp P (fun vars hv => (htest vars hv).symm)
      (fun vars m o hv => (hbody vars m o hv).mpr) ?_ hs
    intro vars m s' hv hb
    exact hkeep vars m s' hv ((hbody vars m _ hv).mpr hb)

theorem andThen_congr {x x' : (String → V) → Action M A} {k k' : A → Behaviour V M}
    {s : State V M} {o : Outcome V M} (hx : x s.vars = x' s.vars)
    (hk : ∀ a m, k a ⟨s.vars, m⟩ o ↔ k' a ⟨s.vars, m⟩ o) :
    andThen x k s o ↔ andThen x' k' s o := by
  simp only [andThen, hx]
  cases x' s.vars s.memory with
  | returns a m => exact hk a m
  | fails | diverges => exact Iff.rfl

theorem seq_congr {first first' second second' : Behaviour V M} {s : State V M} {o : Outcome V M}
    (hf : ∀ o, first s o ↔ first' s o)
    (hs : ∀ s', first s (.normal s') → (second s' o ↔ second' s' o)) :
    seq first second s o ↔ seq first' second' s o := by
  unfold seq
  refine or_congr (exists_congr fun s' => ?_) (and_congr_left' (hf o))
  rw [← hf]
  exact and_congr_right (hs s')

end Behaviour

section Stores

variable {V M : Type} (E : Evaluator V M)

theorem Evaluator.vars_of_assign {target value : Expr} {p : Span} {s s' : State V M} {n : String}
    (h : E.assign target value s (.normal s')) (hn : n ∉ (Stmt.assign target value p).stores) :
    s'.vars n = s.vars n := by
  unfold Evaluator.assign at h
  split at h
  next x q =>
    obtain ⟨v, m, -, hk⟩ := Behaviour.exists_of_andThen h
    have hx : n ≠ x := by simpa [Stmt.stores] using hn
    split at hk
    · cases hk
      simp [State.set, hx]
    · obtain ⟨_, _, -, hd⟩ := Behaviour.exists_of_andThen hk
      cases hd
      rfl
  next =>
    obtain ⟨_, _, -, hd⟩ := Behaviour.exists_of_andThen h
    cases hd
    rfl
  next => cases h

mutual

theorem Stmt.vars_of_runs (t : Stmt) {s s' : State V M} {n : String} (hn : n ∉ t.stores)
    (h : t.runs E s (.normal s')) : s'.vars n = s.vars n := by
  cases t with
  | block b p => exact Stmt.vars_of_runsAll b hn h
  | cond c t e p =>
    cases e with
    | none =>
      obtain ⟨b, m, -, hk⟩ := Behaviour.exists_of_andThen h
      cases b with
      | true => exact (Stmt.vars_of_runs t hn hk).trans rfl
      | false => cases hk; rfl
    | some e =>
      obtain ⟨b, m, -, hk⟩ := Behaviour.exists_of_andThen h
      simp only [Stmt.stores, List.mem_append, not_or] at hn
      cases b with
      | true => exact (Stmt.vars_of_runs t hn.1 hk).trans rfl
      | false => exact (Stmt.vars_of_runs e hn.2 hk).trans rfl
  | loop c b p =>
    refine Behaviour.Loop.preserves (fun vars => vars n = s.vars n) ?_ h rfl
    intro vars m s₁ h₁ h₂
    exact (Stmt.vars_of_runs b hn h₂).trans h₁
  | expr e p =>
    obtain ⟨_, _, -, hd⟩ := Behaviour.exists_of_andThen h
    cases hd
    rfl
  | assign target value p => exact E.vars_of_assign h hn
  | ret v p =>
    cases v with
    | none => cases h
    | some v =>
      obtain ⟨_, _, -, hd⟩ := Behaviour.exists_of_andThen h
      cases hd

theorem Stmt.vars_of_runsAll (ts : List Stmt) {s s' : State V M} {n : String}
    (hn : n ∉ Stmt.storesOf ts) (h : Stmt.runsAll E ts s (.normal s')) :
    s'.vars n = s.vars n := by
  cases ts with
  | nil => cases h; rfl
  | cons t ts =>
    simp only [Stmt.storesOf, List.mem_append, not_or] at hn
    obtain ⟨s₁, h₁, h₂⟩ | ⟨-, h⟩ := h
    · exact (Stmt.vars_of_runsAll ts hn.2 h₂).trans (Stmt.vars_of_runs t hn.1 h₁)
    · cases h

end

end Stores

/-- What is known is about locals and is so: each has its literal as its value. -/
def Facts.Holds {V : Type} (ofLiteral : Literal → V) (locals : List String) (f : Facts)
    (vars : String → V) : Prop :=
  ∀ n v, f.get? n = some v → n ∈ locals ∧ vars n = ofLiteral v

namespace Facts

variable {V : Type} {ofLiteral : Literal → V} {locals : List String} {f g : Facts}
  {vars vars' : String → V}

theorem holds_empty : ({} : Facts).Holds ofLiteral locals vars := by
  intro n v h
  simp at h

theorem Holds.forget (h : f.Holds ofLiteral locals vars) (ns : List String) :
    (f.forget ns).Holds ofLiteral locals vars :=
  fun n v hn => h n v (get?_of_forget hn)

theorem Holds.of_eq (h : f.Holds ofLiteral locals vars)
    (hv : ∀ n v, f.get? n = some v → vars' n = vars n) : f.Holds ofLiteral locals vars' := by
  intro n v hn
  obtain ⟨hl, he⟩ := h n v hn
  exact ⟨hl, (hv n v hn).trans he⟩

theorem Holds.meet_left (h : f.Holds ofLiteral locals vars) (g : Facts) :
    (f.meet g).Holds ofLiteral locals vars :=
  fun n v hn => h n v (get?_of_meet hn)

theorem Holds.meet_right (h : g.Holds ofLiteral locals vars) (f : Facts) :
    (f.meet g).Holds ofLiteral locals vars := by
  intro n v hn
  rw [get?_meet] at hn
  split at hn
  next he => exact h n v (he ▸ hn)
  next => cases hn

theorem Holds.erase (h : f.Holds ofLiteral locals vars) (x : String) (a : V) :
    (f.erase x).Holds ofLiteral locals (fun n => if n = x then a else vars n) := by
  intro n v hn
  rw [get?_erase] at hn
  split at hn
  · cases hn
  next hx => simpa [hx] using h n v hn

theorem Holds.insert (h : f.Holds ofLiteral locals vars) {x : String} (hx : x ∈ locals)
    (l : Literal) :
    (f.insert x l).Holds ofLiteral locals (fun n => if n = x then ofLiteral l else vars n) := by
  intro n v hn
  rw [get?_insert] at hn
  split at hn
  next he => cases hn; simp [he, hx]
  next he => simpa [he] using h n v hn

theorem not_mem_stores_of_forget {t : Stmt} {n : String} {v : Literal}
    (h : (f.forget t.assigned).get? n = some v) : n ∉ t.stores := by
  rw [get?_forget] at h
  split at h
  · cases h
  next hn => simpa [Stmt.assigned, List.mem_eraseDups] using hn

end Facts

/-- Under facts that hold, an expression does what its reductions do. Asked are only expressions that
have `N` and facts that have `T`, which statements with `N` keep. -/
structure Evaluator.Steady {V M : Type} (E : Evaluator V M) (ofLiteral : Literal → V)
    (locals : List String) (N : Node → Prop) (T : Facts → Prop) : Prop where
  isVariable : ∀ n ∈ locals, E.isVariable n = true
  literal : ∀ vars v p, E.eval vars (.literal v p) = pure (ofLiteral v)
  eval : ∀ {f : Facts} {vars : String → V} {e e' : Expr}, T f → f.Holds ofLiteral locals vars →
    N (.expr e) → e.Reduces f e' → E.eval vars e' = E.eval vars e
  effect : ∀ {f : Facts} {vars : String → V} {e e' : Expr}, T f → f.Holds ofLiteral locals vars →
    N (.expr e) → e.Reduces f e' → E.effect vars e' = E.effect vars e
  empty : T {}
  forget : ∀ {f : Facts} (ns : List String), T f → T (f.forget ns)
  after : ∀ {f : Facts} {t : Stmt}, T f → N (.stmt t) → T (t.after locals f)

namespace Evaluator.Steady

variable {V M : Type} {E : Evaluator V M} {ofLiteral : Literal → V} {locals : List String}
  {N : Node → Prop} {T : Facts → Prop} {f : Facts}

theorem eval_fold (hE : E.Steady ofLiteral locals N T) {e : Expr} (he : ∀ n ∈ e.nodes, N n)
    (vars : String → V) : E.eval vars e.fold = E.eval vars e :=
  hE.eval hE.empty Facts.holds_empty (he _ e.mem_nodes_self) e.reduces_fold

theorem eval_substitute (hE : E.Steady ofLiteral locals N T) (hf : T f) {vars : String → V}
    (h : f.Holds ofLiteral locals vars) {e : Expr} (he : ∀ n ∈ e.nodes, N n) :
    E.eval vars (e.substitute f) = E.eval vars e :=
  hE.eval hf h (he _ e.mem_nodes_self) (e.reduces_substitute f)

theorem test_fold (hE : E.Steady ofLiteral locals N T) {c : Expr} (hc : ∀ n ∈ c.nodes, N n) :
    E.test c.fold = E.test c := by
  funext vars
  simp only [Evaluator.test, hE.eval_fold hc]

theorem test_substitute (hE : E.Steady ofLiteral locals N T) (hf : T f) {vars : String → V}
    (h : f.Holds ofLiteral locals vars) {c : Expr} (hc : ∀ n ∈ c.nodes, N n) :
    E.test (c.substitute f) vars = E.test c vars := by
  simp only [Evaluator.test, hE.eval_substitute hf h hc]

theorem assign_fold (hE : E.Steady ofLiteral locals N T) {target value : Expr}
    (ht : ∀ n ∈ target.nodes, N n) (hv : ∀ n ∈ value.nodes, N n) :
    E.assign target.fold value.fold = E.assign target value := by
  cases target with
  | name n p => simp only [Expr.fold, Evaluator.assign, hE.eval_fold hv]
  | index a i p =>
    simp only [Expr.nodes, List.cons_append, List.forall_mem_cons, List.forall_mem_append] at ht
    simp only [Expr.fold, Evaluator.assign, hE.eval_fold ht.2.1, hE.eval_fold ht.2.2,
      hE.eval_fold hv]
  | binary op l r p =>
    simp only [Expr.fold, Expr.foldBinary]
    split <;> rfl
  | paren e =>
    simp only [Expr.fold, Expr.foldParen]
    split
    · cases h : e.fold <;> simp_all [Expr.isLiteral, Evaluator.assign]
    · rfl
  | call t m as p => cases t <;> rfl
  | literal | this | unary | length | newObject | newArray | arrayInit => rfl

mutual

theorem runs_fold (hE : E.Steady ofLiteral locals N T) (t : Stmt) (hN : ∀ n ∈ t.nodes, N n) :
    t.fold.runs E = t.runs E := by
  cases t with
  | block b p =>
    simp only [Stmt.nodes, List.forall_mem_cons] at hN
    exact hE.runsAll_foldAll b hN.2
  | cond c t e p =>
    cases e with
    | none =>
      simp only [Stmt.nodes, List.cons_append, List.forall_mem_cons, List.forall_mem_append] at hN
      simp only [Stmt.fold, Stmt.runs, hE.test_fold hN.2.1, hE.runs_fold t hN.2.2]
    | some e =>
      simp only [Stmt.nodes, List.cons_append, List.forall_mem_cons, List.forall_mem_append] at hN
      simp only [Stmt.fold, Stmt.runs, hE.test_fold hN.2.1.1, hE.runs_fold t hN.2.1.2,
        hE.runs_fold e hN.2.2]
  | loop c b p =>
    simp only [Stmt.nodes, List.cons_append, List.forall_mem_cons, List.forall_mem_append] at hN
    simp only [Stmt.fold, Stmt.runs, hE.test_fold hN.2.1, hE.runs_fold b hN.2.2]
  | expr e p =>
    simp only [Stmt.nodes, List.forall_mem_cons] at hN
    have heffect : ∀ vars, E.effect vars e.fold = E.effect vars e := fun vars =>
      hE.effect hE.empty Facts.holds_empty (hN.2 _ e.mem_nodes_self) e.reduces_fold
    simp only [Stmt.fold, Stmt.runs, heffect]
  | assign target value p =>
    simp only [Stmt.nodes, List.cons_append, List.forall_mem_cons, List.forall_mem_append] at hN
    exact hE.assign_fold hN.2.1 hN.2.2
  | ret v p =>
    cases v with
    | none => rfl
    | some v =>
      simp only [Stmt.nodes, List.forall_mem_cons] at hN
      simp only [Stmt.fold, Stmt.runs, hE.eval_fold hN.2]

theorem runsAll_foldAll (hE : E.Steady ofLiteral locals N T) (ts : List Stmt)
    (hN : ∀ n ∈ Stmt.nodesOf ts, N n) : Stmt.runsAll E (Stmt.foldAll ts) = Stmt.runsAll E ts := by
  cases ts with
  | nil => rfl
  | cons t ts =>
    simp only [Stmt.nodesOf, List.forall_mem_append] at hN
    simp only [Stmt.foldAll, Stmt.runsAll, hE.runs_fold t hN.1, hE.runsAll_foldAll ts hN.2]

end

theorem holds_store (hE : E.Steady ofLiteral locals N T) (hf : T f) {vars : String → V}
    (h : f.Holds ofLiteral locals vars) {x : String} (hx : x ∈ locals) {e : Expr}
    (he : ∀ n ∈ e.nodes, N n) {m m' : M} {a : V} (heval : E.eval vars e m = .returns a m') :
    (f.store x (e.substitute f)).Holds ofLiteral locals (fun n => if n = x then a else vars n) := by
  rw [← hE.eval_substitute hf h he] at heval
  unfold Facts.store
  split
  next l p hs =>
    rw [hs, hE.literal] at heval
    cases heval
    exact h.insert hx l
  next => exact h.erase x a

theorem holds_after_assign (hE : E.Steady ofLiteral locals N T) (hf : T f) {target value : Expr}
    {p : Span} (hv : ∀ n ∈ value.nodes, N n) {s s' : State V M}
    (h : f.Holds ofLiteral locals s.vars) (hr : E.assign target value s (.normal s')) :
    ((Stmt.assign target value p).after locals f).Holds ofLiteral locals s'.vars := by
  cases target with
  | name x q =>
    simp only [Stmt.after]
    split
    next hx =>
      simp only [Evaluator.assign] at hr
      obtain ⟨a, m, he, hk⟩ := Behaviour.exists_of_andThen hr
      simp only [hE.isVariable x hx, if_true] at hk
      cases hk
      exact hE.holds_store hf h hx hv he
    next hx =>
      refine h.of_eq fun n v hn => ?_
      have hnx : n ∉ (Stmt.assign (.name x q) value p).stores := by
        simp only [Stmt.stores, List.mem_singleton]
        rintro rfl
        exact hx (h n v hn).1
      exact E.vars_of_assign hr hnx
  | _ =>
    refine h.of_eq fun n v _ => ?_
    exact E.vars_of_assign (p := p) hr (by simp [Stmt.stores])

mutual

/-- Where a statement ends, the facts behind it hold. -/
theorem holds_after (hE : E.Steady ofLiteral locals N T) (t : Stmt) (hN : ∀ n ∈ t.nodes, N n)
    {f : Facts} (hf : T f) {s s' : State V M} (h : f.Holds ofLiteral locals s.vars)
    (hr : t.runs E s (.normal s')) : (t.after locals f).Holds ofLiteral locals s'.vars := by
  cases t with
  | block b p =>
    simp only [Stmt.nodes, List.forall_mem_cons] at hN
    exact hE.holds_afterAll b hN.2 hf h hr
  | cond c t e p =>
    cases e with
    | none =>
      simp only [Stmt.nodes, List.cons_append, List.forall_mem_cons, List.forall_mem_append] at hN
      obtain ⟨b, m, -, hk⟩ := Behaviour.exists_of_andThen hr
      cases b with
      | true => exact (hE.holds_after t hN.2.2 hf (s := ⟨s.vars, m⟩) h hk).meet_right f
      | false => cases hk; exact h.meet_left _
    | some e =>
      simp only [Stmt.nodes, List.cons_append, List.forall_mem_cons, List.forall_mem_append] at hN
      obtain ⟨b, m, -, hk⟩ := Behaviour.exists_of_andThen hr
      cases b with
      | true => exact (hE.holds_after t hN.2.1.2 hf (s := ⟨s.vars, m⟩) h hk).meet_right _
      | false => exact (hE.holds_after e hN.2.2 hf (s := ⟨s.vars, m⟩) h hk).meet_left _
  | loop c b p =>
    refine (h.forget b.assigned).of_eq fun n v hn => ?_
    exact Stmt.vars_of_runs _ (.loop c b p) (Facts.not_mem_stores_of_forget hn) hr
  | expr e p =>
    obtain ⟨_, _, -, hd⟩ := Behaviour.exists_of_andThen hr
    cases hd
    exact h
  | assign target value p =>
    simp only [Stmt.nodes, List.cons_append, List.forall_mem_cons, List.forall_mem_append] at hN
    exact hE.holds_after_assign hf hN.2.2 h hr
  | ret v p =>
    cases v with
    | none => cases hr
    | some v =>
      obtain ⟨_, _, -, hd⟩ := Behaviour.exists_of_andThen hr
      cases hd

theorem holds_afterAll (hE : E.Steady ofLiteral locals N T) (ts : List Stmt)
    (hN : ∀ n ∈ Stmt.nodesOf ts, N n) {f : Facts} (hf : T f) {s s' : State V M}
    (h : f.Holds ofLiteral locals s.vars) (hr : Stmt.runsAll E ts s (.normal s')) :
    (Stmt.afterAll locals f ts).Holds ofLiteral locals s'.vars := by
  cases ts with
  | nil => cases hr; exact h
  | cons t ts =>
    simp only [Stmt.nodesOf, List.forall_mem_append] at hN
    obtain ⟨s₁, h₁, h₂⟩ | ⟨-, hn⟩ := hr
    · exact hE.holds_afterAll ts hN.2 (hE.after hf (hN.1 _ t.mem_nodes_self))
        (hE.holds_after t hN.1 hf h h₁) h₂
    · cases hn

end

theorem assign_substitute (hE : E.Steady ofLiteral locals N T) (hf : T f) {target value : Expr}
    {p : Span} (ht : ∀ n ∈ target.nodes, N n) (hv : ∀ n ∈ value.nodes, N n) {s : State V M}
    {o : Outcome V M} (h : f.Holds ofLiteral locals s.vars) :
    ((Stmt.assign target value p).propagate locals f).runs E s o ↔
      (Stmt.assign target value p).runs E s o := by
  have heq : ∀ e : Expr, (∀ n ∈ e.nodes, N n) → E.eval s.vars (e.substitute f) = E.eval s.vars e :=
    fun e => hE.eval_substitute hf h
  cases target with
  | name n q =>
    simp only [Stmt.propagate, Stmt.runs, Evaluator.assign]
    exact Behaviour.andThen_congr (heq value hv) fun _ _ => Iff.rfl
  | index a i q =>
    simp only [Expr.nodes, List.cons_append, List.forall_mem_cons, List.forall_mem_append] at ht
    simp only [Stmt.propagate, Stmt.runs, Evaluator.assign, Expr.substitute]
    refine Behaviour.andThen_congr ?_ fun _ _ => Iff.rfl
    simp only [heq a ht.2.1, heq i ht.2.2, heq value hv]
  | call t m as q => cases t <;> exact Iff.rfl
  | literal | this | binary | unary | paren | length | newObject | newArray | arrayInit =>
    exact Iff.rfl

mutual

/-- Under facts that hold, a statement and its propagated form have the same outcomes. -/
theorem runs_propagate (hE : E.Steady ofLiteral locals N T) (t : Stmt) (hN : ∀ n ∈ t.nodes, N n)
    {f : Facts} (hf : T f) {s : State V M} (h : f.Holds ofLiteral locals s.vars)
    (o : Outcome V M) : (t.propagate locals f).runs E s o ↔ t.runs E s o := by
  cases t with
  | block b p =>
    simp only [Stmt.nodes, List.forall_mem_cons] at hN
    exact hE.runsAll_propagateAll b hN.2 hf h o
  | cond c t e p =>
    cases e with
    | none =>
      simp only [Stmt.nodes, List.cons_append, List.forall_mem_cons, List.forall_mem_append] at hN
      refine Behaviour.andThen_congr (hE.test_substitute hf h hN.2.1) fun b m => ?_
      cases b with
      | true => exact hE.runs_propagate t hN.2.2 hf (s := ⟨s.vars, m⟩) h o
      | false => exact Iff.rfl
    | some e =>
      simp only [Stmt.nodes, List.cons_append, List.forall_mem_cons, List.forall_mem_append] at hN
      refine Behaviour.andThen_congr (hE.test_substitute hf h hN.2.1.1) fun b m => ?_
      cases b with
      | true => exact hE.runs_propagate t hN.2.1.2 hf (s := ⟨s.vars, m⟩) h o
      | false => exact hE.runs_propagate e hN.2.2 hf (s := ⟨s.vars, m⟩) h o
  | loop c b p =>
    simp only [Stmt.nodes, List.cons_append, List.forall_mem_cons, List.forall_mem_append] at hN
    have hf := hE.forget b.assigned hf
    -- The body keeps the facts about what it does not assign, so they hold at every round.
    refine Behaviour.Loop.congr (fun vars => (f.forget b.assigned).Holds ofLiteral locals vars) ?_ ?_
      ?_ (h.forget b.assigned)
    · intro vars hv
      exact hE.test_substitute hf hv hN.2.1
    · intro vars m o hv
      exact hE.runs_propagate b hN.2.2 hf hv o
    · intro vars m s' hv hb
      refine hv.of_eq fun n v hn => ?_
      rw [hE.runs_propagate b hN.2.2 hf hv] at hb
      exact Stmt.vars_of_runs _ b (Facts.not_mem_stores_of_forget hn) hb
  | expr e p =>
    simp only [Stmt.nodes, List.forall_mem_cons] at hN
    refine Behaviour.andThen_congr ?_ fun _ _ => Iff.rfl
    exact hE.effect hf h (hN.2 _ e.mem_nodes_self) (e.reduces_substitute f)
  | assign target value p =>
    simp only [Stmt.nodes, List.cons_append, List.forall_mem_cons, List.forall_mem_append] at hN
    exact hE.assign_substitute hf hN.2.1 hN.2.2 h
  | ret v p =>
    cases v with
    | none => exact Iff.rfl
    | some v =>
      simp only [Stmt.nodes, List.forall_mem_cons] at hN
      exact Behaviour.andThen_congr (hE.eval_substitute hf h hN.2) fun _ _ => Iff.rfl

theorem runsAll_propagateAll (hE : E.Steady ofLiteral locals N T) (ts : List Stmt)
    (hN : ∀ n ∈ Stmt.nodesOf ts, N n) {f : Facts} (hf : T f) {s : State V M}
    (h : f.Holds ofLiteral locals s.vars) (o : Outcome V M) :
    Stmt.runsAll E (Stmt.propagateAll locals f ts) s o ↔ Stmt.runsAll E ts s o := by
  cases ts with
  | nil => exact Iff.rfl
  | cons t ts =>
    simp only [Stmt.nodesOf, List.forall_mem_append] at hN
    refine Behaviour.seq_congr (fun o => hE.runs_propagate t hN.1 hf h o) fun s' hs => ?_
    rw [hE.runs_propagate t hN.1 hf h] at hs
    exact hE.runsAll_propagateAll ts hN.2 (hE.after hf (hN.1 _ t.mem_nodes_self))
      (hE.holds_after t hN.1 hf h hs) o

end

theorem runsAll_round (hE : E.Steady ofLiteral locals N T) {body : List Stmt}
    (hN : ∀ n ∈ Stmt.nodesOf body, N n)
    (hN' : ∀ n ∈ Stmt.nodesOf (Stmt.propagateAll locals {} body), N n) (s : State V M)
    (o : Outcome V M) :
    Stmt.runsAll E (Stmt.foldAll (Stmt.propagateAll locals {} body)) s o ↔
      Stmt.runsAll E body s o := by
  rw [hE.runsAll_foldAll _ hN']
  exact hE.runsAll_propagateAll body hN hE.empty Facts.holds_empty o

end Evaluator.Steady

namespace Interpretation

variable {I : Interpretation} {names : List String} {f : Facts} {vars : String → I.Value}

theorem eval_of_comesTo (h : ∀ n v, f.get? n = some v → n ∈ names ∧ vars n = I.literal v)
    {e : Expr} {v : Literal} (hv : e.ComesTo f v) : I.eval names vars e = pure (I.literal v) := by
  induction hv with
  | literal => rfl
  | @name n p v hv =>
    obtain ⟨hn, hvar⟩ := h n v hv
    simp only [eval, hn, if_true, hvar]
  | paren _ ih => exact ih
  | binary _ _ hc ihl ihr =>
    rw [eval, ihl, Action.pure_bind, I.settled_arithmetic _ _ (BinaryOp.arithmetic_of_compute hc)]
    simp only [ihr, Action.pure_bind]
    exact I.binary_of_compute hc

mutual

theorem eval_of_reduces (h : ∀ n v, f.get? n = some v → n ∈ names ∧ vars n = I.literal v)
    {e e' : Expr} (hr : e.Reduces f e') : I.eval names vars e' = I.eval names vars e := by
  match hr with
  | .refl => rfl
  | .literal hv => exact (eval_of_comesTo h hv).symm
  | .binary hl hr => simp only [eval, eval_of_reduces h hl, eval_of_reduces h hr]
  | .unary he | .paren he | .length he | .newArray he =>
    simp only [eval, eval_of_reduces h he]
  | .index ha hi => simp only [eval, eval_of_reduces h ha, eval_of_reduces h hi]
  | .call has => simp only [eval, evalAll_of_reduces h has]
  | .callOn ht has => simp only [eval, eval_of_reduces h ht, evalAll_of_reduces h has]
  | .arrayInit hes => simp only [eval, hes.length_eq, evalInit_of_reduces h hes]

theorem evalAll_of_reduces (h : ∀ n v, f.get? n = some v → n ∈ names ∧ vars n = I.literal v)
    {es es' : List Expr} (hr : Expr.ReducesAll f es es') :
    I.evalAll names vars es' = I.evalAll names vars es := by
  match hr with
  | .nil => rfl
  | .cons he hes => simp only [evalAll, eval_of_reduces h he, evalAll_of_reduces h hes]

theorem evalInit_of_reduces (h : ∀ n v, f.get? n = some v → n ∈ names ∧ vars n = I.literal v)
    {es es' : List Expr} (hr : Expr.ReducesAll f es es') (filled : I.Initializer) :
    I.evalInit names vars filled es' = I.evalInit names vars filled es := by
  match hr with
  | .nil => rfl
  | .cons he hes => simp only [evalInit, eval_of_reduces h he, evalInit_of_reduces h hes]

end

theorem steady (I : Interpretation) {names locals : List String} (hl : locals ⊆ names) :
    (I.evaluator names).Steady I.literal locals (fun _ => True) fun _ => True where
  isVariable n hn := by simpa [evaluator] using hl hn
  literal _ _ _ := rfl
  eval _ hf _ hr := eval_of_reduces (fun n v hv => ⟨hl (hf n v hv).1, (hf n v hv).2⟩) hr
  effect _ hf _ hr := by
    have heval := eval_of_reduces (fun n v hv => ⟨hl (hf n v hv).1, (hf n v hv).2⟩) hr
    simp only [evaluator, heval]
  empty := trivial
  forget _ _ := trivial
  after _ _ := trivial

end Interpretation

namespace MethodDecl

theorem localNames_subset_varNames (m : MethodDecl) : m.localNames ⊆ m.varNames := by
  intro n hn
  simp only [localNames, List.mem_map] at hn
  obtain ⟨v, hv, rfl⟩ := hn
  simp only [varNames, List.map_append, List.mem_append, List.mem_map]
  exact Or.inr ⟨v, hv, rfl⟩

theorem runs_simplify (I : Interpretation) (m : MethodDecl) (s : State I.Value I.Memory)
    (o : Outcome I.Value I.Memory) : m.simplify.runs I s o ↔ m.runs I s o := by
  have hnames : m.simplify.varNames = m.varNames := rfl
  simp only [runs, hnames]
  exact (I.steady m.localNames_subset_varNames).runsAll_round (fun _ _ => trivial)
    (fun _ _ => trivial) s o

theorem runs_optimize (I : Interpretation) (m : MethodDecl) (s : State I.Value I.Memory)
    (o : Outcome I.Value I.Memory) : m.optimize.1.runs I s o ↔ m.runs I s o :=
  m.optimize_rounds (P := fun m' => m'.runs I s o ↔ m.runs I s o)
    (fun m' h => (runs_simplify I m' s o).trans h) Iff.rfl

theorem optimize_eq_with_body (m : MethodDecl) :
    m.optimize.1 = { m with body := m.optimize.1.body } :=
  m.optimize_rounds (P := fun m' => m' = { m with body := m'.body })
    (fun m' h => by rw [simplify, h]; rfl) rfl

end MethodDecl

/-- Constant optimisation preserves meaning: under every interpretation, each method of the optimised
program differs from its original in the body only, and from every state its body has the same
outcomes. -/
theorem Program.runs_of_optimized_methods (I : Interpretation) (p : Program) :
    List.Forall₂
      (fun m' m => m' = { m with body := m'.body } ∧
        ∀ (s : State I.Value I.Memory) (o : Outcome I.Value I.Memory), m'.runs I s o ↔ m.runs I s o)
      p.optimize.program.classDecl.methods p.classDecl.methods := by
  have hmap : p.optimize.program.classDecl.methods =
      p.classDecl.methods.map fun m => m.optimize.1 := by
    simp [Program.optimize]
  rw [hmap, List.forall₂_map_left_iff, List.forall₂_same]
  intro m _
  exact ⟨m.optimize_eq_with_body, m.runs_optimize I⟩

/-- `class Stair { int climb(int n) { int step; int i; … } }`: three rounds of a loop take `n` up by
`step` where it is low and down by one where it is not. -/
def Program.stair : Program :=
  let var (n : String) : Expr := .name n {}
  let int (n : Int32) : Expr := .literal (.int n) {}
  let assign (n : String) (e : Expr) : Stmt := .assign (var n) e {}
  { classDecl := {
      name := "Stair"
      methods := [{
        name := "climb", returns := { name := "int" }
        params := [{ type := { name := "int" }, name := "n" }]
        locals := [{ type := { name := "int" }, name := "step" },
          { type := { name := "int" }, name := "i" }]
        body := [
          assign "step" (int 2),
          assign "i" (int 0),
          .loop (.binary .lt (var "i") (.binary .add (var "step") (int 1) {}) {})
            (.block [
              .cond (.binary .lt (var "n") (.binary .mul (var "step") (int 5) {}) {})
                (assign "n" (.binary .add (var "n") (var "step") {}))
                (some (assign "n" (.binary .sub (var "n") (int 1) {}))) {},
              assign "i" (.binary .add (var "i") (int 1) {})] {}) {},
          .ret (some (var "n")) {}] }] } }

theorem Program.runs_stair (w : World) (μ : Memory) {m : MethodDecl}
    (hm : stair.classDecl.methods = [m]) :
    ∃ q, m.runs (w.interpretation (.ofProgram stair)) ⟨fun _ => Value.int 7, μ⟩
      (.returned (some (Value.int 10)) q) := by
  obtain rfl := (List.cons.inj hm).1
  let q₀ : State Value Memory := (State.set ⟨fun _ => .int 7, μ⟩ "step" (.int 2)).set "i" (.int 0)
  let q₁ := (q₀.set "n" (.int 9)).set "i" (.int 1)
  let q₂ := (q₁.set "n" (.int 11)).set "i" (.int 2)
  let q₃ := (q₂.set "n" (.int 10)).set "i" (.int 3)
  refine ⟨q₃, .inl ⟨_, rfl, .inl ⟨q₀, rfl, .inl ⟨q₃, ?_, .inr ⟨rfl, rfl⟩⟩⟩⟩⟩
  refine .again rfl (.inl ⟨_, rfl, .inl ⟨q₁, rfl, rfl⟩⟩) ?_
  refine .again rfl (.inl ⟨_, rfl, .inl ⟨q₂, rfl, rfl⟩⟩) ?_
  exact .again rfl (.inl ⟨_, rfl, .inl ⟨q₃, rfl, rfl⟩⟩) (.stop rfl)

theorem Program.runs_of_optimized_stair :
    stair.optimize.changed = true ∧
      ∃ (w : World) (μ : Memory) (m : MethodDecl) (q : State Value Memory),
        stair.optimize.program.classDecl.methods = [m] ∧
        m.runs (w.interpretation (.ofProgram stair)) ⟨fun _ => Value.int 7, μ⟩
          (.returned (some (Value.int 10)) q) := by
  let w : World := ⟨.ref .null, fun _ _ _ => Action.fail, fun _ _ => .int 0⟩
  let μ : Memory := ⟨fun _ _ => .int 0, fun _ => [], 0⟩
  have hall := runs_of_optimized_methods (w.interpretation (.ofProgram stair)) stair
  obtain ⟨m, ms, hm⟩ : ∃ m ms, stair.optimize.program.classDecl.methods = m :: ms := ⟨_, _, rfl⟩
  obtain ⟨q, hq⟩ := runs_stair w μ (m := _) rfl
  rw [hm] at hall ⊢
  obtain ⟨⟨_, hruns⟩, hnil⟩ := List.forall₂_cons.1 hall
  refine ⟨by decide +kernel, w, μ, m, q, ?_, (hruns _ _).2 hq⟩
  rw [List.forall₂_nil_right_iff.1 hnil]

end SingleClass
