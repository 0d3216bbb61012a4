import SingleClass.Proofs.Behaviour.Expr
import SingleClass.Proofs.Constant.Soundness
import SingleClass.Proofs.Constant.Typing
import SingleClass.Proofs.Typing.Parts
set_option autoImplicit false

/-!
Constant optimisation keeps the runs of typed bodies in a unit that stands alone. How a call passes its
last arguments, and how an initializer holds its elements, is a matter of types alone, and a reduced
expression has the type that it had.
-/

namespace SingleClass

namespace Scope

variable {s : Scope}

theorem HaveTypes.forall_hasType_iff (hs : s.Closed) {es : List Expr} {ts : List Ty}
    (h : s.HaveTypes es ts) {t : Ty} : (∀ e ∈ es, s.HasType e t) ↔ ∀ u ∈ ts, u = t := by
  refine ⟨fun hes => ?_, h.hasType⟩
  match h with
  | .nil => simp
  | .cons he _ hrest =>
    obtain ⟨he', hes⟩ := List.forall_mem_cons.1 hes
    exact List.forall_mem_cons.2 ⟨he.unique hs he', (hrest.forall_hasType_iff hs).1 hes⟩

theorem initCell_congr (hs : s.Closed) {es es' : List Expr} {ts : List Ty} (h : s.HaveTypes es ts)
    (h' : s.HaveTypes es' ts) : s.initCell es' = s.initCell es := by
  unfold initCell
  simp only [h.forall_hasType_iff hs, h'.forall_hasType_iff hs]

theorem passArguments_congr (hs : s.Closed) {as as' : List Expr} {ts : List Ty}
    (h : s.HaveTypes as ts) (h' : s.HaveTypes as' ts) (c : Signature)
    (values : List (Action Memory Value)) :
    s.passArguments c as' values = s.passArguments c as values := by
  unfold passArguments
  simp only [passesArray_iff hs (h.drop _), passesArray_iff hs (h'.drop _)]

theorem invoke_congr (hs : s.Closed) (w : World) {as as' : List Expr} {ts : List Ty}
    (h : s.HaveTypes as ts) (h' : s.HaveTypes as' ts) (receiver : Action Memory Value) (m : String)
    (values : List (Action Memory Value)) :
    s.invoke w receiver m as' values = s.invoke w receiver m as values := by
  unfold invoke
  simp only [passArguments_congr hs h h']

section

variable {w : World} {f : Facts} {vars : String → Value}

/-- What is known of names is so. -/
def Reads (s : Scope) (f : Facts) (vars : String → Value) : Prop :=
  ∀ n v, f.get? n = some v →
    (∃ b, s.lookup n = some b ∧ b.isField = false) ∧ vars n = .ofLiteral v

theorem eval_of_comesTo (h : s.Reads f vars) {e : Expr} {v : Literal} (hv : e.ComesTo f v) :
    s.eval w vars e = pure (.ofLiteral v) := by
  induction hv with
  | literal => rfl
  | @name n p v hv =>
    obtain ⟨⟨b, hb, hf⟩, hvar⟩ := h n v hv
    rw [eval, evalName_of_var hb hf, hvar]
  | paren _ ih => exact ih
  | @binary op l r p a b c _ _ hc ihl ihr =>
    have happly : op.apply (.int a) (.int b) = some (.int c) := by
      cases op <;> simp_all [BinaryOp.apply, BinaryOp.compute]
    rw [eval, ihl, ihr]
    simp only [Value.ofLiteral, Action.pure_bind, happly]
    rfl

mutual

theorem eval_of_reduces (hs : s.Closed) (hf : f.Typed s) (h : s.Reads f vars) {e e' : Expr} {t : Ty}
    (hr : e.Reduces f e') (ht : s.HasType e t) : s.eval w vars e' = s.eval w vars e := by
  match hr with
  | .refl => rfl
  | .literal hv => exact (eval_of_comesTo h hv).symm
  | .binary hl hr =>
    cases ht with
    | binary _ htl htr =>
      simp only [eval, eval_of_reduces hs hf h hl htl, eval_of_reduces hs hf h hr htr]
  | .unary he =>
    cases ht with
    | unary hte => simp only [eval, eval_of_reduces hs hf h he hte]
  | .paren he =>
    cases ht with
    | paren hte => simp only [eval, eval_of_reduces hs hf h he hte]
  | .index ha hi =>
    cases ht with
    | index hta hti _ _ =>
      simp only [eval, eval_of_reduces hs hf h ha hta, eval_of_reduces hs hf h hi hti]
  | .length ha =>
    cases ht with
    | length hta _ _ => simp only [eval, eval_of_reduces hs hf h ha hta]
  | .call has =>
    cases ht with
    | call _ _ hts _ =>
      simp only [eval, evals_of_reduces hs hf h has hts, invoke_congr hs w hts (hts.reduce hf has)]
  | .callOn hr has =>
    cases ht with
    | call hrecv _ hts _ =>
      cases hrecv with
      | explicit hto =>
        simp only [eval, eval_of_reduces hs hf h hr hto, evals_of_reduces hs hf h has hts,
          invoke_congr hs w hts (hts.reduce hf has)]
  | .newArray he =>
    cases ht with
    | newArray hte _ => simp only [eval, eval_of_reduces hs hf h he hte]
  | .arrayInit hes =>
    cases ht with
    | arrayInit hts _ _ _ =>
      simp only [eval, evals_of_reduces hs hf h hes hts, initCell_congr hs hts (hts.reduce hf hes)]

theorem evals_of_reduces (hs : s.Closed) (hf : f.Typed s) (h : s.Reads f vars) {es es' : List Expr}
    {ts : List Ty} (hr : Expr.ReducesAll f es es') (ht : s.HaveTypes es ts) :
    s.evals w vars es' = s.evals w vars es := by
  match hr with
  | .nil => rfl
  | .cons he hes =>
    cases ht with
    | cons hte _ hts =>
      simp only [evals, eval_of_reduces hs hf h he hte, evals_of_reduces hs hf h hes hts]

end

theorem effect_of_reduces (hs : s.Closed) (hf : f.Typed s) (h : s.Reads f vars) {e e' : Expr}
    {t : Ty} (hr : e.Reduces f e') (ht : s.HasType e t) : s.effect w vars e' = s.effect w vars e := by
  have hr := hr.stripParens
  have ht := ht.stripParens
  by_cases hcall : ∃ r m as p, e.stripParens = .call r m as p
  · obtain ⟨r, m, as, p, he⟩ := hcall
    rw [effect_of_call he]
    rw [he] at hr ht
    cases ht with
    | call hrecv _ hts _ =>
      generalize he' : e'.stripParens = x at hr
      cases hr with
      | refl => exact effect_of_call he'
      | literal hv => cases hv
      | call has =>
        rw [effect_of_call he', ← evals_eq_map, ← evals_eq_map, evals_of_reduces hs hf h has hts,
          invoke_congr hs w hts (hts.reduce hf has)]
      | callOn hro has =>
        cases hrecv with
        | explicit hto =>
          rw [effect_of_call he', ← evals_eq_map, ← evals_eq_map, evals_of_reduces hs hf h has hts,
            invoke_congr hs w hts (hts.reduce hf has)]
          simp only [evalReceiver, Option.map_some, eval_of_reduces hs hf h hro hto]
  · have hplain : ∀ r m as p, e.stripParens ≠ .call r m as p :=
      fun r m as p he => hcall ⟨r, m, as, p, he⟩
    have hplain' : ∀ r m as p, e'.stripParens ≠ .call r m as p := by
      intro r m as p he'
      rw [he'] at hr
      generalize e.stripParens = x at hr hplain
      cases hr <;> exact hplain _ _ _ _ rfl
    rw [effect_of_not_call hplain, effect_of_not_call hplain', eval_of_reduces hs hf h hr ht]

end

theorem Closed.steady (hs : s.Closed) (w : World) {locals : List String}
    (hl : ∀ n ∈ locals, ∃ x, s.method.local? n = some x) :
    (s.evaluator w).Steady .ofLiteral locals s.Keeps (Facts.Typed · s) := by
  have hreads : ∀ {f : Facts} {vars : String → Value}, f.Holds .ofLiteral locals vars →
      s.Reads f vars := by
    intro f vars hf n v hv
    obtain ⟨hn, hvar⟩ := hf n v hv
    obtain ⟨x, hx⟩ := hl n hn
    exact ⟨⟨_, lookup_of_local? hx, rfl⟩, hvar⟩
  refine
    { isVariable := ?_
      literal := fun _ _ _ => rfl
      eval := fun hf h he hr => he.elim fun _ ht => eval_of_reduces hs hf (hreads h) hr ht
      effect := fun hf h he hr => he.elim fun _ ht => effect_of_reduces hs hf (hreads h) hr ht
      empty := Facts.typed_empty
      forget := fun ns hf => hf.forget ns
      after := fun hf ht => typed_after hf locals _ ht }
  intro n hn
  obtain ⟨x, hx⟩ := hl n hn
  simp [evaluator, lookup_of_local? hx, Binding.isField]

theorem AcceptsAll.runsAll_optimize (hs : s.Closed) (w : World) {d : MethodDecl}
    (hl : ∀ n ∈ d.localNames, ∃ x, s.method.local? n = some x) (h : s.AcceptsAll d.body)
    (q : State Value Memory) (o : Outcome Value Memory) :
    Stmt.runsAll (s.evaluator w) d.optimize.1.body q o ↔ Stmt.runsAll (s.evaluator w) d.body q o := by
  refine (d.optimize_rounds (P := fun d' => d'.localNames = d.localNames ∧ s.AcceptsAll d'.body ∧
    (Stmt.runsAll (s.evaluator w) d'.body q o ↔ Stmt.runsAll (s.evaluator w) d.body q o)) ?_
    ⟨rfl, h, Iff.rfl⟩).2.2
  intro d' ⟨hnames, h', hruns⟩
  have hpropagated := acceptsAll_propagateAll Facts.typed_empty d'.localNames _ h'
  refine ⟨hnames, acceptsAll_foldAll _ hpropagated, Iff.trans ?_ hruns⟩
  exact (hs.steady w (hnames ▸ hl)).runsAll_round h'.keeps hpropagated.keeps q o

/-- The fixpoint of a typed body ends as the body does. -/
theorem AcceptsAll.finishes_optimize (hs : s.Closed) (w : World) {d : MethodDecl}
    (hl : ∀ n ∈ d.localNames, ∃ x, s.method.local? n = some x) (h : s.AcceptsAll d.body)
    (q : State Value Memory) (f : Final) :
    s.finishes w d.optimize.1.body q f ↔ s.finishes w d.body q f := by
  simp only [finishes, h.runsAll_optimize hs w hl]

end Scope

end SingleClass
