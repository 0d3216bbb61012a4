import Mathlib.Data.List.Forall2
import SingleClass.Proofs.Lowering.Execution
import SingleClass.Proofs.Lowering.Typing
set_option autoImplicit false

/-!
Lowering keeps the meaning of methods: the code of a typed statement realizes its behaviour
(`LowersStmt.realizes`), so the code of a method comes to an end exactly where its body does.
-/

namespace SingleClass

theorem Behaviour.andThen_andThen {V M A B : Type} (x : (String → V) → Action M A)
    (y : A → Action M B) (K : B → Behaviour V M) :
    (Behaviour.andThen x fun a => .andThen (fun _ => y a) K) =
      Behaviour.andThen (fun vars => x vars >>= y) K := by
  funext q o
  simp only [Behaviour.andThen, Action.bind_apply]
  cases x q.vars q.memory <;> rfl

theorem Env.Holds.set {env : Env} {q : State Value Memory} (h : env.Holds q.vars) (n : String)
    (v : Value) : (env.set (.var n) v).Holds (q.set n v).vars := by
  intro x
  by_cases hx : x = n
  · subst hx
    simp [Env.set, State.set]
  · simp [Env.set, State.set, hx, h x]

namespace Scope

theorem LowersEffect.realizes {s : Scope} (hs : s.Closed) {w : World} {m : MethodCode} {k : Nat}
    {e : Expr} {σ σ' : Supply} {code : List Instr} {t : Ty} (h : s.LowersEffect e σ code σ')
    (ht : s.HasType e t) (hat : m.At k code) :
    Realizes m w k code (.andThen (s.effect w · e) fun _ => .done) := by
  have hplain := h.straight.plain
  cases h with
  | call he hc =>
    have htype := ht.stripParens
    rw [he] at htype
    cases htype with
    | call hrecv hm has hts =>
      refine .effect (n := σ.temps) (R := fun _ _ => True) hplain hat ?_
      intro env vars hv
      rw [effect_of_call he]
      exact (hc.simulates hs w hrecv hm has hts hv).map fun _ _ _ => ⟨(), rfl, trivial⟩
  | value he hl =>
    refine .effect (n := σ.temps) (R := fun _ _ => True) hplain hat ?_
    intro env vars hv
    rw [effect_of_not_call he]
    exact (hl.simulates hs w ht.stripParens hv).map fun _ _ _ => ⟨(), rfl, trivial⟩

theorem LowersAssign.realizes {s : Scope} (hs : s.Closed) {w : World} {m : MethodCode} {k : Nat}
    {target value : Expr} {σ σ' : Supply} {code : List Instr} {t : Ty}
    (h : s.LowersAssign target value σ code σ') (htt : s.HasType target t)
    (hvt : s.HasType value t) (hat : m.At k code) :
    Realizes m w k code ((s.evaluator w).assign target value) := by
  have hplain := h.straight.plain
  cases h with
  | @var n p _ _ _ b f hb hf hl =>
    have hvar : (s.evaluator w).isVariable n = true := by simp [evaluator, hb, hf]
    simp only [Evaluator.assign, hvar, if_true]
    refine .value (o := f.operand) hl.straight.1.plain hat
      (fun env vars hv => hl.simulates hs w hvt hv) ?_
    intro env q v hv hread
    refine ⟨_, rfl, ?_⟩
    intro out hout
    subst hout
    refine ⟨1, env.set (.var n) v, hv.set n v, .one ?_⟩
    rw [m.step_plain hat.right.head rfl _ _]
    simp only [Instr.effect, hread, Action.ofOption, Action.pure_bind]
    rfl
  | @field n p _ _ _ sym f hfield hl =>
    have hvar : (s.evaluator w).isVariable n = false := by
      simp [evaluator, hfield, Binding.isField]
    have hstore : ∀ v, (s.evaluator w).storeName n v = Memory.putField w.this sym.name v := by
      simp [evaluator, field?, hfield]
    simp only [Evaluator.assign, hvar, Bool.false_eq_true, if_false, hstore,
      Behaviour.andThen_andThen]
    refine .effect (n := σ.temps) (R := fun _ _ => True) hplain hat ?_
    intro env vars hv
    refine (hl.simulates hs w hvt hv).append hl.straight.1.le ?_
    intro env₁ v _ hread
    refine .effect ?_ fun _ => trivial
    simp only [Instr.effect, hread, Action.ofOption, Action.pure_bind]
  | element ha hi hl =>
    cases htt with
    | index hat' hit _ _ =>
      simp only [Evaluator.assign]
      refine .effect (n := σ.temps) (R := fun _ _ => True) hplain hat ?_
      intro env vars hv
      simp only [List.append_assoc]
      refine (ha.simulates hs w hat' hv).append ha.straight.1.le ?_
      intro env₁ a hk₁ hra
      refine (hi.simulates hs w hit (hv.keep hk₁)).append hi.straight.1.le ?_
      intro env₂ i hk₂ hri
      refine (hl.simulates hs w hvt ((hv.keep hk₁).keep hk₂)).append hl.straight.1.le ?_
      intro env₃ v hk₃ hrv
      have hra₃ := (hk₃.read w (ha.straight.2.mono hi.straight.1.le)).trans
        ((hk₂.read w ha.straight.2).trans hra)
      have hri₃ := (hk₃.read w hi.straight.2).trans hri
      refine .effect ?_ fun _ => trivial
      simp only [Instr.effect, hra₃, hri₃, hrv, Action.ofOption, Action.pure_bind]
      rfl

theorem Lowers.decides {s : Scope} (hs : s.Closed) {w : World} {m : MethodCode} {k p : Nat}
    {c : Expr} {want : Expectation} {σ σ' : Supply} {cf : Fragment} {l : Label} {t : Ty}
    (h : s.Lowers c want σ cf σ') (ht : s.HasType c t)
    (hat : m.At k (cf.code ++ [.branch cf.operand l])) (hl : m.labels.position? l = some p) :
    Decides m w k p (k + cf.code.length + 1) ((s.evaluator w).test c) := by
  refine decides_of_simulates (n := σ.temps) ?_ h.straight.1.plain hat hl ?_
  · intro v
    cases v <;> rfl
  · intro env vars hv
    exact h.simulates hs w ht hv

mutual

theorem LowersStmt.realizes {s : Scope} (hs : s.Closed) (w : World) {m : MethodCode}
    (hres : m.Resolves) {t : Stmt} {σ σ' : Supply} {code : List Instr}
    (h : s.LowersStmt t σ code σ') :
    ∀ ⦃k : Nat⦄, s.Accepts t → m.At k code → Realizes m w k code (t.runs (s.evaluator w)) := by
  match h with
  | .block hb =>
    intro k ha hat
    simp only [Stmt.runs]
    exact hb.realizes hs w hres ha hat
  | .condThen hc ht =>
    have iht := ht.realizes hs w hres
    intro k ha hat
    obtain ⟨hbranch, _, hjump, hthen, _⟩ := Realizes.condCode_at hat
    have hdecides := hc.decides (w := w) hs ha.1 hbranch (hres _ _ hjump.tail.head)
    simp only [Stmt.runs]
    exact Realizes.cond hat hres hdecides (iht ha.2 hthen) .nil
  | .condElse hc he ht =>
    have ihe := he.realizes hs w hres
    have iht := ht.realizes hs w hres
    intro k ha hat
    obtain ⟨hbranch, helse, hjump, hthen, _⟩ := Realizes.condCode_at hat
    have hdecides := hc.decides (w := w) hs ha.1 hbranch (hres _ _ hjump.tail.head)
    simp only [Stmt.runs]
    exact Realizes.cond hat hres hdecides (iht ha.2.1 hthen) (ihe ha.2.2 helse)
  | .loop hc hb =>
    have ihb := hb.realizes hs w hres
    intro k ha hat
    obtain ⟨_, hbranch, hjump, hbody, _⟩ := Realizes.loopCode_at hat
    have hdecides := hc.decides (w := w) hs ha.1 hbranch (hres _ _ hjump.tail.head)
    simp only [Stmt.runs]
    exact Realizes.loop hat hres hdecides (ihb ha.2 hbody)
  | .expr he =>
    intro k ha hat
    obtain ⟨t, ht⟩ := ha
    simp only [Stmt.runs]
    exact he.realizes hs ht hat
  | .assign hl =>
    intro k ha hat
    obtain ⟨_, t, _, htt, hvt⟩ := ha
    simp only [Stmt.runs]
    exact hl.realizes hs htt hvt hat
  | .retNone =>
    intro k _ hat
    have hend : ∀ env μ, m.terminates w ⟨k, env, μ⟩ (.returned none μ) := by
      intro env μ
      exact MethodCode.terminates_of_finished (by simp only [MethodCode.step, hat.head])
    simp only [Stmt.runs]
    constructor
    · intro env q o _ ho
      subst ho
      exact hend env q.memory
    · intro env q f _ _
      exact ⟨_, rfl⟩
  | .retSome (v := v) hl =>
    intro k ha hat
    simp only [Stmt.runs]
    refine .value (o := v.operand) hl.straight.1.plain hat
      (fun env vars hv => hl.simulates hs w ha.2 hv) ?_
    intro env q x _ hread
    refine ⟨_, rfl, ?_⟩
    intro out hout
    subst hout
    exact MethodCode.terminates_of_finished (by
      simp only [MethodCode.step, hat.right.head, hread])

theorem LowersBody.realizes {s : Scope} (hs : s.Closed) (w : World) {m : MethodCode}
    (hres : m.Resolves) {ts : List Stmt} {σ σ' : Supply} {code : List Instr}
    (h : s.LowersBody ts σ code σ') :
    ∀ ⦃k : Nat⦄, s.AcceptsAll ts → m.At k code →
      Realizes m w k code (Stmt.runsAll (s.evaluator w) ts) := by
  match h with
  | .nil =>
    intro k _ _
    simp only [Stmt.runsAll]
    exact .nil
  | .cons ht hr =>
    have iht := ht.realizes hs w hres
    have ihr := hr.realizes hs w hres
    intro k ha hat
    simp only [Stmt.runsAll]
    exact (iht ha.1 hat.left).seq (ihr ha.2 hat.right)

end

end Scope

theorem Scope.eval_of_literal? {s : Scope} {w : World} {vars : String → Value} {e : Expr}
    {v : Literal} (h : e.literal? = some v) : s.eval w vars e = pure (.ofLiteral v) := by
  fun_induction Expr.literal? e with
  | case1 v' p =>
    cases h
    rfl
  | case2 e ih => exact ih h
  | case3 => simp at h

theorem Behaviour.Loop.not_normal {V M : Type} {test : (String → V) → Action M Bool}
    {body : Behaviour V M} (htest : ∀ vars μ, test vars μ = .returns true μ) {q : State V M}
    {o : Outcome V M} (h : Behaviour.Loop test body q o) : o.isNormal = false := by
  induction h with
  | stop h => simp [htest] at h
  | fail h => rfl
  | leave _ _ ho => exact ho
  | again _ _ _ ih => exact ih

theorem Behaviour.seq_not_normal {V M : Type} {b b' : Behaviour V M} {q : State V M}
    {o : Outcome V M} (h : Behaviour.seq b b' q o)
    (hb : (∀ q o, b q o → o.isNormal = false) ∨ ∀ q o, b' q o → o.isNormal = false) :
    o.isNormal = false := by
  rcases h with ⟨q', h₁, h₂⟩ | ⟨_, ho⟩
  · rcases hb with hb | hb
    · simpa [Outcome.isNormal] using hb _ _ h₁
    · exact hb _ _ h₂
  · exact ho

theorem Behaviour.andThen_not_normal {V M A : Type} {x : (String → V) → Action M A}
    {K : A → Behaviour V M} {q : State V M} {o : Outcome V M} (h : Behaviour.andThen x K q o)
    (hK : ∀ a q o, K a q o → o.isNormal = false) : o.isNormal = false := by
  unfold Behaviour.andThen at h
  cases hx : x q.vars q.memory with
  | returns a μ =>
    rw [hx] at h
    exact hK _ _ _ h
  | fails μ =>
    rw [hx] at h
    simp only at h
    subst h
    rfl
  | diverges =>
    rw [hx] at h
    exact h.elim

mutual

theorem Stmt.not_normal_of_returns (s : Scope) (w : World) : ∀ (t : Stmt), t.returns = true →
    ∀ q o, t.runs (s.evaluator w) q o → o.isNormal = false
  | .ret none p, _ => by
    intro q o h
    simp only [Stmt.runs] at h
    subst h
    rfl
  | .ret (some e) p, _ => by
    intro q o h
    simp only [Stmt.runs] at h
    refine Behaviour.andThen_not_normal h ?_
    intro v q' o' h'
    subst h'
    rfl
  | .block b p, hr => by
    intro q o h
    simp only [Stmt.runs] at h
    simp only [Stmt.returns] at hr
    exact Stmt.not_normal_of_anyReturns s w b hr q o h
  | .cond c t none p, hr => by simp [Stmt.returns] at hr
  | .cond c t (some e) p, hr => by
    intro q o h
    simp only [Stmt.returns, Bool.and_eq_true] at hr
    simp only [Stmt.runs] at h
    refine Behaviour.andThen_not_normal h ?_
    intro b q' o' h'
    cases b with
    | true => exact Stmt.not_normal_of_returns s w t hr.1 q' o' h'
    | false => exact Stmt.not_normal_of_returns s w e hr.2 q' o' h'
  | .loop c b p, hr => by
    intro q o h
    simp only [Stmt.returns, decide_eq_true_eq] at hr
    simp only [Stmt.runs] at h
    refine h.not_normal ?_
    intro vars μ
    have heval : (s.evaluator w).eval vars c = pure (.bool true) := s.eval_of_literal? hr
    simp only [Evaluator.test, heval, Action.pure_bind]
    rfl
  | .expr e p, hr => by simp [Stmt.returns] at hr
  | .assign target value p, hr => by simp [Stmt.returns] at hr

theorem Stmt.not_normal_of_anyReturns (s : Scope) (w : World) : ∀ (ts : List Stmt),
    Stmt.anyReturns ts = true → ∀ q o, Stmt.runsAll (s.evaluator w) ts q o → o.isNormal = false
  | [], hr => by simp [Stmt.anyReturns] at hr
  | t :: ts, hr => by
    intro q o h
    simp only [Stmt.anyReturns, Bool.or_eq_true] at hr
    simp only [Stmt.runsAll] at h
    refine Behaviour.seq_not_normal h ?_
    rcases hr with hr | hr
    · exact .inl (Stmt.not_normal_of_returns s w t hr)
    · exact .inr (Stmt.not_normal_of_anyReturns s w ts hr)

end

namespace Scope

theorem not_isReturn_of_plain {code : List Instr} (h : ∀ i ∈ code, i.isControl = false) :
    code.getLast?.any Instr.isReturn = false := by
  cases hl : code.getLast? with
  | none => rfl
  | some i =>
    have hi := h i (List.mem_of_getLast? hl)
    cases i <;> simp_all [Instr.isControl, Instr.isReturn]

theorem isReturn_of_append {code rest : List Instr}
    (h : (code ++ rest).getLast?.any Instr.isReturn = true) :
    code.getLast?.any Instr.isReturn = true ∨ rest.getLast?.any Instr.isReturn = true := by
  cases hrest : rest.getLast? with
  | none =>
    rw [List.getLast?_eq_none_iff.1 hrest, List.append_nil] at h
    exact .inl h
  | some i =>
    rw [List.getLast?_append, hrest, Option.some_or] at h
    exact .inr h

theorem getLast?_condCode (n : Nat) (cf : Fragment) (tc ec : List Instr) :
    (condCode n cf tc ec).getLast? = some (.label ⟨"endif", n⟩) := by
  rw [condCode, List.getLast?_concat]

theorem getLast?_loopCode (n : Nat) (cf : Fragment) (bc : List Instr) :
    (loopCode n cf bc).getLast? = some (.label ⟨"whileend", n⟩) := by
  rw [loopCode, List.getLast?_append]
  rfl

mutual

theorem LowersStmt.not_normal {s : Scope} (w : World) {t : Stmt} {σ σ' : Supply}
    {code : List Instr} (h : s.LowersStmt t σ code σ') :
    code.getLast?.any Instr.isReturn = true →
      ∀ q o, t.runs (s.evaluator w) q o → o.isNormal = false := by
  match h with
  | .block hb =>
    have ih := hb.not_normal w
    intro hlast q o ho
    simp only [Stmt.runs] at ho
    exact ih hlast q o ho
  | .condThen _ _ =>
    intro hlast
    rw [getLast?_condCode] at hlast
    cases hlast
  | .condElse _ _ _ =>
    intro hlast
    rw [getLast?_condCode] at hlast
    cases hlast
  | .loop _ _ =>
    intro hlast
    rw [getLast?_loopCode] at hlast
    cases hlast
  | .expr he =>
    intro hlast
    rw [not_isReturn_of_plain he.straight.plain] at hlast
    cases hlast
  | .assign ha =>
    intro hlast
    rw [not_isReturn_of_plain ha.straight.plain] at hlast
    cases hlast
  | .retNone =>
    intro _
    exact Stmt.not_normal_of_returns s w _ rfl
  | .retSome _ =>
    intro _
    exact Stmt.not_normal_of_returns s w _ rfl

theorem LowersBody.not_normal {s : Scope} (w : World) {ts : List Stmt} {σ σ' : Supply}
    {code : List Instr} (h : s.LowersBody ts σ code σ') :
    code.getLast?.any Instr.isReturn = true →
      ∀ q o, Stmt.runsAll (s.evaluator w) ts q o → o.isNormal = false := by
  match h with
  | .nil =>
    intro hlast
    cases hlast
  | .cons ht hr =>
    have iht := ht.not_normal w
    have ihr := hr.not_normal w
    intro hlast q o ho
    simp only [Stmt.runsAll] at ho
    refine Behaviour.seq_not_normal ho ?_
    rcases isReturn_of_append hlast with hl | hl
    · exact .inl (iht hl)
    · exact .inr (ihr hl)

end

theorem LowersBody.resolves {s : Scope} {ts : List Stmt} {σ σ' : Supply} {body : List Instr}
    (h : s.LowersBody ts σ body σ') : (s.methodCode body).Resolves := by
  intro k l hk
  refine LabelTable.position?_ofInstrs ?_ hk
  rw [markers_append, markers_closing, List.append_nil]
  exact h.laid.labels.nodup

/-- The end of a body leads to the end of the method. -/
theorem Sound.final_of_outcome {s : Scope} {ts : List Stmt} (hs : s.Sound ts) (w : World)
    {σ σ' : Supply} {body : List Instr} (h : s.LowersBody ts σ body σ') {env : Env}
    {q : State Value Memory} {o : Outcome Value Memory} (hv : env.Holds q.vars)
    (ho : Stmt.runsAll (s.evaluator w) ts q o) :
    ∃ f, o.final? s.method.returnTy = some f ∧
      (s.methodCode body).terminates w ⟨0, env, q.memory⟩ f := by
  have hat : (s.methodCode body).At 0 (body ++ closing s.method.returnTy.asValue body) := by
    exact List.prefix_refl _
  have ha := (h.realizes hs.closed w h.resolves hs.accepts hat.left).arrives hv ho
  cases o with
  | returned v q' => exact ⟨_, rfl, ha⟩
  | failed q' => exact ⟨_, rfl, ha⟩
  | normal q' =>
    have hvoid : s.method.returnTy.isVoid = true := by
      rcases hs.returns with hvoid | hret
      · exact hvoid
      · have := Stmt.not_normal_of_anyReturns s w ts hret _ _ ho
        simp [Outcome.isNormal] at this
    have hlast : body.getLast?.any Instr.isReturn = false := by
      cases hl : body.getLast?.any Instr.isReturn with
      | false => rfl
      | true =>
        have := h.not_normal w hl _ _ ho
        simp [Outcome.isNormal] at this
    have hclosing : closing s.method.returnTy.asValue body = [.ret none] := by
      simp [closing, hvoid, hlast]
    rw [hclosing] at hat
    refine ⟨.returned none q'.memory, by simp [Outcome.final?, hvoid], ?_⟩
    obtain ⟨n, env', _, hr⟩ := ha
    refine hr.terminates (MethodCode.terminates_of_finished ?_)
    simp only [MethodCode.step, hat.right.head]

theorem Sound.terminates_iff {s : Scope} {ts : List Stmt} (hs : s.Sound ts) (w : World)
    {σ σ' : Supply} {body : List Instr} (h : s.LowersBody ts σ body σ') {env : Env}
    {q : State Value Memory} {f : Final} (hv : env.Holds q.vars) :
    (s.methodCode body).terminates w ⟨0, env, q.memory⟩ f ↔ s.finishes w ts q f := by
  constructor
  · intro ht
    have hat : (s.methodCode body).At 0 body := List.prefix_append _ _
    obtain ⟨o, ho⟩ :=
      (h.realizes hs.closed w h.resolves hs.accepts hat).exists_outcome hv ht
    obtain ⟨f', hf', ht'⟩ := hs.final_of_outcome w h hv ho
    rw [MethodCode.terminates_unique ht ht']
    exact ⟨o, ho, hf'⟩
  · intro hf
    obtain ⟨o, ho, hf⟩ := hf
    obtain ⟨f', hf', ht'⟩ := hs.final_of_outcome w h hv ho
    rw [Option.some.inj (hf.symm.trans hf')]
    exact ht'

end Scope

theorem Symbols.LowersMethods.forall₂ {S : Symbols} {ds : List MethodDecl} {σ σ' : Supply}
    {ms : List MethodCode}
    (h : S.LowersMethods (ds.map fun d => (d, Signature.ofDecl d)) σ ms σ') :
    List.Forall₂ (fun d m => ∃ σ₁ σ₂ body, Scope.LowersBody ⟨S, .ofDecl d⟩ d.body σ₁ body σ₂ ∧
      Scope.methodCode ⟨S, .ofDecl d⟩ body = m) ds ms := by
  induction ds generalizing σ ms with
  | nil =>
    cases h
    exact .nil
  | cons d ds ih =>
    cases h with
    | cons hd hs => exact .cons ⟨_, _, _, hd, rfl⟩ (ih hs)

/-- From its first instruction on, and whatever its temporaries hold, the code comes to the ends that
the body comes to. -/
def MethodCode.Implements (m : MethodCode) (s : Scope) (body : List Stmt) : Prop :=
  ∀ (w : World) (env : Env) (vars : String → Value) (μ : Memory) (f : Final), env.Holds vars →
    (m.terminates w ⟨0, env, μ⟩ f ↔ s.finishes w body ⟨vars, μ⟩ f)

theorem Program.implements_of_lower {p : Program} (hp : p.Closed)
    (hd : p.analyze.diagnostics = []) {σ σ' : Supply} {code : ClassCode}
    (hl : (Symbols.ofProgram p).lower p σ = .ok code σ') :
    List.Forall₂ (fun d m => m.Implements (p.scopeOf d) d.body)
      p.classDecl.methods code.methods := by
  obtain ⟨ms, hms, rfl⟩ := Symbols.lower_eq_ok_iff.1 hl
  rw [p.paired_ofProgram] at hms
  have hsound : ∀ d ∈ p.classDecl.methods, (p.scopeOf d).Sound d.body := fun d => hp.sound hd
  refine ((List.forall₂_and_left _ _).2 ⟨hsound, hms.forall₂⟩).imp fun d m h => ?_
  obtain ⟨hs, σ₁, σ₂, body, hb, rfl⟩ := h
  intro w env vars μ f hv
  exact hs.terminates_iff (q := ⟨vars, μ⟩) w hb hv

theorem Program.implements_sum :
    Program.sum.Closed ∧ Program.sum.analyze.diagnostics = [] ∧
      ∃ code σ', (Symbols.ofProgram Program.sum).lower Program.sum {} = .ok code σ' ∧
        List.Forall₂ (fun d m => m.Implements (Program.sum.scopeOf d) d.body)
          Program.sum.classDecl.methods code.methods := by
  have h : (((Symbols.ofProgram Program.sum).lower Program.sum).run' {}).any fun _ => true := by
    decide +kernel
  obtain ⟨code, σ', hl, _⟩ := Lower.exists_of_any h
  exact ⟨closed_sum, analyze_sum, code, σ', hl, implements_of_lower closed_sum analyze_sum hl⟩

end SingleClass
