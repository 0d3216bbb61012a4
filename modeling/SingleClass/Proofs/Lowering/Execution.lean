import SingleClass.Proofs.Lowering.Evaluation
set_option autoImplicit false

/-!
Code that realizes a behaviour. `Realizes` says of code at a place in a method that every outcome of
the behaviour is what a run of the code comes to, and that a run which ends has an outcome behind it.
Sequences, conditionals and loops of such code realize the behaviours that they are built for.
-/

namespace SingleClass

namespace MethodCode

variable {m : MethodCode} {w : World}

inductive Reaches (m : MethodCode) (w : World) : Nat → Config → Config → Prop
  | refl {c : Config} : Reaches m w 0 c c
  | step {n : Nat} {c c₁ c₂ : Config} (h : m.step w c = some (.running c₁))
      (hr : Reaches m w n c₁ c₂) : Reaches m w (n + 1) c c₂

theorem Reaches.one {c c' : Config} (h : m.step w c = some (.running c')) : m.Reaches w 1 c c' :=
  .step h .refl

theorem Reaches.trans {n k : Nat} {c c₁ c₂ : Config} (h : m.Reaches w n c c₁)
    (h' : m.Reaches w k c₁ c₂) : m.Reaches w (n + k) c c₂ := by
  induction h with
  | refl => rwa [Nat.zero_add]
  | @step n _ _ _ hs _ ih =>
    have hn : n + 1 + k = (n + k) + 1 := by omega
    rw [hn]
    exact .step hs (ih h')

theorem run_step {n : Nat} {c c' : Config} (h : m.step w c = some (.running c')) :
    m.run w (n + 1) c = m.run w n c' := by
  simp only [run, h]

theorem run_mono {n : Nat} {c : Config} {f : Final} (h : m.run w n c = some f) :
    m.run w (n + 1) c = some f := by
  induction n generalizing c with
  | zero => simp [run] at h
  | succ n ih =>
    rw [run] at h ⊢
    cases hs : m.step w c with
    | none => simp [hs] at h
    | some p =>
      cases p with
      | finished f' => simpa [hs] using h
      | running c' =>
        simp only [hs] at h ⊢
        exact ih h

theorem run_mono_add {n k : Nat} {c : Config} {f : Final} (h : m.run w n c = some f) :
    m.run w (n + k) c = some f := by
  induction k with
  | zero => exact h
  | succ k ih => exact run_mono ih

theorem terminates_unique {c : Config} {f f' : Final} (h : m.terminates w c f)
    (h' : m.terminates w c f') : f = f' := by
  obtain ⟨n, hn⟩ := h
  obtain ⟨k, hk⟩ := h'
  have h₁ := run_mono_add (k := k) hn
  have h₂ := run_mono_add (k := n) hk
  rw [Nat.add_comm] at h₂
  exact Option.some.inj (h₁.symm.trans h₂)

theorem Reaches.exists_run {n k : Nat} {c c' : Config} {f : Final} (h : m.Reaches w n c c')
    (hk : m.run w k c = some f) : ∃ j, k = n + j ∧ m.run w j c' = some f := by
  induction h generalizing k with
  | refl => exact ⟨k, by omega, hk⟩
  | step hs _ ih =>
    cases k with
    | zero => simp [run] at hk
    | succ k =>
      rw [run_step hs] at hk
      obtain ⟨j, hj, hrun⟩ := ih hk
      exact ⟨j, by omega, hrun⟩

theorem Reaches.terminates {n : Nat} {c c' : Config} {f : Final} (h : m.Reaches w n c c')
    (ht : m.terminates w c' f) : m.terminates w c f := by
  induction h with
  | refl => exact ht
  | step hs _ ih =>
    obtain ⟨k, hk⟩ := ih ht
    exact ⟨k + 1, by rw [run_step hs, hk]⟩

theorem terminates_of_finished {c : Config} {f : Final} (h : m.step w c = some (.finished f)) :
    m.terminates w c f :=
  ⟨1, by simp only [run, h]⟩

theorem not_terminates_of_none {c : Config} (h : m.step w c = none) (f : Final) :
    ¬ m.terminates w c f := by
  intro ht
  obtain ⟨n, hn⟩ := ht
  cases n with
  | zero => simp [run] at hn
  | succ n => simp [run, h] at hn

def At (m : MethodCode) (k : Nat) (code : List Instr) : Prop := Located m.instrs k code

def Resolves (m : MethodCode) : Prop :=
  ∀ k l, m.instrs[k]? = some (.label l) → m.labels.position? l = some k

theorem step_plain {k : Nat} {i : Instr} (h : m.instrs[k]? = some i) (hi : i.isControl = false)
    (env : Env) (μ : Memory) :
    m.step w ⟨k, env, μ⟩ = match i.effect w env μ with
      | .returns env memory => some (.running { pc := k + 1, env, memory })
      | .fails memory => some (.finished (.failed memory))
      | .diverges => none := by
  unfold step
  simp only [h]
  cases i with
  | label l | ret v | goto l | branch o l => simp [Instr.isControl] at hi
  | _ => rfl

theorem step_label {k : Nat} {l : Label} (h : m.instrs[k]? = some (.label l)) (env : Env)
    (μ : Memory) :
    m.step w ⟨k, env, μ⟩ = some (.running ⟨k + 1, env, μ⟩) := by
  simp only [step, h]
  rfl

theorem step_goto {k p : Nat} {l : Label} (h : m.instrs[k]? = some (.goto l))
    (hl : m.labels.position? l = some p) (env : Env) (μ : Memory) :
    m.step w ⟨k, env, μ⟩ = some (.running ⟨p, env, μ⟩) := by
  simp only [step, h, jump, hl, Option.map_some]

/-- A run from `c` performs the action that gave the reply: where it gave a value, the run comes to a
configuration with its memory, related to the value by `next`. -/
def Performs {A : Type} (m : MethodCode) (w : World) (c : Config) (next : A → Config → Prop) :
    Reply Memory A → Prop
  | .returns a μ => ∃ n c', m.Reaches w n c c' ∧ c'.memory = μ ∧ next a c'
  | .fails μ => m.terminates w c (.failed μ)
  | .diverges => ∀ f, ¬ m.terminates w c f

theorem Performs.of_step {A : Type} {c c' : Config} {next : A → Config → Prop} {r : Reply Memory A}
    (hs : m.step w c = some (.running c')) (h : m.Performs w c' next r) : m.Performs w c next r := by
  cases r with
  | returns a μ =>
    obtain ⟨n, c₂, hr, hμ, hn⟩ := h
    exact ⟨n + 1, c₂, .step hs hr, hμ, hn⟩
  | fails μ => exact (Reaches.one hs).terminates h
  | diverges =>
    intro f ht
    obtain ⟨k, hk⟩ := ht
    obtain ⟨j, _, hj⟩ := (Reaches.one hs).exists_run hk
    exact h f ⟨j, hj⟩

theorem performs_effects {code : List Instr} (hplain : ∀ i ∈ code, i.isControl = false) {k : Nat}
    (hat : m.At k code) (env : Env) (μ : Memory) :
    m.Performs w ⟨k, env, μ⟩ (fun env' c => c.pc = k + code.length ∧ c.env = env')
      (Instr.effects w code env μ) := by
  induction code generalizing k env μ with
  | nil => exact ⟨0, _, .refl, rfl, rfl, rfl⟩
  | cons i code ih =>
    have hstep := step_plain (w := w) hat.head (hplain i (by simp)) env μ
    simp only [Instr.effects]
    rw [Action.bind_apply]
    cases he : i.effect w env μ with
    | fails μ' =>
      rw [he] at hstep
      exact terminates_of_finished hstep
    | diverges =>
      rw [he] at hstep
      exact not_terminates_of_none hstep
    | returns env' μ' =>
      rw [he] at hstep
      have hrest := ih (fun j hj => hplain j (by simp [hj])) hat.tail env' μ'
      have hlen : k + (i :: code).length = k + 1 + code.length := by
        simp only [List.length_cons]
        omega
      rw [hlen]
      exact hrest.of_step hstep

theorem performs_simulated {A : Type} {code : List Instr} {n k : Nat} {env : Env}
    {x : Action Memory A} {R : Env → A → Prop} (h : Simulates w n code env x R)
    (hplain : ∀ i ∈ code, i.isControl = false) (hat : m.At k code) (μ : Memory) :
    m.Performs w ⟨k, env, μ⟩
      (fun a c => c.pc = k + code.length ∧ Env.Keeps n env c.env ∧ R c.env a) (x μ) := by
  have heff := performs_effects (w := w) hplain hat env μ
  have hsim := h μ
  revert heff hsim
  cases Instr.effects w code env μ with
  | returns env' μ' =>
    intro heff hsim
    obtain ⟨j, c', hr, hμ, hpc, henv⟩ := heff
    subst henv
    revert hsim
    cases x μ with
    | returns a μ'' =>
      intro hsim
      cases hsim with
      | returns hR => exact ⟨j, c', hr, hμ, hpc, hR⟩
    | _ =>
      intro hsim
      cases hsim
  | fails μ' =>
    intro heff hsim
    revert hsim
    cases x μ with
    | fails μ'' =>
      intro hsim
      cases hsim
      exact heff
    | _ =>
      intro hsim
      cases hsim
  | diverges =>
    intro heff hsim
    revert hsim
    cases x μ with
    | diverges =>
      intro _
      exact heff
    | _ =>
      intro hsim
      cases hsim

/-- A run from `c` comes to the outcome; control that reaches the end of the code is at `k`. -/
def Arrives (m : MethodCode) (w : World) (c : Config) (k : Nat) : Outcome Value Memory → Prop
  | .normal q => ∃ n env, env.Holds q.vars ∧ m.Reaches w n c ⟨k, env, q.memory⟩
  | .returned v q => m.terminates w c (.returned v q.memory)
  | .failed q => m.terminates w c (.failed q.memory)

theorem Reaches.arrives {n k : Nat} {c c' : Config} {o : Outcome Value Memory}
    (h : m.Reaches w n c c') (ha : m.Arrives w c' k o) : m.Arrives w c k o := by
  cases o with
  | normal q =>
    obtain ⟨j, env, hv, hr⟩ := ha
    exact ⟨n + j, env, hv, h.trans hr⟩
  | returned v q => exact h.terminates ha
  | failed q => exact h.terminates ha

theorem Arrives.of_not_normal {k k' : Nat} {c : Config} {o : Outcome Value Memory}
    (h : m.Arrives w c k o) (ho : o.isNormal = false) : m.Arrives w c k' o := by
  cases o with
  | normal q => simp [Outcome.isNormal] at ho
  | _ => exact h

theorem Arrives.extend {k k' : Nat} {c : Config} {o : Outcome Value Memory} (h : m.Arrives w c k o)
    (hk : ∀ env μ, ∃ n, m.Reaches w n ⟨k, env, μ⟩ ⟨k', env, μ⟩) : m.Arrives w c k' o := by
  cases o with
  | normal q =>
    obtain ⟨j, env, hv, hr⟩ := h
    obtain ⟨n, hn⟩ := hk env q.memory
    exact ⟨j + n, env, hv, hr.trans hn⟩
  | _ => exact h

variable {A : Type} {c : Config} {next : A → Config → Prop}
  {x : (String → Value) → Action Memory A} {K : A → Behaviour Value Memory}
  {q : State Value Memory}

theorem Performs.arrives {k : Nat} {o : Outcome Value Memory}
    (h : m.Performs w c next (x q.vars q.memory)) (ho : Behaviour.andThen x K q o)
    (hK : ∀ a c', next a c' → K a ⟨q.vars, c'.memory⟩ o → m.Arrives w c' k o) :
    m.Arrives w c k o := by
  unfold Behaviour.andThen at ho
  revert h ho
  cases x q.vars q.memory with
  | returns a μ =>
    intro h ho
    obtain ⟨n, c', hr, rfl, hn⟩ := h
    exact hr.arrives (hK a c' hn ho)
  | fails μ =>
    intro h ho
    subst ho
    exact h
  | diverges =>
    intro _ ho
    exact ho.elim

theorem Performs.exists_outcome {n : Nat} {f : Final}
    (h : m.Performs w c next (x q.vars q.memory)) (hrun : m.run w n c = some f)
    (hK : ∀ a c' j, next a c' → j ≤ n → m.run w j c' = some f → ∃ o, K a ⟨q.vars, c'.memory⟩ o) :
    ∃ o, Behaviour.andThen x K q o := by
  unfold Behaviour.andThen
  revert h
  cases x q.vars q.memory with
  | returns a μ =>
    intro h
    obtain ⟨i, c', hr, rfl, hn⟩ := h
    obtain ⟨j, hj, hrun'⟩ := hr.exists_run hrun
    exact hK a c' j hn (by omega) hrun'
  | fails μ =>
    intro _
    exact ⟨_, rfl⟩
  | diverges =>
    intro h
    exact (h f ⟨n, hrun⟩).elim

end MethodCode

/-- Code at `k` realizes a behaviour: its outcomes are what runs come to, and a run that ends has one. -/
structure Realizes (m : MethodCode) (w : World) (k : Nat) (code : List Instr)
    (b : Behaviour Value Memory) : Prop where
  arrives : ∀ {env : Env} {q : State Value Memory} {o : Outcome Value Memory},
    env.Holds q.vars → b q o → m.Arrives w ⟨k, env, q.memory⟩ (k + code.length) o
  exists_outcome : ∀ {env : Env} {q : State Value Memory} {f : Final},
    env.Holds q.vars → m.terminates w ⟨k, env, q.memory⟩ f → ∃ o, b q o

namespace Realizes

variable {m : MethodCode} {w : World} {k : Nat}

theorem nil : Realizes m w k [] .done := by
  constructor
  · intro env q o hv ho
    subst ho
    exact ⟨0, env, hv, .refl⟩
  · intro env q f _ _
    exact ⟨_, rfl⟩

theorem seq {code rest : List Instr} {b b' : Behaviour Value Memory} (h : Realizes m w k code b)
    (h' : Realizes m w (k + code.length) rest b') : Realizes m w k (code ++ rest) (.seq b b') := by
  have hlen : k + (code ++ rest).length = k + code.length + rest.length := by
    rw [List.length_append]
    omega
  constructor
  · intro env q o hv ho
    rw [hlen]
    rcases ho with ⟨q', hb, hb'⟩ | ⟨hb, hnormal⟩
    · obtain ⟨n, env', hv', hr⟩ := h.arrives hv hb
      exact hr.arrives (h'.arrives hv' hb')
    · exact (h.arrives hv hb).of_not_normal hnormal
  · intro env q f hv ht
    obtain ⟨o, hb⟩ := h.exists_outcome hv ht
    have ha := h.arrives hv hb
    cases o with
    | normal q' =>
      obtain ⟨n, env', hv', hr⟩ := ha
      obtain ⟨j, hj⟩ := ht
      obtain ⟨i, _, hi⟩ := hr.exists_run hj
      obtain ⟨o, ho⟩ := h'.exists_outcome hv' ⟨i, hi⟩
      exact ⟨o, .inl ⟨q', hb, ho⟩⟩
    | returned v q' => exact ⟨_, .inr ⟨hb, rfl⟩⟩
    | failed q' => exact ⟨_, .inr ⟨hb, rfl⟩⟩

theorem effect {A : Type} {code : List Instr} {n : Nat} {x : (String → Value) → Action Memory A}
    {R : Env → A → Prop} (hplain : ∀ i ∈ code, i.isControl = false) (hat : m.At k code)
    (h : ∀ env vars, env.Holds vars → Simulates w n code env (x vars) R) :
    Realizes m w k code (.andThen x fun _ => .done) := by
  constructor
  · intro env q o hv ho
    have hp := m.performs_simulated (h env q.vars hv) hplain hat q.memory
    refine hp.arrives ho ?_
    rintro a ⟨pc, env', μ⟩ ⟨rfl, hk, _⟩ ho
    subst ho
    exact ⟨0, env', hv.keep hk, .refl⟩
  · rintro env q f hv ⟨j, hj⟩
    have hp := m.performs_simulated (h env q.vars hv) hplain hat q.memory
    exact hp.exists_outcome hj fun _ _ _ _ _ _ => ⟨_, rfl⟩

theorem value {code : List Instr} {n : Nat} {x : (String → Value) → Action Memory Value}
    {o : Operand} {i : Instr} {K : Value → Behaviour Value Memory}
    (hplain : ∀ j ∈ code, j.isControl = false) (hat : m.At k (code ++ [i]))
    (h : ∀ env vars, env.Holds vars →
      Simulates w n code env (x vars) fun env' v => o.read w env' = some v)
    (hK : ∀ env q v, env.Holds q.vars → o.read w env = some v → ∃ out, K v q out ∧
      ∀ out', K v q out' → m.Arrives w ⟨k + code.length, env, q.memory⟩ (k + code.length + 1) out') :
    Realizes m w k (code ++ [i]) (.andThen x K) := by
  have hlen : k + (code ++ [i]).length = k + code.length + 1 := by
    simp only [List.length_append, List.length_singleton]
    omega
  constructor
  · intro env q out hv ho
    rw [hlen]
    have hp := m.performs_simulated (h env q.vars hv) hplain hat.left q.memory
    refine hp.arrives ho ?_
    rintro v ⟨pc, env', μ⟩ ⟨rfl, hk, hread⟩ ho
    obtain ⟨_, _, ha⟩ := hK env' ⟨q.vars, μ⟩ v (hv.keep hk) hread
    exact ha out ho
  · rintro env q f hv ⟨j, hj⟩
    have hp := m.performs_simulated (h env q.vars hv) hplain hat.left q.memory
    refine hp.exists_outcome hj ?_
    rintro v ⟨pc, env', μ⟩ _ ⟨rfl, hk, hread⟩ _ _
    obtain ⟨out, hout, _⟩ := hK env' ⟨q.vars, μ⟩ v (hv.keep hk) hread
    exact ⟨out, hout⟩

end Realizes

/-- The code at `k` decides a test: it goes on at `p` where the test holds and at `p'` where not. -/
def Decides (m : MethodCode) (w : World) (k p p' : Nat)
    (test : (String → Value) → Action Memory Bool) : Prop :=
  ∀ env vars μ, env.Holds vars →
    m.Performs w ⟨k, env, μ⟩ (fun b c => c.pc = (if b then p else p') ∧ c.env.Holds vars)
      (test vars μ)

theorem MethodCode.step_branch {m : MethodCode} {w : World} {k p : Nat} {o : Operand} {l : Label}
    {v : Value} {env : Env} {μ : Memory} (hk : m.instrs[k]? = some (.branch o l))
    (hv : o.read w env = some v) (hl : m.labels.position? l = some p) :
    m.step w ⟨k, env, μ⟩ = match v with
      | .bool true => some (.running ⟨p, env, μ⟩)
      | .bool false => some (.running ⟨k + 1, env, μ⟩)
      | _ => some (.finished (.failed μ)) := by
  simp only [MethodCode.step, hk, hv, MethodCode.jump, hl, Option.map_some]
  rcases v with _ | b | _
  · rfl
  · cases b <;> rfl
  · rfl

theorem decides_of_simulates {m : MethodCode} {w : World} {k n p : Nat} {cf : Fragment} {l : Label}
    {E : Evaluator Value Memory} {e : Expr}
    (htruth : ∀ v, E.truth v = match v with | .bool b => some b | _ => none)
    (hplain : ∀ i ∈ cf.code, i.isControl = false)
    (hat : m.At k (cf.code ++ [.branch cf.operand l])) (hl : m.labels.position? l = some p)
    (h : ∀ env vars, env.Holds vars →
      Simulates w n cf.code env (E.eval vars e) fun env' v => cf.operand.read w env' = some v) :
    Decides m w k p (k + cf.code.length + 1) (E.test e) := by
  intro env vars μ hv
  have hp := m.performs_simulated (h env vars hv) hplain hat.left μ
  have hbranch := hat.right.head
  unfold Evaluator.test
  rw [Action.bind_apply]
  revert hp
  cases E.eval vars e μ with
  | fails μ' => exact id
  | diverges => exact id
  | returns v μ' =>
    intro hp
    obtain ⟨j, ⟨pc, env', μ''⟩, hr, rfl, rfl, hk, hread⟩ := hp
    simp only [htruth]
    have hstep := MethodCode.step_branch (μ := μ'') hbranch hread hl
    rcases v with _ | b | _
    · exact hr.terminates (MethodCode.terminates_of_finished hstep)
    · cases b with
      | true => exact ⟨_, _, hr.trans (.one hstep), rfl, rfl, hv.keep hk⟩
      | false => exact ⟨_, _, hr.trans (.one hstep), rfl, rfl, hv.keep hk⟩
    · exact hr.terminates (MethodCode.terminates_of_finished hstep)

namespace Realizes

variable {m : MethodCode} {w : World} {k : Nat}

theorem condCode_at {n : Nat} {cf : Fragment} {tc ec : List Instr}
    (h : m.At k (condCode n cf tc ec)) :
    m.At k (cf.code ++ [.branch cf.operand ⟨"then", n⟩]) ∧ m.At (k + cf.code.length + 1) ec ∧
      m.At (k + cf.code.length + 1 + ec.length) [.goto ⟨"endif", n⟩, .label ⟨"then", n⟩] ∧
      m.At (k + cf.code.length + 1 + ec.length + 2) tc ∧
      m.At (k + cf.code.length + 1 + ec.length + 2 + tc.length) [.label ⟨"endif", n⟩] := by
  have h₁ := h.left
  have h₂ := h₁.left
  have h₃ := h₂.left
  refine ⟨h₃.left, ?_, ?_, ?_, ?_⟩
  · exact h₃.right.cast (by simp only [List.length_append, List.length_singleton]; omega)
  · exact h₂.right.cast (by simp only [List.length_append, List.length_singleton]; omega)
  · exact h₁.right.cast (by
      simp only [List.length_append, List.length_cons, List.length_nil]
      omega)
  · exact h.right.cast (by
      simp only [List.length_append, List.length_cons, List.length_nil]
      omega)

theorem cond {n : Nat} {cf : Fragment} {tc ec : List Instr}
    {test : (String → Value) → Action Memory Bool} {bt be : Behaviour Value Memory}
    (hat : m.At k (condCode n cf tc ec)) (hres : m.Resolves)
    (htest : Decides m w k (k + cf.code.length + 1 + ec.length + 1) (k + cf.code.length + 1) test)
    (ht : Realizes m w (k + cf.code.length + 1 + ec.length + 2) tc bt)
    (he : Realizes m w (k + cf.code.length + 1) ec be) :
    Realizes m w k (condCode n cf tc ec) (.andThen test fun
      | true => bt
      | false => be) := by
  obtain ⟨_, _, hjump, _, hend⟩ := condCode_at hat
  have hthen := hjump.tail.head
  -- both branches come to the marker behind the `then` branch
  have hpass := m.step_label (w := w) hend.head
  have hskip := m.step_goto (w := w) hjump.head (hres _ _ hend.head)
  have hlen : k + (condCode n cf tc ec).length =
      k + cf.code.length + 1 + ec.length + 2 + tc.length + 1 := by
    simp only [condCode, List.length_append, List.length_cons, List.length_nil]
    omega
  constructor
  · intro env q o hv ho
    rw [hlen]
    refine (htest env q.vars q.memory hv).arrives ho ?_
    rintro b ⟨pc, env', μ⟩ ⟨hpc, hv'⟩ hb
    simp only at hpc
    subst hpc
    cases b with
    | true =>
      have ha := (ht.arrives (q := ⟨q.vars, μ⟩) hv' hb).extend fun env μ => ⟨1, .one (hpass env μ)⟩
      exact (MethodCode.Reaches.one (m.step_label hthen _ _)).arrives ha
    | false =>
      exact (he.arrives (q := ⟨q.vars, μ⟩) hv' hb).extend fun env μ =>
        ⟨2, .step (hskip env μ) (.one (hpass env μ))⟩
  · rintro env q f hv ⟨j, hj⟩
    refine (htest env q.vars q.memory hv).exists_outcome hj ?_
    rintro b ⟨pc, env', μ⟩ i ⟨hpc, hv'⟩ _ hi
    simp only at hpc
    subst hpc
    cases b with
    | true =>
      obtain ⟨i', _, hi'⟩ := (MethodCode.Reaches.one (m.step_label hthen _ _)).exists_run hi
      exact ht.exists_outcome (q := ⟨q.vars, μ⟩) hv' ⟨i', hi'⟩
    | false => exact he.exists_outcome (q := ⟨q.vars, μ⟩) hv' ⟨i, hi⟩

theorem loopCode_at {n : Nat} {cf : Fragment} {bc : List Instr} (h : m.At k (loopCode n cf bc)) :
    m.At k [.label ⟨"whilecond", n⟩] ∧
      m.At (k + 1) (cf.code ++ [.branch cf.operand ⟨"whilebody", n⟩]) ∧
      m.At (k + 1 + cf.code.length + 1) [.goto ⟨"whileend", n⟩, .label ⟨"whilebody", n⟩] ∧
      m.At (k + 1 + cf.code.length + 3) bc ∧
      m.At (k + 1 + cf.code.length + 3 + bc.length)
        [.goto ⟨"whilecond", n⟩, .label ⟨"whileend", n⟩] := by
  rw [loopCode_eq] at h
  have h₁ := h.right
  have h₂ := h₁.right
  have h₃ := h₂.right
  simp only [List.length_append, List.length_cons, List.length_nil] at h₁ h₂ h₃
  exact ⟨h.left, h₁.left, h₂.left.cast (by omega), h₃.left.cast (by omega),
    h₃.right.cast (by omega)⟩

theorem loop_of_test {test : (String → Value) → Action Memory Bool} {body : Behaviour Value Memory}
    {q : State Value Memory} {o : Outcome Value Memory}
    (h : Behaviour.andThen test (fun
      | true => .seq body (.Loop test body)
      | false => .done) q o) : Behaviour.Loop test body q o := by
  unfold Behaviour.andThen at h
  cases ht : test q.vars q.memory with
  | returns b μ =>
    rw [ht] at h
    cases b with
    | true =>
      rcases h with ⟨q', hb, hl⟩ | ⟨hb, ho⟩
      · exact .again ht hb hl
      · exact .leave ht hb ho
    | false =>
      simp only [Behaviour.done] at h
      subst h
      exact .stop ht
  | fails μ =>
    rw [ht] at h
    simp only at h
    subst h
    exact .fail ht
  | diverges =>
    rw [ht] at h
    exact h.elim

theorem loop {n : Nat} {cf : Fragment} {bc : List Instr}
    {test : (String → Value) → Action Memory Bool} {body : Behaviour Value Memory}
    (hat : m.At k (loopCode n cf bc)) (hres : m.Resolves)
    (htest : Decides m w (k + 1) (k + 1 + cf.code.length + 2) (k + 1 + cf.code.length + 1) test)
    (hb : Realizes m w (k + 1 + cf.code.length + 3) bc body) :
    Realizes m w k (loopCode n cf bc) (.Loop test body) := by
  obtain ⟨hhead, _, hjump, _, hend⟩ := loopCode_at hat
  have henter := m.step_label (w := w) hhead.head
  have hinto := m.step_label (w := w) hjump.tail.head
  have hback := m.step_goto (w := w) hend.head (hres _ _ hhead.head)
  have hout := m.step_goto (w := w) hjump.head (hres _ _ hend.tail.head)
  have hpass := m.step_label (w := w) hend.tail.head
  have hlen : k + (loopCode n cf bc).length = k + 1 + cf.code.length + 3 + bc.length + 1 + 1 := by
    simp only [loopCode, List.length_append, List.length_cons, List.length_nil]
    omega
  constructor
  · intro env q o hv ho
    rw [hlen]
    -- one round after the other; the configuration at the head holds the variables each time
    induction ho generalizing env with
    | @stop q μ ht =>
      have hp := htest env q.vars q.memory hv
      rw [ht] at hp
      obtain ⟨j, ⟨pc, env', ν⟩, hr, rfl, rfl, hv'⟩ := hp
      refine (MethodCode.Reaches.one (henter env q.memory)).arrives (hr.arrives ?_)
      exact ⟨2, env', hv', .step (hout env' _) (.one (hpass env' _))⟩
    | @fail q μ ht =>
      have hp := htest env q.vars q.memory hv
      rw [ht] at hp
      exact (MethodCode.Reaches.one (henter env q.memory)).terminates hp
    | @leave q μ o ht hbody ho =>
      have hp := htest env q.vars q.memory hv
      rw [ht] at hp
      obtain ⟨j, ⟨pc, env', ν⟩, hr, rfl, rfl, hv'⟩ := hp
      refine (MethodCode.Reaches.one (henter env q.memory)).arrives (hr.arrives ?_)
      refine (MethodCode.Reaches.one (hinto env' _)).arrives ?_
      exact (hb.arrives (q := ⟨q.vars, ν⟩) hv' hbody).of_not_normal ho
    | @again q q' μ o ht hbody _ ih =>
      have hp := htest env q.vars q.memory hv
      rw [ht] at hp
      obtain ⟨j, ⟨pc, env', ν⟩, hr, rfl, rfl, hv'⟩ := hp
      refine (MethodCode.Reaches.one (henter env q.memory)).arrives (hr.arrives ?_)
      refine (MethodCode.Reaches.one (hinto env' _)).arrives ?_
      obtain ⟨i, env₂, hv₂, hr₂⟩ := hb.arrives (q := ⟨q.vars, ν⟩) hv' hbody
      exact hr₂.arrives ((MethodCode.Reaches.one (hback env₂ _)).arrives (ih hv₂))
  · rintro env q f hv ⟨j, hj⟩
    -- each round takes steps, so the rest of the run is shorter
    induction j using Nat.strongRecOn generalizing env q with
    | _ j ih =>
      obtain ⟨j₁, hj₁, hrun⟩ := (MethodCode.Reaches.one (henter env q.memory)).exists_run hj
      have htests := (htest env q.vars q.memory hv).exists_outcome hrun
        (K := fun
          | true => .seq body (.Loop test body)
          | false => .done) ?_
      · obtain ⟨o, ho⟩ := htests
        exact ⟨o, loop_of_test ho⟩
      · rintro b ⟨pc, env', μ⟩ i ⟨hpc, hv'⟩ hi hrun'
        simp only at hpc
        subst hpc
        cases b with
        | false => exact ⟨_, rfl⟩
        | true =>
          obtain ⟨i₁, hi₁, hrun₁⟩ := (MethodCode.Reaches.one (hinto env' μ)).exists_run hrun'
          obtain ⟨o, ho⟩ := hb.exists_outcome (q := ⟨q.vars, μ⟩) hv' ⟨i₁, hrun₁⟩
          have ha := hb.arrives (q := ⟨q.vars, μ⟩) hv' ho
          cases o with
          | normal q' =>
            obtain ⟨i₂, env₂, hv₂, hr₂⟩ := ha
            have hr₃ := hr₂.trans (.one (hback env₂ q'.memory))
            obtain ⟨i₃, hi₃, hrun₃⟩ := hr₃.exists_run hrun₁
            obtain ⟨o, hl⟩ := ih i₃ (by omega) hv₂ hrun₃
            exact ⟨o, .inl ⟨q', ho, hl⟩⟩
          | returned v q' => exact ⟨_, .inr ⟨ho, rfl⟩⟩
          | failed q' => exact ⟨_, .inr ⟨ho, rfl⟩⟩

end Realizes

end SingleClass
