import SingleClass.Proofs.Lowering.ControlFlow
set_option autoImplicit false

/-!
Control never comes to the end of a body that must return.

A step goes to the next instruction or to the marker of a label, whatever the variables, the memory and
the results of calls are (`MethodCode.step_pc`), so it is enough to follow positions. The code of a
statement that must return has positions, its first among them, that control does not leave, and the
end is none of them (`Scope.LowersStmt.traps`). The return that closes a method with a value behind
such code is dead (`Scope.pc_lt_of_anyReturns`).
-/

namespace SingleClass

/-- Control can go on to the next instruction. A branch on the literal `true` always jumps. -/
def Instr.fallsThrough : Instr → Bool
  | .ret _ | .goto _ => false
  | .branch condition _ => condition ≠ .bool true
  | _ => true

theorem Instr.fallsThrough_of_plain {i : Instr} (h : i.isControl = false) : i.fallsThrough = true := by
  cases i <;> simp_all [Instr.isControl, Instr.fallsThrough]

theorem Instr.target?_of_plain {i : Instr} (h : i.isControl = false) : i.target? = none := by
  cases i <;> simp_all [Instr.isControl, Instr.target?]

namespace MethodCode

variable {m : MethodCode}

/-- Steps from one configuration to another, each in a world of its own: a call may give back anything,
every time. -/
inductive Visits (m : MethodCode) : Config → Config → Prop
  | refl {c : Config} : Visits m c c
  | step {w : World} {c c₁ c₂ : Config} (h : m.step w c = some (.running c₁))
      (hr : Visits m c₁ c₂) : Visits m c c₂

theorem step_pc {w : World} {c c' : Config} (h : m.step w c = some (.running c')) :
    ∃ i, m.instrs[c.pc]? = some i ∧ (i.fallsThrough = true ∧ c'.pc = c.pc + 1 ∨
      ∃ l, i.target? = some l ∧ m.labels.position? l = some c'.pc) := by
  obtain ⟨pc, env, μ⟩ := c
  cases hi : m.instrs[pc]? with
  | none => simp [step, hi] at h
  | some i =>
    refine ⟨i, rfl, ?_⟩
    cases hcontrol : i.isControl with
    | false =>
      rw [m.step_plain hi hcontrol] at h
      cases heffect : i.effect w env μ with
      | returns env' μ' =>
        rw [heffect] at h
        cases h
        exact .inl ⟨Instr.fallsThrough_of_plain hcontrol, rfl⟩
      | fails μ' =>
        rw [heffect] at h
        cases h
      | diverges =>
        rw [heffect] at h
        cases h
    | true =>
      cases i with
      | label l =>
        rw [m.step_label hi] at h
        cases h
        exact .inl ⟨rfl, rfl⟩
      | goto l =>
        simp only [step, hi, jump, Option.map_eq_some_iff] at h
        obtain ⟨position, hl, heq⟩ := h
        cases heq
        exact .inr ⟨l, rfl, hl⟩
      | branch o l =>
        simp only [step, hi] at h
        split at h
        · simp only [jump, Option.map_eq_some_iff] at h
          obtain ⟨position, hl, heq⟩ := h
          cases heq
          exact .inr ⟨l, rfl, hl⟩
        · next hread =>
          cases h
          refine .inl ⟨?_, rfl⟩
          simp only [Instr.fallsThrough, decide_eq_true_eq]
          rintro rfl
          cases hread
        · cases h
      | ret v =>
        cases v with
        | none => simp [step, hi] at h
        | some o =>
          simp only [step, hi] at h
          split at h <;> cases h
      | _ => cases hcontrol

/-- Control that is at one of the positions stays at them. -/
def Retains (m : MethodCode) (P : Nat → Prop) : Prop :=
  ∀ k i, P k → m.instrs[k]? = some i → (i.fallsThrough = true → P (k + 1)) ∧
    ∀ l k', i.target? = some l → m.labels.position? l = some k' → P k'

theorem Retains.step {P : Nat → Prop} (h : m.Retains P) {w : World} {c c' : Config}
    (hs : m.step w c = some (.running c')) (hc : P c.pc) : P c'.pc := by
  obtain ⟨i, hi, hlead⟩ := step_pc hs
  obtain ⟨hnext, hjump⟩ := h c.pc i hc hi
  rcases hlead with ⟨hfalls, hpc⟩ | ⟨l, hl, hpc⟩
  · rw [hpc]
    exact hnext hfalls
  · exact hjump l _ hl hpc

theorem Retains.visits {P : Nat → Prop} (h : m.Retains P) {c c' : Config} (hv : m.Visits c c')
    (hc : P c.pc) : P c'.pc := by
  induction hv with
  | refl => exact hc
  | step hs _ ih => exact ih (h.step hs hc)

theorem position_of_enclosed (hres : m.Resolves) {k j k' : Nat} {code : List Instr} {i : Instr}
    {l : Label} (hcode : Enclosed code) (hat : m.At k code) (hj : j < code.length)
    (hi : m.instrs[k + j]? = some i) (hl : i.target? = some l)
    (hk' : m.labels.position? l = some k') : k ≤ k' ∧ k' < k + code.length := by
  rw [hat.getElem?_add hj] at hi
  have htarget : l ∈ targets code := List.mem_filterMap.2 ⟨i, List.mem_of_getElem? hi, hl⟩
  obtain ⟨q, hq, hmark⟩ := List.mem_iff_getElem.1 (mem_markers.1 (hcode.jumps htarget))
  have hmark' : m.instrs[k + q]? = some (.label l) := by
    rw [hat.getElem?_add hq, List.getElem?_eq_getElem hq, hmark]
  rw [hres _ _ hmark'] at hk'
  cases hk'
  omega

/-- Control that comes to the first of the instructions stays among them: it keeps to positions that
it cannot leave. -/
def Traps (m : MethodCode) (k : Nat) (code : List Instr) : Prop :=
  ∃ P : Nat → Prop, P k ∧ (∀ p, P p → k ≤ p ∧ p < k + code.length) ∧ m.Retains P

theorem Traps.pc_lt {k : Nat} {code : List Instr} (h : m.Traps k code) {c c' : Config}
    (hv : m.Visits c c') (hc : c.pc = k) : c'.pc < k + code.length := by
  obtain ⟨P, hstart, hrange, hretains⟩ := h
  exact (hrange _ (hretains.visits hv (hc ▸ hstart))).2

namespace Traps

variable {k : Nat}

theorem left {code : List Instr} (h : m.Traps k code) (rest : List Instr) :
    m.Traps k (code ++ rest) := by
  obtain ⟨P, hstart, hrange, hretains⟩ := h
  refine ⟨P, hstart, fun p hp => ?_, hretains⟩
  have := hrange p hp
  simp only [List.length_append]
  omega

theorem right {code rest : List Instr} (hres : m.Resolves) (hcode : Enclosed code)
    (hat : m.At k code) (h : m.Traps (k + code.length) rest) : m.Traps k (code ++ rest) := by
  obtain ⟨P, hstart, hrange, hretains⟩ := h
  refine ⟨fun p => k ≤ p ∧ p < k + code.length ∨ P p, ?_, ?_, ?_⟩
  · by_cases hlen : code.length = 0
    · rw [hlen] at hstart
      exact .inr hstart
    · exact .inl (by omega)
  · intro p hp
    simp only [List.length_append]
    rcases hp with hp | hp
    · omega
    · have := hrange p hp
      omega
  · intro p i hp hi
    rcases hp with ⟨hlo, hhi⟩ | hp
    · obtain ⟨j, rfl⟩ := Nat.exists_eq_add_of_le hlo
      have hj : j < code.length := by omega
      refine ⟨fun _ => ?_, fun l k' hl hk' => .inl (position_of_enclosed hres hcode hat hj hi hl hk')⟩
      by_cases hlast : j + 1 = code.length
      · rw [Nat.add_assoc, hlast]
        exact .inr hstart
      · exact .inl (by omega)
    · obtain ⟨hnext, hjump⟩ := hretains p i hp hi
      exact ⟨fun hf => .inr (hnext hf), fun l k' hl hk' => .inr (hjump l k' hl hk')⟩

theorem ret {v : Option Operand} (hat : m.At k [.ret v]) : m.Traps k [.ret v] := by
  refine ⟨fun p => p = k, rfl, fun p hp => by simp [hp], ?_⟩
  intro p i hp hi
  rw [hp, hat.head] at hi
  cases hi
  exact ⟨by simp [Instr.fallsThrough], by simp [Instr.target?]⟩

theorem cond {n : Nat} {cf : Fragment} {tc ec : List Instr} (hres : m.Resolves)
    (hplain : ∀ i ∈ cf.code, i.isControl = false) (hat : m.At k (condCode n cf tc ec))
    (ht : m.Traps (k + cf.code.length + 1 + ec.length + 2) tc)
    (he : m.Traps (k + cf.code.length + 1) ec) : m.Traps k (condCode n cf tc ec) := by
  obtain ⟨htest, -, hjump, -, -⟩ := Realizes.condCode_at hat
  obtain ⟨T, hT, hTrange, hTretains⟩ := ht
  obtain ⟨E, hE, hErange, hEretains⟩ := he
  have hthen := hjump.tail.head
  have hlen : (condCode n cf tc ec).length = cf.code.length + 1 + ec.length + 2 + tc.length + 1 := by
    simp only [condCode, List.length_append, List.length_cons, List.length_nil]
  -- the test, the branches, and the marker between them
  refine ⟨fun p => k ≤ p ∧ p < k + cf.code.length + 1 ∨ E p ∨
    p = k + cf.code.length + 1 + ec.length + 1 ∨ T p, .inl (by omega), ?_, ?_⟩
  · intro p hp
    rw [hlen]
    rcases hp with hp | hp | hp | hp
    · omega
    · have := hErange p hp
      omega
    · omega
    · have := hTrange p hp
      omega
  · intro p i hp hi
    rcases hp with ⟨hlo, hhi⟩ | hp | hp | hp
    · obtain ⟨j, rfl⟩ := Nat.exists_eq_add_of_le hlo
      by_cases hj : j < cf.code.length
      · rw [htest.left.getElem?_add hj] at hi
        have hnone := Instr.target?_of_plain (hplain i (List.mem_of_getElem? hi))
        refine ⟨fun _ => .inl (by omega), fun l k' hl => ?_⟩
        rw [hnone] at hl
        cases hl
      · obtain rfl : j = cf.code.length := by omega
        rw [htest.right.head] at hi
        cases hi
        refine ⟨fun _ => .inr (.inl hE), fun l k' hl hk' => ?_⟩
        cases hl
        rw [hres _ _ hthen] at hk'
        cases hk'
        exact .inr (.inr (.inl rfl))
    · obtain ⟨hnext, hjump⟩ := hEretains p i hp hi
      exact ⟨fun hf => .inr (.inl (hnext hf)), fun l k' hl hk' => .inr (.inl (hjump l k' hl hk'))⟩
    · rw [hp, hthen] at hi
      cases hi
      rw [hp]
      exact ⟨fun _ => .inr (.inr (.inr hT)), by simp [Instr.target?]⟩
    · obtain ⟨hnext, hjump⟩ := hTretains p i hp hi
      exact ⟨fun hf => .inr (.inr (.inr (hnext hf))),
        fun l k' hl hk' => .inr (.inr (.inr (hjump l k' hl hk')))⟩

theorem loop {n : Nat} {bc : List Instr} (hres : m.Resolves) (hbody : Enclosed bc)
    (hat : m.At k (loopCode n { operand := .bool true } bc)) :
    m.Traps k (loopCode n { operand := .bool true } bc) := by
  obtain ⟨hhead, htest, hjump, hb, hback⟩ := Realizes.loopCode_at hat
  simp only [List.length_nil, List.nil_append, Nat.add_zero] at htest hjump hb hback
  have hinto := hjump.tail.head
  have hlen : (loopCode n { operand := .bool true } bc).length = bc.length + 6 := by
    simp only [loopCode, List.length_append, List.length_cons, List.length_nil]
    omega
  -- all but the jump to the end and the marker there
  refine ⟨fun p => p = k ∨ p = k + 1 ∨ k + 3 ≤ p ∧ p ≤ k + 4 + bc.length, .inl rfl, ?_, ?_⟩
  · intro p hp
    rw [hlen]
    omega
  · intro p i hp hi
    rcases hp with hp | hp | ⟨hlo, hhi⟩
    · rw [hp, hhead.head] at hi
      cases hi
      exact ⟨fun _ => .inr (.inl (by omega)), by simp [Instr.target?]⟩
    · rw [hp, htest.head] at hi
      cases hi
      refine ⟨by simp [Instr.fallsThrough], fun l k' hl hk' => ?_⟩
      cases hl
      rw [hres _ _ hinto] at hk'
      cases hk'
      exact .inr (.inr (by omega))
    · by_cases hmark : p = k + 3
      · rw [hmark, hinto] at hi
        cases hi
        exact ⟨fun _ => .inr (.inr (by omega)), by simp [Instr.target?]⟩
      · obtain ⟨j, rfl⟩ : ∃ j, p = k + 1 + 3 + j := ⟨p - (k + 4), by omega⟩
        by_cases hj : j < bc.length
        · refine ⟨fun _ => .inr (.inr (by omega)), fun l k' hl hk' => .inr (.inr ?_)⟩
          have := position_of_enclosed hres hbody hb hj hi hl hk'
          omega
        · obtain rfl : j = bc.length := by omega
          rw [hback.head] at hi
          cases hi
          refine ⟨by simp [Instr.fallsThrough], fun l k' hl hk' => .inl ?_⟩
          cases hl
          rw [hres _ _ hhead.head] at hk'
          cases hk'
          rfl

end Traps

end MethodCode

namespace Scope

theorem Lowers.of_literal? {s : Scope} {e : Expr} {v : Literal} (he : e.literal? = some v)
    {want : Expectation} {σ σ' : Supply} {f : Fragment} (h : s.Lowers e want σ f σ') :
    f = { operand := .ofLiteral v } := by
  fun_induction Expr.literal? e with
  | case1 v' p =>
    cases he
    cases h
    rfl
  | case2 e ih =>
    cases h with
    | paren h => exact ih he h
  | case3 => cases he

mutual

theorem LowersStmt.traps {s : Scope} {m : MethodCode} (hres : m.Resolves) {t : Stmt}
    {σ σ' : Supply} {code : List Instr} (h : s.LowersStmt t σ code σ') (ht : t.returns = true)
    {k : Nat} (hat : m.At k code) : m.Traps k code := by
  match h with
  | .block hb => exact hb.traps hres ht hat
  | .condThen _ _ => cases ht
  | .condElse hc he hthen =>
    simp only [Stmt.returns, Bool.and_eq_true] at ht
    obtain ⟨-, hatElse, -, hatThen, -⟩ := Realizes.condCode_at hat
    exact .cond hres hc.straight.1.plain hat (hthen.traps hres ht.1 hatThen)
      (he.traps hres ht.2 hatElse)
  | .loop hc hb =>
    simp only [Stmt.returns, decide_eq_true_eq] at ht
    obtain rfl := hc.of_literal? ht
    exact .loop hres hb.enclosed hat
  | .expr _ => cases ht
  | .assign _ => cases ht
  | .retNone => exact .ret hat
  | .retSome hv => exact .right hres hv.straight.1.enclosed hat.left (.ret hat.right)

theorem LowersBody.traps {s : Scope} {m : MethodCode} (hres : m.Resolves) {ts : List Stmt}
    {σ σ' : Supply} {code : List Instr} (h : s.LowersBody ts σ code σ')
    (ht : Stmt.anyReturns ts = true) {k : Nat} (hat : m.At k code) : m.Traps k code := by
  match h with
  | .nil => cases ht
  | .cons hfirst hrest =>
    simp only [Stmt.anyReturns, Bool.or_eq_true] at ht
    rcases ht with ht | ht
    · exact (hfirst.traps hres ht hat.left).left _
    · exact .right hres hfirst.enclosed hat.left (hrest.traps hres ht hat.right)

end

theorem anyReturns_of_reviewReturns {d : MethodDecl} {sig : Signature}
    (hvoid : sig.returnTy.isVoid = false) (h : d.reviewReturns sig = []) :
    Stmt.anyReturns d.body = true := by
  cases hreturns : Stmt.anyReturns d.body with
  | true => rfl
  | false => simp [MethodDecl.reviewReturns, hvoid, hreturns] at h

/-- A run of a method whose body must return stays in the code of the body, from every state and for
all that calls give back. In a method with a value that has passed the check of returns, the return
that closes the code is never reached. -/
theorem pc_lt_of_anyReturns {s : Scope} {d : MethodDecl} {σ σ' : Supply} {m : MethodCode}
    (h : s.lowerMethod d σ = .ok m σ') :
    ∃ body, s.lowerBody d.body σ = .ok body σ' ∧
      m.instrs = body ++ closing s.method.returnTy.asValue body ∧
      (Stmt.anyReturns d.body = true →
        ∀ c c' : Config, c.pc = 0 → m.Visits c c' → c'.pc < body.length) ∧
      (s.method.returnTy.isVoid = false → d.reviewReturns s.method = [] →
        ∀ c c' : Config, c.pc = 0 → m.Visits c c' → c'.pc < body.length) := by
  obtain ⟨body, hb, rfl⟩ := lowerMethod_eq_ok_iff.1 h
  have hat : (s.methodCode body).At 0 body := List.prefix_append _ _
  have hstays : Stmt.anyReturns d.body = true →
      ∀ c c' : Config, c.pc = 0 → (s.methodCode body).Visits c c' → c'.pc < body.length := by
    intro hreturns c c' hc hv
    have hlt := (hb.traps hb.resolves hreturns hat).pc_lt hv hc
    rwa [Nat.zero_add] at hlt
  exact ⟨body, lowerBody_eq_ok_iff.2 hb, rfl, hstays,
    fun hvoid hreview => hstays (anyReturns_of_reviewReturns hvoid hreview)⟩

end Scope

/-- A walk that ends in a loop on `(true)` or in a return, before a statement that is never reached. -/
def MethodDecl.walk : MethodDecl :=
  let n : Expr := .name "n" {}
  let int (k : Int32) : Expr := .literal (.int k) {}
  { name := "walk", returns := { name := "int" }
    params := [{ type := { name := "int" }, name := "n" }]
    body := [
      .cond (.binary .lt n (int 3) {})
        (.block [.loop (.paren (.literal (.bool true) {}))
          (.assign n (.binary .add n (int 1) {}) {}) {}] {})
        (some (.ret (some n) {})) {},
      .assign n (int 0) {}] }

theorem Scope.pc_lt_walk :
    let s : Scope := { symbols := { className := "Maze" }, method := .ofDecl .walk }
    MethodDecl.walk.reviewReturns s.method = [] ∧
      ∃ m σ' body, s.lowerMethod .walk {} = .ok m σ' ∧
        m.instrs = body ++ [.ret (some (.int 0))] ∧
        ∀ c c' : Config, c.pc = 0 → m.Visits c c' → c'.pc < body.length := by
  intro s
  have hreview : MethodDecl.walk.reviewReturns s.method = [] := by decide +kernel
  have h : ((s.lowerMethod .walk).run' {}).any fun _ => true := by decide +kernel
  have hclosing : ((s.lowerBody MethodDecl.walk.body).run' {}).any fun body =>
      closing s.method.returnTy.asValue body = [.ret (some (.int 0))] := by
    decide +kernel
  obtain ⟨m, σ', hm, -⟩ := Lower.exists_of_any h
  obtain ⟨body, hbody, hinstrs, -, hstays⟩ := pc_lt_of_anyReturns hm
  obtain ⟨body', _, hbody', hclosing⟩ := Lower.exists_of_any hclosing
  rw [hbody] at hbody'
  cases hbody'
  rw [decide_eq_true_eq] at hclosing
  rw [hclosing] at hinstrs
  exact ⟨hreview, m, σ', body, hm, hinstrs, hstays (by decide) hreview⟩

end SingleClass
