import SingleClass.Proofs.Behaviour.Code
import SingleClass.Proofs.Lowering.Numbering
import SingleClass.Proofs.Typing.Judgement
set_option autoImplicit false

/-!
The code of an expression computes what the expression evaluates to. A run of it gives the same reply
on the same memory, leaves the variables and all earlier temporaries alone, and ends where the operand
reads the value (`Lowers.simulates`).
-/

namespace SingleClass

/-- The same kind of reply on the same memory, with related values. -/
inductive Reply.Agrees {M A B : Type} (R : A → B → Prop) : Reply M A → Reply M B → Prop
  | returns {a : A} {b : B} {m : M} (h : R a b) : Agrees R (.returns a m) (.returns b m)
  | fails {m : M} : Agrees R (.fails m) (.fails m)
  | diverges : Agrees R .diverges .diverges

namespace Reply.Agrees

variable {M A B C D : Type}

theorem mono {R Q : A → B → Prop} {x : Reply M A} {y : Reply M B} (h : x.Agrees R y)
    (hRQ : ∀ a b, R a b → Q a b) : x.Agrees Q y := by
  cases h with
  | returns h => exact .returns (hRQ _ _ h)
  | fails => exact .fails
  | diverges => exact .diverges

theorem bind {R : A → B → Prop} {Q : C → D → Prop} {x : Action M A} {y : Action M B}
    {f : A → Action M C} {g : B → Action M D} {m : M} (h : (x m).Agrees R (y m))
    (hf : ∀ a b m', R a b → (f a m').Agrees Q (g b m')) : ((x >>= f) m).Agrees Q ((y >>= g) m) := by
  rw [Action.bind_apply, Action.bind_apply]
  cases hx : x m <;> cases hy : y m <;> rw [hx, hy] at h <;> cases h
  · rename_i hR
    exact hf _ _ _ hR
  · exact .fails
  · exact .diverges

end Reply.Agrees

theorem Action.bind_assoc {M A B C : Type} (x : Action M A) (f : A → Action M B)
    (g : B → Action M C) : (x >>= f) >>= g = x >>= fun a => f a >>= g := by
  funext m
  simp only [Action.bind_apply]
  cases x m <;> rfl

@[simp] theorem Action.bind_pure {M A : Type} (x : Action M A) : (x >>= pure) = x := by
  funext m
  rw [Action.bind_apply]
  cases x m <;> rfl

def Instr.effects (w : World) : List Instr → Env → Action Memory Env
  | [], env => pure env
  | i :: rest, env => do
    let env ← i.effect w env
    Instr.effects w rest env

theorem Instr.effects_append (w : World) (code rest : List Instr) (env : Env) :
    Instr.effects w (code ++ rest) env =
      Instr.effects w code env >>= Instr.effects w rest := by
  induction code generalizing env with
  | nil => rfl
  | cons i code ih =>
    simp only [List.cons_append, Instr.effects, Action.bind_assoc, ih]

structure Env.Keeps (n : Nat) (env env' : Env) : Prop where
  var : ∀ x, env' (.var x) = env (.var x)
  temp : ∀ i, i < n → env' (.temp i) = env (.temp i)

namespace Env.Keeps

theorem refl (n : Nat) (env : Env) : Env.Keeps n env env := ⟨fun _ => rfl, fun _ _ => rfl⟩

theorem trans {n k : Nat} {env env₁ env₂ : Env} (h : Env.Keeps n env env₁)
    (h' : Env.Keeps k env₁ env₂) (hk : n ≤ k) : Env.Keeps n env env₂ := by
  refine ⟨fun x => (h'.var x).trans (h.var x), ?_⟩
  intro i hi
  exact (h'.temp i (by omega)).trans (h.temp i hi)

theorem set (env : Env) {n i : Nat} (v : Value) (h : n ≤ i) :
    Env.Keeps n env (env.set (.temp i) v) := by
  refine ⟨fun x => Env.set_of_ne _ _ (by simp), ?_⟩
  intro k hk
  refine Env.set_of_ne _ _ ?_
  intro heq
  cases heq
  omega

theorem read {n : Nat} {env env' : Env} (h : Env.Keeps n env env') (w : World) {o : Operand}
    (ho : o.Below n) : o.read w env' = o.read w env := by
  cases o with
  | var x t => exact h.var x
  | temp t => exact h.temp t.id ho
  | _ => rfl

theorem readAll {n : Nat} {env env' : Env} (h : Env.Keeps n env env') (w : World)
    {os : List Operand} (ho : ∀ o ∈ os, o.Below n) :
    Operand.readAll w env' os = Operand.readAll w env os := by
  induction os with
  | nil => rfl
  | cons o os ih =>
    simp only [Operand.readAll, h.read w (ho o (by simp)), ih fun o' h' => ho o' (by simp [h'])]

end Env.Keeps

def Env.Holds (env : Env) (vars : String → Value) : Prop := ∀ x, env (.var x) = some (vars x)

theorem Env.Holds.keep {n : Nat} {env env' : Env} {vars : String → Value} (h : env.Holds vars)
    (hk : Env.Keeps n env env') : env'.Holds vars :=
  fun x => (hk.var x).trans (h x)

/-- The code does what the action does, and leaves what was there below `n`. -/
def Simulates {A : Type} (w : World) (n : Nat) (code : List Instr) (env : Env)
    (x : Action Memory A) (R : Env → A → Prop) : Prop :=
  ∀ m, (Instr.effects w code env m).Agrees (fun env' a => Env.Keeps n env env' ∧ R env' a) (x m)

namespace Simulates

variable {A B : Type} {w : World} {n : Nat} {env : Env}

theorem pure {a : A} {R : Env → A → Prop} (h : R env a) :
    Simulates w n [] env (Pure.pure a) R :=
  fun _ => .returns ⟨.refl n env, h⟩

theorem append {k : Nat} {code rest : List Instr} {x : Action Memory A} {f : A → Action Memory B}
    {R : Env → A → Prop} {Q : Env → B → Prop} (h : Simulates w n code env x R) (hk : n ≤ k)
    (hf : ∀ env' a, Env.Keeps n env env' → R env' a → Simulates w k rest env' (f a) Q) :
    Simulates w n (code ++ rest) env (x >>= f) Q := by
  intro m
  rw [Instr.effects_append]
  refine (h m).bind ?_
  intro env₁ a m' hR
  refine (hf env₁ a hR.1 hR.2 m').mono ?_
  intro env₂ b hQ
  exact ⟨hR.1.trans hQ.1 hk, hQ.2⟩

theorem cons {k : Nat} {i : Instr} {rest : List Instr} {x : Action Memory A}
    {f : A → Action Memory B} {R : Env → A → Prop} {Q : Env → B → Prop}
    (h : Simulates w n [i] env x R) (hk : n ≤ k)
    (hf : ∀ env' a, Env.Keeps n env env' → R env' a → Simulates w k rest env' (f a) Q) :
    Simulates w n (i :: rest) env (x >>= f) Q :=
  append h hk hf

theorem map {code : List Instr} {x : Action Memory A} {f : A → Action Memory B}
    {R : Env → A → Prop} {Q : Env → B → Prop} (h : Simulates w n code env x R)
    (hf : ∀ env' a, R env' a → ∃ b, f a = Pure.pure b ∧ Q env' b) :
    Simulates w n code env (x >>= f) Q := by
  intro m
  have hbind := (h m).bind (f := Pure.pure) (g := f)
    (Q := fun env' b => Env.Keeps n env env' ∧ Q env' b) ?_
  · simpa only [Action.bind_pure] using hbind
  · intro env' a m' hR
    obtain ⟨b, hb, hQ⟩ := hf env' a hR.2
    rw [hb]
    exact .returns ⟨hR.1, hQ⟩

theorem mono {code : List Instr} {x : Action Memory A} {R Q : Env → A → Prop}
    (h : Simulates w n code env x R) (hRQ : ∀ env' a, Env.Keeps n env env' → R env' a → Q env' a) :
    Simulates w n code env x Q :=
  fun m => (h m).mono fun _ _ hR => ⟨hR.1, hRQ _ _ hR.1 hR.2⟩

theorem define {i : Instr} {t : Temp} {x : Action Memory Value} (ht : n ≤ t.id)
    (hi : i.effect w env = x >>= fun v => Pure.pure (env.set (.temp t.id) v)) :
    Simulates w n [i] env x fun env' v => (Operand.temp t).read w env' = some v := by
  intro m
  simp only [Instr.effects, hi, Action.bind_pure]
  rw [Action.bind_apply]
  cases x m with
  | returns v m' => exact .returns ⟨.set env v ht, Env.set_self _ _ _⟩
  | fails m' => exact .fails
  | diverges => exact .diverges

theorem effect {i : Instr} {x : Action Memory A} {R : Env → A → Prop}
    (hi : i.effect w env = x >>= fun _ => Pure.pure env) (hR : ∀ a, R env a) :
    Simulates w n [i] env x R := by
  intro m
  simp only [Instr.effects, hi, Action.bind_pure]
  rw [Action.bind_apply]
  cases x m with
  | returns v m' => exact .returns ⟨.refl n env, hR v⟩
  | fails m' => exact .fails
  | diverges => exact .diverges

end Simulates

namespace Scope

noncomputable def evalPassed (s : Scope) (w : World) (vars : String → Value) :
    Passed → Action Memory Value
  | .direct e _ => s.eval w vars e
  | .packed element values => Memory.pack element.elementCell (values.map (s.eval w vars))

def PassedTyped (s : Scope) : Passed → Prop
  | .direct e _ => ∃ t, s.HasType e t
  | .packed _ values => ∃ ts, s.HaveTypes values ts

end Scope

theorem Action.all_append (xs ys : List (Action Memory Value)) :
    Action.all (xs ++ ys) = do
      let vs ← Action.all xs
      let us ← Action.all ys
      return vs ++ us := by
  induction xs with
  | nil =>
    simp only [List.nil_append, Action.all, Action.pure_bind]
    exact (Action.bind_pure _).symm
  | cons x xs ih =>
    simp only [List.cons_append, Action.all, ih, Action.bind_assoc, Action.pure_bind]

theorem Action.all_single (x : Action Memory Value) :
    Action.all [x] = x >>= fun v => pure [v] := by
  simp only [Action.all, Action.pure_bind]

theorem Simulates.args {w : World} {n k : Nat} {env : Env} {code rest : List Instr} {o : Operand}
    {os : List Operand} {x : Action Memory Value} {xs : List (Action Memory Value)}
    (hx : Simulates w n code env x fun env' v => o.read w env' = some v) (hk : n ≤ k)
    (ho : o.Below k)
    (hxs : ∀ env', Env.Keeps n env env' → Simulates w k rest env' (Action.all xs) fun env' vs =>
      Operand.readAll w env' os = some vs) :
    Simulates w n (code ++ rest) env (Action.all (x :: xs)) fun env' vs =>
      Operand.readAll w env' (o :: os) = some vs := by
  refine hx.append hk ?_
  intro env₁ v hk₁ hv
  have hboth : Simulates w k rest env₁ (Action.all xs) fun env' vs =>
      o.read w env' = some v ∧ Operand.readAll w env' os = some vs :=
    (hxs env₁ hk₁).mono fun env₂ vs hk₂ hvs => ⟨(hk₂.read w ho).trans hv, hvs⟩
  refine hboth.map ?_
  intro env₂ vs hread
  refine ⟨v :: vs, rfl, ?_⟩
  simp only [Operand.readAll, hread]
  rfl

namespace Scope

theorem map_fst_take_zip {A B : Type} (as : List A) (bs : List B) (k : Nat) (hk : k ≤ bs.length) :
    ((as.zip bs).take k).map Prod.fst = as.take k := by
  induction as generalizing bs k with
  | nil => simp
  | cons a as ih =>
    cases bs with
    | nil => simp_all
    | cons b bs =>
      cases k with
      | zero => rfl
      | succ k => simp [ih bs k (by simpa using hk)]

theorem map_evalPassed_direct (s : Scope) (w : World) (vars : String → Value) (c : Signature)
    (as : List Expr) :
    (((as.zip c.params).take c.fixedArity).map
      (fun (a, p) => Passed.direct a (.of p.ty.asValue))).map (s.evalPassed w vars) =
      (as.take c.fixedArity).map (s.eval w vars) := by
  rw [← map_fst_take_zip as c.params c.fixedArity c.fixedArity_le]
  simp only [List.map_map]
  rfl

/-- The stages pack what falls to a vararg exactly where the rule says so. -/
theorem passedLast_cases (s : Scope) (hs : s.Closed) {as : List Expr} {ts : List Ty}
    (has : s.HaveTypes as ts) (t : Ty) :
    (∃ e, as = [e] ∧ s.HasType e t.element.array ∧ s.passedLast t as = .direct e (.value t.asValue)) ∨
      ¬s.PassesArray t.element as ∧ s.passedLast t as = .packed t.element as := by
  have hself : ts.map Ty.asValue = ts := by
    rw [← has.typeHints_eq hs, List.map_map]
    rfl
  have hof : VarargPassing.of (as.map s.typeHint) t.element = .array ↔
      s.PassesArray t.element as := by
    rw [passesArray_iff hs has, ← VarargPassing.of_eq_array_iff hself rfl, ← has.typeHints_eq hs,
      VarargPassing.of_map_asValue]
  by_cases hpass : s.PassesArray t.element as
  · obtain ⟨e, rfl, he⟩ := hpass
    refine .inl ⟨e, rfl, he, ?_⟩
    unfold passedLast
    rw [hof.2 ⟨e, rfl, he⟩]
  · refine .inr ⟨hpass, ?_⟩
    have hpack : VarargPassing.of (as.map s.typeHint) t.element = .pack := by
      cases h : VarargPassing.of (as.map s.typeHint) t.element with
      | array => exact absurd (hof.1 h) hpass
      | pack => rfl
    unfold passedLast
    rw [hpack]

theorem passArguments_eq {s : Scope} (hs : s.Closed) {w : World} {vars : String → Value}
    {c : Signature} {as : List Expr} {ts : List Ty} (has : s.HaveTypes as ts)
    (h : c.arity.admits as.length = true) :
    s.passArguments c as (as.map (s.eval w vars)) =
      Action.all ((s.passed (some c) as).map (s.evalPassed w vars)) := by
  unfold passArguments passed
  simp only [List.map_append, map_evalPassed_direct]
  cases hv : c.vararg? with
  | none =>
    have hlen : as.length = c.fixedArity := by
      simpa [Signature.arity, hv, Arity.admits] using h
    simp [← hlen]
  | some v =>
    simp only [Option.toList_some, List.map_cons, List.map_nil, Action.all_append,
      Action.all_single, Action.bind_assoc, Action.pure_bind, List.map_take]
    congr 1
    funext fixed
    rw [← List.map_drop]
    rcases s.passedLast_cases hs (has.drop c.fixedArity) v.ty with ⟨e, hone, he, hpassed⟩ |
      ⟨hpass, hpassed⟩
    · rw [hpassed, hone, if_pos ⟨e, rfl, he⟩]
      rfl
    · rw [hpassed, if_neg hpass]
      rfl

theorem passed_typed {s : Scope} (hs : s.Closed) {c : Signature} {as : List Expr} {ts : List Ty}
    (has : s.HaveTypes as ts) : ∀ p ∈ s.passed (some c) as, s.PassedTyped p := by
  intro p hp
  rcases List.mem_append.1 hp with hp | hp
  · obtain ⟨⟨a, v⟩, hav, rfl⟩ := List.mem_map.1 hp
    exact has.exists_type a (List.of_mem_zip (List.mem_of_mem_take hav)).1
  · obtain ⟨v, _, rfl⟩ := List.mem_map.1 hp
    have hdrop := has.drop c.fixedArity
    rcases s.passedLast_cases hs hdrop v.ty with ⟨e, _, he, hpassed⟩ | ⟨_, hpassed⟩
    · rw [hpassed]
      exact ⟨_, he⟩
    · rw [hpassed]
      exact ⟨_, hdrop⟩

end Scope

theorem World.of_call {w : World} {method : String} {receiver : Option Value} {args : List Value}
    {ret : Ty} {r : Option Value} {m m' : Memory}
    (h : w.call method receiver args ret m = .returns r m') :
    (ret.isVoid = true → r = none) ∧
      (ret.isVoid = false → ∃ v, r = some v ∧ v.fits ret = true) := by
  unfold World.call at h
  rw [Action.bind_apply] at h
  cases hc : w.calls method receiver args m with
  | fails m₁ => simp [hc] at h
  | diverges => simp [hc] at h
  | returns r' m₁ =>
    simp only [hc, World.accept] at h
    cases hret : ret.isVoid with
    | true =>
      simp only [hret, if_true, Action.pure_apply, Reply.returns.injEq] at h
      exact ⟨fun _ => h.1.symm, by simp⟩
    | false =>
      simp only [hret, Bool.false_eq_true, if_false] at h
      cases r' with
      | none => simp [Action.fail] at h
      | some v =>
        by_cases hf : v.fits ret = true
        · simp only [hf, if_true, Action.pure_apply, Reply.returns.injEq] at h
          exact ⟨by simp, fun _ => ⟨v, h.1.symm, hf⟩⟩
        · simp [hf, Action.fail] at h

theorem Simulates.call {w : World} {n : Nat} {env : Env} {c : Call} {object : Value}
    {args : List Value} (hr : Operand.readAll w env c.receiver.toList = some [object])
    (ha : Operand.readAll w env c.args = some args)
    (hd : ∀ d ∈ c.dest, n ≤ d.id ∧ c.ret.isVoid = false) :
    Simulates w n [.call c] env (w.call c.method (some object) args c.ret) fun env' r =>
      ∀ d ∈ c.dest, ∃ v, r = some v ∧ env' (.temp d.id) = some v := by
  intro m
  simp only [Instr.effects, Instr.effect, hr, ha, Action.ofOption, Action.pure_bind,
    List.head?_cons, Action.bind_pure]
  rw [Action.bind_apply]
  cases hc : w.call c.method (some object) args c.ret m with
  | fails m' => exact .fails
  | diverges => exact .diverges
  | returns r m' =>
    cases hdest : c.dest with
    | none => exact .returns ⟨.refl n env, by simp⟩
    | some d =>
      obtain ⟨hn, hret⟩ := hd d hdest
      obtain ⟨v, rfl, _⟩ := (World.of_call hc).2 hret
      refine .returns ⟨.set env v hn, ?_⟩
      intro d' hd'
      cases hd'
      exact ⟨v, rfl, Env.set_self _ _ _⟩

namespace Scope

theorem invoke_eq {s : Scope} (hs : s.Closed) {w : World} {vars : String → Value} {t : Option Expr}
    {m : String} {as : List Expr} {c : Signature} {ts : List Ty}
    (hm : s.symbols.method? m = some c) (has : s.HaveTypes as ts) (hts : c.Takes ts) :
    s.invoke w (s.evalReceiver w vars t) m as (as.map (s.eval w vars)) =
      s.evalReceiver w vars t >>= fun object =>
        Action.all ((s.passed (some c) as).map (s.evalPassed w vars)) >>= fun passed =>
          w.call m (some object) passed c.returnTy := by
  unfold invoke
  simp only [hm, passArguments_eq hs has (has.length_eq ▸ hts.arity)]

theorem LowersSite.callee_eq {s : Scope} (hs : s.Closed) {t : Option Expr} {m : String}
    {σ σ' : Supply} {site : CallSite} (h : s.LowersSite t m σ site σ') (ht : s.Receives t) :
    site.callee = s.symbols.method? m := by
  cases h with
  | implicit => rfl
  | static hi => simp [hs.staticReceiver?_eq] at hi
  | receiver hn hty ho hl =>
    cases ht with
    | explicit he =>
      obtain ⟨ty, hty', hv, _⟩ := he.typeOf_eq hs
      have heq := Except.ok.inj (hty.symm.trans hty')
      have hkind : ty.kind = .named s.symbols.className := congrArg Ty.kind hv
      have harray : ty.isArray = false := congrArg Ty.isArray hv
      simp [Symbols.callee?, heq, hkind, harray]

theorem initElementTy_of_hint {t : Ty} (h : t.isEscape = false) (want : Expectation) :
    initElementTy t want = t.element := by
  simp [initElementTy, h]

theorem HasType.initElementTy_elementCell {s : Scope} (hs : s.Closed) {es : List Expr} {p : Span}
    {t : Ty} (h : s.HasType (.arrayInit es p) t) (want : Expectation) :
    (initElementTy (s.typeHint (.arrayInit es p)) want).elementCell = s.initCell es := by
  have hhint := h.typeHint_eq hs
  rw [initElementTy_of_hint hhint.2.isEscape]
  have hkind : (s.typeHint (.arrayInit es p)).kind = t.kind := by
    rw [← hhint.1]
    rfl
  cases h with
  | @arrayInit _ _ u ts hes hne hts harray =>
    have hnonempty : es ≠ [] := by
      rintro rfl
      cases hes
      exact hne rfl
    rw [initCell_of_hasType hs hnonempty (hes.hasType hts) harray, Ty.elementCell, Ty.elementCell]
    simp only [Ty.element, hkind, Ty.array]

mutual

theorem Lowers.simulates {s : Scope} (hs : s.Closed) (w : World) {e : Expr} {want : Expectation}
    {σ σ' : Supply} {f : Fragment} (h : s.Lowers e want σ f σ') :
    ∀ ⦃t : Ty⦄ ⦃env : Env⦄ ⦃vars : String → Value⦄, s.HasType e t → env.Holds vars →
      Simulates w σ.temps f.code env (s.eval w vars e) fun env' v =>
        f.operand.read w env' = some v := by
  match h with
  | .literal (v := v) =>
    intro t env vars _ _
    refine .pure ?_
    cases v <;> rfl
  | .var hb hf =>
    intro t env vars _ hv
    simp only [eval, evalName_of_var hb hf]
    exact .pure (hv _)
  | .field hf =>
    intro t env vars _ _
    simp only [eval, evalName, hf]
    exact .define (Nat.le_refl _) rfl
  | .this _ =>
    intro t env vars _ _
    exact .pure rfl
  | .binary hl hr =>
    have ihl := hl.simulates hs w
    have ihr := hr.simulates hs w
    intro t env vars ht hv
    cases ht with
    | binary _ hlt hrt =>
      simp only [eval, List.append_assoc]
      refine (ihl hlt hv).append hl.straight.1.le ?_
      intro env₁ a hk₁ ha
      refine (ihr hrt (hv.keep hk₁)).append hr.straight.1.le ?_
      intro env₂ b hk₂ hb
      have hread := (hk₂.read w hl.straight.2).trans ha
      refine .define (Nat.le_refl _) ?_
      simp only [Instr.effect, hread, hb, Action.ofOption, Action.pure_bind]
  | .unary he =>
    have ih := he.simulates hs w
    intro t env vars ht hv
    cases ht with
    | unary het =>
      simp only [eval]
      refine (ih het hv).append he.straight.1.le ?_
      intro env₁ a _ ha
      refine .define (Nat.le_refl _) ?_
      simp only [Instr.effect, ha, Action.ofOption, Action.pure_bind]
  | .paren he =>
    have ih := he.simulates hs w
    intro t env vars ht hv
    cases ht with
    | paren het =>
      simp only [eval]
      exact ih het hv
  | .index ha hi =>
    have iha := ha.simulates hs w
    have ihi := hi.simulates hs w
    intro t env vars ht hv
    cases ht with
    | index hat hit _ _ =>
      simp only [eval, List.append_assoc]
      refine (iha hat hv).append ha.straight.1.le ?_
      intro env₁ a hk₁ hra
      refine (ihi hit (hv.keep hk₁)).append hi.straight.1.le ?_
      intro env₂ b hk₂ hrb
      have hread := (hk₂.read w ha.straight.2).trans hra
      refine .define (Nat.le_refl _) ?_
      simp only [Instr.effect, hread, hrb, Action.ofOption, Action.pure_bind]
  | .length ha =>
    have ih := ha.simulates hs w
    intro t env vars ht hv
    cases ht with
    | length hat _ _ =>
      simp only [eval]
      refine (ih hat hv).append ha.straight.1.le ?_
      intro env₁ a _ hra
      refine .define (Nat.le_refl _) ?_
      simp only [Instr.effect, hra, Action.ofOption, Action.pure_bind]
  | .call hc =>
    have ih := hc.simulates hs w
    intro t env vars ht hv
    cases ht with
    | call hrecv hm has hts =>
      rw [eval_call]
      refine (ih hrecv hm has hts hv).map ?_
      intro env' r hr
      obtain ⟨v, rfl, hread⟩ := hr _ rfl
      exact ⟨v, rfl, hread⟩
  | .newObject =>
    intro t env vars _ _
    simp only [eval]
    refine Simulates.cons (.define (Nat.le_refl _) rfl) (Nat.le_refl _) ?_
    intro env₁ object _ hread
    refine Simulates.map (R := fun env' _ => env' (.temp σ.temps) = some object) ?_ ?_
    · refine .effect ?_ fun _ => hread
      simp only [Instr.effect, constructorCall, Option.toList_some, Operand.readAll, hread]
      rfl
    · intro env' _ hR
      exact ⟨object, rfl, hR⟩
  | .newArray he =>
    have ih := he.simulates hs w
    intro t env vars ht hv
    cases ht with
    | newArray het _ =>
      simp only [eval]
      refine (ih het hv).append he.straight.1.le ?_
      intro env₁ a _ hra
      refine .define (Nat.le_refl _) ?_
      simp only [Instr.effect, hra, Action.ofOption, Action.pure_bind]
      rfl
  | .arrayInit hp =>
    have ih := hp.simulates hs w
    intro t env vars ht hv
    rw [ht.initElementTy_elementCell hs] at ih
    cases ht with
    | arrayInit hes _ _ _ =>
      simp only [eval, evals_eq_map]
      exact ih hes hv

theorem LowersCall.simulates {s : Scope} (hs : s.Closed) (w : World) {t : Option Expr} {m : String}
    {as : List Expr} {p : Span} {want : Expectation} {σ σ' : Supply} {code : List Instr}
    {dest : Option Temp} (h : s.LowersCall t m as p want σ code dest σ') :
    ∀ ⦃c : Signature⦄ ⦃ts : List Ty⦄ ⦃env : Env⦄ ⦃vars : String → Value⦄, s.Receives t →
      s.symbols.method? m = some c → s.HaveTypes as ts → c.Takes ts → env.Holds vars →
      Simulates w σ.temps code env
        (s.invoke w (s.evalReceiver w vars t) m as (as.map (s.eval w vars))) fun env' r =>
          ∀ d ∈ dest, ∃ v, r = some v ∧ env' (.temp d.id) = some v := by
  match h with
  | .mk hsite hargs hbound =>
    have ihs := hsite.simulates hs w
    have iha := hargs.simulates hs w
    intro c ts env vars hrecv hm has hts hv
    have hcallee := (hsite.callee_eq hs hrecv).trans hm
    rw [hcallee] at iha
    rw [invoke_eq hs hm has hts, List.append_assoc]
    refine (ihs hrecv hv).append hsite.straight.1.le ?_
    intro env₁ object hk₁ hobject
    refine (iha (passed_typed hs has) (hv.keep hk₁)).append hargs.straight.1.le ?_
    intro env₂ args hk₂ hread
    have hreceiver := (hk₂.readAll w fun o ho => hsite.straight.2 o (Option.mem_toList.1 ho)).trans
      hobject
    rw [hcallee] at hbound
    subst hbound
    refine Simulates.call hreceiver hread ?_
    intro d hd
    obtain ⟨rfl, _, hvoid⟩ := Expectation.of_mem_dest hd
    exact ⟨Nat.le_of_eq (Supply.temps_settle _ _ _ _ _).symm, hvoid⟩

theorem LowersSite.simulates {s : Scope} (hs : s.Closed) (w : World) {t : Option Expr} {m : String}
    {σ σ' : Supply} {site : CallSite} (h : s.LowersSite t m σ site σ') :
    ∀ ⦃env : Env⦄ ⦃vars : String → Value⦄, s.Receives t → env.Holds vars →
      Simulates w σ.temps site.code env (s.evalReceiver w vars t) fun env' v =>
        Operand.readAll w env' site.receiver.toList = some [v] := by
  match h with
  | .implicit _ =>
    intro env vars _ _
    exact .pure rfl
  | .static hi => simp [hs.staticReceiver?_eq] at hi
  | .receiver _ _ _ ht =>
    have ih := ht.simulates hs w
    intro env vars hrecv hv
    cases hrecv with
    | explicit he =>
      refine (ih he hv).mono ?_
      intro env' v _ hread
      simp only [Option.toList_some, Operand.readAll, hread]
      rfl

theorem LowersArgs.simulates {s : Scope} (hs : s.Closed) (w : World) {ps : List Passed}
    {σ σ' : Supply} {fs : List Fragment} (h : s.LowersArgs ps σ fs σ') :
    ∀ ⦃env : Env⦄ ⦃vars : String → Value⦄, (∀ p ∈ ps, s.PassedTyped p) → env.Holds vars →
      Simulates w σ.temps (fs.flatMap (·.code)) env
        (Action.all (ps.map (s.evalPassed w vars))) fun env' vs =>
          Operand.readAll w env' (fs.map (·.operand)) = some vs := by
  match h with
  | .nil =>
    intro env vars _ _
    exact .pure rfl
  | .direct he hr =>
    have ihe := he.simulates hs w
    have ihr := hr.simulates hs w
    intro env vars hps hv
    obtain ⟨t, ht⟩ := hps _ List.mem_cons_self
    exact (ihe ht hv).args he.straight.1.le he.straight.2 fun env' hk =>
      ihr (fun p hp => hps p (List.mem_cons_of_mem _ hp)) (hv.keep hk)
  | .packed hp hr =>
    have ihp := hp.simulates hs w
    have ihr := hr.simulates hs w
    intro env vars hps hv
    obtain ⟨ts, hts⟩ := hps _ List.mem_cons_self
    exact (ihp hts hv).args hp.straight.1.le hp.straight.2 fun env' hk =>
      ihr (fun p hp => hps p (List.mem_cons_of_mem _ hp)) (hv.keep hk)

theorem Packs.simulates {s : Scope} (hs : s.Closed) (w : World) {element : Ty} {es : List Expr}
    {σ σ' : Supply} {f : Fragment} (h : s.Packs element es σ f σ') :
    ∀ ⦃ts : List Ty⦄ ⦃env : Env⦄ ⦃vars : String → Value⦄, s.HaveTypes es ts → env.Holds vars →
      Simulates w σ.temps f.code env (Memory.pack element.elementCell (es.map (s.eval w vars)))
        fun env' v => f.operand.read w env' = some v := by
  match h with
  | .mk hlen hst =>
    have ih := hst.simulates hs w
    intro ts env vars hts hv
    refine Simulates.cons (R := fun env' v => env' (.temp σ.temps) = some v)
      (.define (t := ⟨σ.temps, element.array⟩) (Nat.le_refl _) ?_) (Nat.le_succ _) ?_
    · simp only [Instr.effect, Operand.read, Action.ofOption, Action.pure_bind, List.length_map]
    · intro env₁ a hk hread
      have hfill := (ih hts (hv.keep hk) (Nat.lt_succ_self _) hread).mono
        (Q := fun env' _ => env' (.temp σ.temps) = some a)
        fun env' _ hk' _ => (hk'.temp _ (Nat.lt_succ_self _)).trans hread
      refine hfill.map ?_
      intro env' _ hR
      exact ⟨a, rfl, hR⟩

theorem Stores.simulates {s : Scope} (hs : s.Closed) (w : World) {array : Temp} {element : Ty}
    {i : Nat} {es : List Expr} {σ σ' : Supply} {code : List Instr}
    (h : s.Stores array element i es σ code σ') :
    ∀ ⦃ts : List Ty⦄ ⦃env : Env⦄ ⦃vars : String → Value⦄ ⦃a : Value⦄, s.HaveTypes es ts →
      env.Holds vars → array.id < σ.temps → env (.temp array.id) = some a →
      Simulates w σ.temps code env (Memory.fill a i (es.map (s.eval w vars))) fun _ _ => True := by
  match h with
  | .nil =>
    intro ts env vars a _ _ _ _
    exact .pure trivial
  | .cons he hr =>
    have ihe := he.simulates hs w
    have ihr := hr.simulates hs w
    intro ts env vars a hts hv hid ha
    cases hts with
    | cons het _ hest =>
      refine (ihe het hv).append he.straight.1.le ?_
      intro env₁ v hk₁ hread
      have ha₁ := (hk₁.temp _ hid).trans ha
      refine Simulates.cons (R := fun env' _ => env' = env₁) (.effect ?_ fun _ => rfl)
        (Nat.le_refl _) ?_
      · have hra : (Operand.temp array).read w env₁ = some a := ha₁
        have hri : (Operand.int (.ofNat i)).read w env₁ = some (.int (.ofNat i)) := rfl
        simp only [Instr.effect, hra, hri, hread, Action.ofOption, Action.pure_bind]
      · intro env₂ _ _ henv
        subst henv
        have hid' := Nat.lt_of_lt_of_le hid he.straight.1.le
        exact ihr hest (hv.keep hk₁) hid' ha₁

end

end Scope

end SingleClass
