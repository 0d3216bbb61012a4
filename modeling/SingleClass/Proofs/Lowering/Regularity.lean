import SingleClass.Proofs.Lowering.Typing
import SingleClass.Proofs.Typing.Arity
set_option autoImplicit false

/-!
Emitted code fits the stack machine, also where types are not known: a call has an operand for each
word that its line takes, a return without a value is one of a void method, and jumps are between the
labels of conditionals and loops.
-/

namespace SingleClass

/-- The operands and the result of a call are those that its dispatch and its types ask for. -/
structure Call.Regular (c : Call) : Prop where
  receiver : c.receiver.toList.length = if c.dispatch = .static then 0 else 1
  args : c.args.length = c.params.length
  dest : c.dest.isSome = true → c.ret.isVoid = false

/-- The instruction takes and leaves what its lines do, in a method that returns `ret`. -/
def Instr.Regular (ret : Ty) : Instr → Prop
  | .call c => c.Regular
  | .ret none => ret.isVoid = true
  | .goto l | .branch _ l | .label l => l.kind ∈ structureKinds
  | _ => True

namespace Scope

theorem length_passed {s : Scope} {c : Signature} {as : List Expr} (h : c.fixedArity ≤ as.length) :
    (s.passed (some c) as).length = c.params.length := by
  have hparams := congrArg List.length c.params_eq
  have hle := c.fixedArity_le
  simp only [List.length_append, List.length_take] at hparams
  simp only [passed, List.length_append, List.length_map, List.length_take, List.length_zip]
  omega

theorem LowersArgs.length_eq {s : Scope} {ps : List Passed} {σ σ' : Supply} {fs : List Fragment}
    (h : s.LowersArgs ps σ fs σ') : fs.length = ps.length := by
  induction ps generalizing σ fs with
  | nil =>
    cases h
    rfl
  | cons p ps ih =>
    cases h with
    | direct _ hs | packed _ hs => rw [List.length_cons, List.length_cons, ih hs]

theorem LowersSite.receiver_length {s : Scope} {t : Option Expr} {m : String} {σ σ' : Supply}
    {site : CallSite} (h : s.LowersSite t m σ site σ') :
    site.receiver.toList.length = if site.dispatch = .static then 0 else 1 := by
  cases h <;> rfl

theorem LowersSite.fixedArity_le {s : Scope} {t : Option Expr} {m : String} {as : List Expr}
    {p : Span} {σ σ' : Supply} {site : CallSite} (h : s.LowersSite t m σ site σ')
    (hr : s.Regular (.expr (.call t m as p))) {c : Signature} (hc : site.callee = some c) :
    c.fixedArity ≤ as.length := by
  cases h with
  | implicit _ => exact hr c hc
  | static _ => cases hc
  | receiver _ hty _ _ =>
    simp only [Symbols.callee?] at hc
    split at hc
    · next hown => exact hr (ofOwnClass_of_typeOf hty hown.2) c hc
    · cases hc

theorem LowersCall.call_regular {s : Scope} {t : Option Expr} {m : String} {as : List Expr}
    {p : Span} {want : Expectation} {σ σ₁ σ₂ σ₃ : Supply} {site : CallSite} {fs : List Fragment}
    (hsite : s.LowersSite t m σ site σ₁) (hargs : s.LowersArgs (s.passed site.callee as) σ₁ fs σ₂)
    (hr : s.Regular (.expr (.call t m as p))) :
    (site.instr m (.of site.callee want fs)
      (want.dest (BoundCall.of site.callee want fs).ret σ₃)).Regular := by
  refine ⟨hsite.receiver_length, ?_, ?_⟩
  · rw [CallSite.instr, List.length_map, BoundCall.args_of]
    cases hc : site.callee with
    | none => simp [BoundCall.of]
    | some c =>
      rw [hc] at hargs
      rw [hargs.length_eq, length_passed (hsite.fixedArity_le hr hc)]
      simp [BoundCall.of, Signature.paramTys]
  · intro hdest
    obtain ⟨d, hd⟩ := Option.isSome_iff_exists.1 hdest
    exact (Expectation.of_mem_dest hd).2.2

theorem Issues.regular {s : Scope} {code : List Instr} {n : Node} {i : Instr}
    (h : s.Issues code n i) (hn : s.Regular n) : i.Regular s.method.returnTy := by
  cases h with
  | call _ hsite _ hargs _ => exact LowersCall.call_regular hsite hargs hn
  | construct _ => exact ⟨rfl, rfl, by simp [constructorCall]⟩
  | branch _ _ hl | goto hl | label hl => exact hl
  | retNone => exact hn
  | _ => trivial

end Scope

theorem regular_closing (ret : Ty) (code : List Instr) :
    ∀ i ∈ closing ret.asValue code, i.Regular ret := by
  unfold closing
  cases hvoid : ret.isVoid with
  | true =>
    rw [Ty.isVoid_asValue, hvoid, if_pos rfl]
    split
    · simp
    · simpa [Instr.Regular] using hvoid
  | false =>
    rw [Ty.isVoid_asValue, hvoid, if_neg (by simp)]
    split <;> simp [Instr.Regular]

theorem endsBlock_closing (ret : Ty) (code : List Instr) :
    ∃ i ∈ (code ++ closing ret code).getLast?, i.endsBlock = true := by
  have hreturn : ∀ i : Instr, i.isReturn = true → i.endsBlock = true := by
    intro i hi
    cases i <;> simp_all [Instr.isReturn, Instr.endsBlock]
  have hlast : ∀ P : Instr → Bool, (∀ i, P i = true → i.endsBlock = true) →
      ∀ v, ∃ i ∈ (code ++ if code.getLast?.any P then [] else [Instr.ret v]).getLast?,
        i.endsBlock = true := by
    intro P hP v
    cases hany : code.getLast?.any P with
    | true =>
      obtain ⟨i, hi⟩ : ∃ i, code.getLast? = some i := by
        cases hl : code.getLast? with
        | none => simp [hl] at hany
        | some i => exact ⟨i, rfl⟩
      rw [hi] at hany
      simp only [if_true, List.append_nil, hi]
      exact ⟨i, rfl, hP i hany⟩
    | false => exact ⟨.ret v, by simp, rfl⟩
  unfold closing
  split
  · exact hlast Instr.isReturn hreturn none
  · exact hlast Instr.endsBlock (fun _ h => h) _

structure MethodCode.Regular (m : MethodCode) : Prop where
  instrs : ∀ i ∈ m.instrs, i.Regular m.returnTy
  ends : ∃ i ∈ m.instrs.getLast?, i.endsBlock = true

theorem Scope.regular_methodCode {s : Scope} (hs : s.Concrete) {ts : List Stmt} {σ σ' : Supply}
    {body : List Instr} (h : s.LowersBody ts σ body σ') (hr : ∀ n ∈ Stmt.nodesOf ts, s.Regular n) :
    (s.methodCode body).Regular := by
  refine ⟨List.forall_mem_append.2 ⟨fun i hi => ?_, regular_closing _ _⟩, endsBlock_closing _ _⟩
  obtain ⟨n, hn, hissues⟩ := h.issued hs (List.Subset.refl _) hr i hi
  exact hissues.regular hn

theorem Program.regular_of_lower {p q : Program} {σ σ' : Supply} {code : ClassCode}
    (h : (Symbols.ofProgram p).lower q σ = .ok code σ')
    (hr : ∀ d ∈ q.paired (.ofProgram p), ∀ n ∈ Stmt.nodesOf d.1.body,
      Scope.Regular ⟨.ofProgram p, d.2⟩ n) : ∀ m ∈ code.methods, m.Regular := by
  intro m hm
  obtain ⟨ms, hms, rfl⟩ := Symbols.lower_eq_ok_iff.1 h
  obtain ⟨d, sig, σ₁, σ₂, body, hmem, hb, rfl⟩ := hms.of_mem hm
  exact Scope.regular_methodCode (p.concrete_scope (List.of_mem_zip hmem).2) hb (hr _ hmem)

end SingleClass
