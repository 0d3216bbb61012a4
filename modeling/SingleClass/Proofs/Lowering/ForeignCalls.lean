import Mathlib.Logic.Function.Iterate
import SingleClass.Proofs.Lowering.Operators
set_option autoImplicit false

/-!
Calls to methods that are declared elsewhere. What such a method returns is not known here, so the call
takes the type that its place expects. The expectation goes down through parentheses and array accesses
and the type comes up again: either the two meet, or the call is noted
(`Scope.foreignCall_takes_expected`).
-/

namespace SingleClass

/-- The expression is `inner` inside parentheses and `n` array accesses, in any order. -/
inductive Expr.Wraps (inner : Expr) : Nat → Expr → Prop
  | self : Wraps inner 0 inner
  | paren {n : Nat} {e : Expr} (h : Wraps inner n e) : Wraps inner n (.paren e)
  | index {n : Nat} {a i : Expr} {p : Span} (h : Wraps inner n a) : Wraps inner (n + 1) (.index a i p)

theorem Supply.notes_takeDest (σ : Supply) (want : Expectation) (ret : Ty) :
    (σ.takeDest want ret).notes = σ.notes := by
  unfold Supply.takeDest
  split <;> rfl

theorem Supply.notes_settle (σ : Supply) (callee : Option Signature) (want : Expectation)
    (m : String) (p : Span) : σ.notes <+: (σ.settle callee want m p).notes := by
  unfold Supply.settle
  split
  · exact List.prefix_append _ _
  · exact List.prefix_refl _

namespace Scope

variable {s : Scope}

mutual

theorem Lowers.notes_prefix {e : Expr} {want : Expectation} {σ σ' : Supply} {f : Fragment}
    (h : s.Lowers e want σ f σ') : σ.notes <+: σ'.notes := by
  match h with
  | .literal | .var _ _ | .this _ | .field _ | .newObject => exact List.prefix_refl _
  | .binary h₁ h₂ | .index h₁ h₂ => exact h₁.notes_prefix.trans h₂.notes_prefix
  | .unary he | .length he | .newArray he => exact he.notes_prefix
  | .paren he => exact he.notes_prefix
  | .call hc => exact hc.notes_prefix
  | .arrayInit hp => exact hp.notes_prefix

theorem LowersCall.notes_prefix {t : Option Expr} {m : String} {as : List Expr} {p : Span}
    {want : Expectation} {σ σ' : Supply} {code : List Instr} {dest : Option Temp}
    (h : s.LowersCall t m as p want σ code dest σ') : σ.notes <+: σ'.notes := by
  match h with
  | .mk hsite hargs _ =>
    rw [Supply.notes_takeDest]
    exact (hsite.notes_prefix.trans hargs.notes_prefix).trans (Supply.notes_settle _ _ _ _ _)

theorem LowersSite.notes_prefix {t : Option Expr} {m : String} {σ σ' : Supply} {site : CallSite}
    (h : s.LowersSite t m σ site σ') : σ.notes <+: σ'.notes := by
  match h with
  | .implicit _ | .static _ => exact List.prefix_refl _
  | .receiver _ _ _ ht => exact ht.notes_prefix

theorem LowersArgs.notes_prefix {ps : List Passed} {σ σ' : Supply} {fs : List Fragment}
    (h : s.LowersArgs ps σ fs σ') : σ.notes <+: σ'.notes := by
  match h with
  | .nil => exact List.prefix_refl _
  | .direct he hs => exact he.notes_prefix.trans hs.notes_prefix
  | .packed hp hs => exact hp.notes_prefix.trans hs.notes_prefix

theorem Packs.notes_prefix {element : Ty} {es : List Expr} {σ σ' : Supply} {f : Fragment}
    (h : s.Packs element es σ f σ') : σ.notes <+: σ'.notes := by
  match h with
  | .mk _ hs => exact hs.notes_prefix

theorem Stores.notes_prefix {array : Temp} {element : Ty} {i : Nat} {es : List Expr}
    {σ σ' : Supply} {code : List Instr} (h : s.Stores array element i es σ code σ') :
    σ.notes <+: σ'.notes := by
  match h with
  | .nil => exact List.prefix_refl _
  | .cons he hs => exact he.notes_prefix.trans hs.notes_prefix

end

theorem iterate_arrayExpectation {n : Nat} {ty : Ty}
    (h : arrayExpectation^[n] (.value ty) ≠ .unknown) :
    n = 0 ∨ n = 1 ∧ ty.isArray = false := by
  have hunknown : ∀ k, arrayExpectation^[k] .unknown = .unknown :=
    Function.iterate_fixed rfl
  rcases n with _ | _ | n
  · exact .inl rfl
  · cases harray : ty.isArray with
    | false => exact .inr ⟨rfl, rfl⟩
    | true => simp [arrayExpectation, harray] at h
  · refine absurd ?_ h
    rw [Function.iterate_succ_apply, Function.iterate_succ_apply]
    cases harray : ty.isArray with
    | false => exact (congrArg _ (by simp [arrayExpectation, harray, Ty.array])).trans (hunknown n)
    | true => exact (congrArg _ (by simp [arrayExpectation, harray])).trans (hunknown n)

/-- The code of a wrapped expression begins with that of the expression itself, under what its place
expects, and its type is that of an element, taken once for each access. -/
theorem Lowers.of_wraps {inner e : Expr} {n : Nat} (hw : inner.Wraps n e) {want : Expectation}
    {σ σ' : Supply} {f : Fragment} (h : s.Lowers e want σ f σ') :
    ∃ g σ₁, s.Lowers inner (arrayExpectation^[n] want) σ g σ₁ ∧ g.code <+: f.code ∧
      σ₁.notes <+: σ'.notes ∧ f.operand.ty = Ty.element^[n] g.operand.ty := by
  induction hw generalizing want σ' f with
  | self => exact ⟨f, σ', h, List.prefix_refl _, List.prefix_refl _, rfl⟩
  | paren _ ih =>
    cases h with
    | paren he => exact ih he
  | index _ ih =>
    cases h with
    | index ha hi =>
      obtain ⟨g, σ₁, hg, hcode, hnotes, hty⟩ := ih ha
      refine ⟨g, σ₁, hg, ?_, hnotes.trans hi.notes_prefix, ?_⟩
      · rw [List.append_assoc]
        exact hcode.trans (List.prefix_append _ _)
      · rw [Function.iterate_succ_apply', ← hty]
        rfl

theorem LowersCall.foreign {t : Option Expr} {m : String} {as : List Expr} {p : Span}
    {want : Expectation} {σ σ' : Supply} {code : List Instr} {d : Temp}
    (h : s.LowersCall t m as p want σ code (some d) σ')
    (hforeign : s.symbols.callee? m (t.map s.typeHint) = none) (hnotes : σ'.notes = σ.notes) :
    want = .value d.ty ∧ ∃ front c, code = front ++ [.call c] ∧ c.ret = d.ty := by
  generalize hdest : some d = dest at h
  cases h with
  | @mk _ _ _ _ _ _ σ₁ σ₂ site fs _ hsite hargs hbound =>
    subst hbound
    obtain ⟨rfl, hdiscard, _⟩ := Expectation.of_mem_dest hdest.symm
    have hcallee : site.callee = none := hsite.callee_hint.trans hforeign
    have hret : (BoundCall.of site.callee want fs).ret = want.foreignTy := by
      rw [hcallee]
      rfl
    cases want with
    | discard => exact absurd rfl hdiscard
    | unknown =>
      -- an assumed type is noted behind all that was noted before
      have hle := (hsite.notes_prefix.trans hargs.notes_prefix).length_le
      have hlength := congrArg List.length hnotes
      rw [Supply.notes_takeDest, hcallee] at hlength
      simp only [Supply.settle, List.length_append, List.length_singleton] at hlength
      omega
    | value ty => exact ⟨by rw [hret]; rfl, _, _, rfl, rfl⟩

end Scope

/-- A foreign call that is wrapped and leaves no note has the type that the context demands, or an array
of it below an array access. More than one access leaves a note always, and so does one of which an array
is expected. -/
theorem Scope.foreignCall_takes_expected {s : Scope} {t : Option Expr} {m : String} {as : List Expr}
    {p : Span} (hforeign : s.symbols.callee? m (t.map s.typeHint) = none) {n : Nat} {e : Expr}
    (hw : (Expr.call t m as p).Wraps n e) {ty : Ty} (hvararg : ty.isVararg = false) {σ σ' : Supply}
    {f : Fragment} (hl : s.lower e (.value ty) σ = .ok f σ') (hnotes : σ'.notes = σ.notes) :
    f.operand.ty = ty ∧ (n = 0 ∨ n = 1 ∧ ty.isArray = false) ∧
      ∃ front c result σ₁,
        s.lowerCall (t.map s.pending) m (as.map s.pending) p (.value c.ret) σ =
          .ok (front ++ [.call c], result) σ₁ ∧
        front ++ [.call c] <+: f.code ∧ c.ret = if n = 0 then ty else ty.array := by
  obtain ⟨g, σ₁, hg, hcode, hprefix, hty⟩ := (Scope.lower_eq_ok_iff.1 hl).of_wraps hw
  generalize hwant : arrayExpectation^[n] (.value ty) = want at hg
  cases hg with
  | @call _ _ _ _ _ _ _ code d hc =>
    have hnotes₁ : σ₁.notes = σ.notes := by
      rw [hnotes] at hprefix
      exact hprefix.eq_of_length_le hc.notes_prefix.length_le
    obtain ⟨rfl, front, c, rfl, hret⟩ := hc.foreign hforeign hnotes₁
    have hn : n = 0 ∨ n = 1 ∧ ty.isArray = false := iterate_arrayExpectation (by simp [hwant])
    have hrun := (Scope.lowerCall_eq_ok_iff (r := (front ++ [.call c], some (.temp d)))
      (fun e _ => derivable s e) fun e _ => derivable s e).2 ⟨some d, rfl, hc⟩
    rw [← hret] at hrun
    rcases hn with rfl | ⟨rfl, harray⟩
    · cases hwant
      exact ⟨hty, .inl rfl, front, c, _, σ₁, hrun, hcode, hret⟩
    · have hd : d.ty = ty.array := by
        simpa [arrayExpectation, harray] using hwant.symm
      have helement : ty.array.element = ty := by
        obtain ⟨kind, isArray, isVararg⟩ := ty
        cases harray
        cases hvararg
        rfl
      refine ⟨?_, .inr ⟨rfl, harray⟩, front, c, _, σ₁, hrun, hcode, hret.trans hd⟩
      rw [hty]
      exact (congrArg Ty.element hd).trans helement

def Scope.reading : Scope where
  symbols := { className := "Meter", imports := [{ path := "lib.Gauge" }] }
  method := { name := "high", returnTy := .boolean }

/-- `(Gauge.marks(3)[0])`, for a boolean: the call returns an array of booleans. -/
theorem Scope.foreignCall_reading :
    let call : Expr := .call (some (.name "Gauge" {})) "marks" [.literal (.int 3) {}] {}
    let e : Expr := .paren (.index call (.literal (.int 0) {}) {})
    ∃ f σ', reading.lower e (.value .boolean) {} = .ok f σ' ∧ σ'.notes = [] ∧
      f.operand.ty = .boolean ∧ ∃ c, .call c ∈ f.code ∧ c.ret = Ty.boolean.array := by
  intro call e
  have hforeign : reading.symbols.callee? "marks" (some (reading.typeHint (.name "Gauge" {}))) = none :=
    rfl
  obtain ⟨f, σ', hl, hnotes⟩ : ∃ f σ', reading.lower e (.value .boolean) {} = .ok f σ' ∧
      σ'.notes = [] := ⟨_, _, rfl, rfl⟩
  obtain ⟨hty, _, front, c, result, σ₁, hcall, hprefix, hret⟩ :=
    foreignCall_takes_expected (t := some (.name "Gauge" {})) hforeign (.paren (.index .self)) rfl hl
      hnotes
  exact ⟨f, σ', hl, hnotes, hty, c, hprefix.subset (by simp), hret⟩

end SingleClass
