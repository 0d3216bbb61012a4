import SingleClass.Proofs.Constant.Reduction
import SingleClass.Proofs.Typing.Checking
set_option autoImplicit false

/-!
Constant optimisation keeps typed bodies typed and in their limits. A fact gives a local a literal of
the local's own type, since the store that it comes from is typed, so a replaced read keeps its type;
and a folded operator is arithmetic, whose result is an int.
-/

namespace SingleClass

namespace Facts

/-- Every fact gives a name a literal of the type that the name has. -/
def Typed (f : Facts) (s : Scope) : Prop :=
  ∀ n v, f.get? n = some v → ∀ b, s.lookup n = some b → b.symbol.ty.asValue = v.ty

variable {s : Scope} {f : Facts}

theorem typed_empty : ({} : Facts).Typed s := by
  intro n v hv
  simp at hv

theorem Typed.meet (h : f.Typed s) (g : Facts) : (f.meet g).Typed s :=
  fun n v hv => h n v (get?_of_meet hv)

theorem Typed.forget (h : f.Typed s) (names : List String) : (f.forget names).Typed s :=
  fun n v hv => h n v (get?_of_forget hv)

theorem Typed.store (h : f.Typed s) {x : String} {p : Span} {e : Expr} {t : Ty}
    (hx : s.HasType (.name x p) t) (he : s.HasType e t) : (f.store x e).Typed s := by
  unfold Facts.store
  split
  next l q =>
    intro n v hv b hb
    rw [get?_insert] at hv
    split at hv
    next hn =>
      -- the name and the literal have the one type of the store
      subst hn
      cases hv
      cases hx with
      | name hb' _ =>
        cases Option.some.inj (hb.symm.trans hb')
        generalize b.symbol.ty.asValue = u at he
        cases he
        rfl
    next => exact h n v hv b hb
  next => exact fun n v hv => h n v (get?_of_erase hv)

end Facts

namespace Scope

variable {s : Scope} {f : Facts}

theorem HasType.eq_of_comesTo (hf : f.Typed s) {e : Expr} {t : Ty} {v : Literal}
    (h : s.HasType e t) (hv : e.ComesTo f v) : t = v.ty := by
  induction hv generalizing t with
  | literal =>
    cases h
    rfl
  | @name n p v hv =>
    cases h with
    | name hb _ => exact hf n v hv _ hb
  | paren _ ih =>
    cases h with
    | paren he => exact ih he
  | binary _ _ hc =>
    cases h with
    | binary => simp [BinaryOp.resultTy, BinaryOp.arithmetic_of_compute hc, Literal.ty]

mutual

theorem HasType.reduce (hf : f.Typed s) {e e' : Expr} {t : Ty} (hr : e.Reduces f e')
    (h : s.HasType e t) : s.HasType e' t := by
  match hr with
  | .refl => exact h
  | .literal hv =>
    rw [h.eq_of_comesTo hf hv]
    exact .literal
  | .binary hl hr =>
    cases h with
    | binary hop htl htr => exact .binary hop (HasType.reduce hf hl htl) (HasType.reduce hf hr htr)
  | .unary he =>
    cases h with
    | unary ht => exact .unary (HasType.reduce hf he ht)
  | .paren he =>
    cases h with
    | paren ht => exact .paren (HasType.reduce hf he ht)
  | .index ha hi =>
    cases h with
    | index hta hti harray hvoid =>
      exact .index (HasType.reduce hf ha hta) (HasType.reduce hf hi hti) harray hvoid
  | .length ha =>
    cases h with
    | length hta harray hvoid => exact .length (HasType.reduce hf ha hta) harray hvoid
  | .call has =>
    cases h with
    | call hrecv hm hts htakes =>
      cases hrecv with
      | implicit hstatic => exact .call (.implicit hstatic) hm (HaveTypes.reduce hf has hts) htakes
  | .callOn ht has =>
    cases h with
    | call hrecv hm hts htakes =>
      cases hrecv with
      | explicit hto =>
        exact .call (.explicit (HasType.reduce hf ht hto)) hm (HaveTypes.reduce hf has hts) htakes
  | .newArray he =>
    cases h with
    | newArray ht hk => exact .newArray (HasType.reduce hf he ht) hk
  | .arrayInit hes =>
    cases h with
    | arrayInit hts hne htys harray =>
      exact .arrayInit (HaveTypes.reduce hf hes hts) hne htys harray

theorem HaveTypes.reduce (hf : f.Typed s) {es es' : List Expr} {ts : List Ty}
    (hr : Expr.ReducesAll f es es') (h : s.HaveTypes es ts) : s.HaveTypes es' ts := by
  match hr with
  | .nil => exact h
  | .cons he hes =>
    cases h with
    | cons ht hvoid hts => exact .cons (HasType.reduce hf he ht) hvoid (HaveTypes.reduce hf hes hts)

end

theorem HasType.fold {e : Expr} {t : Ty} (h : s.HasType e t) : s.HasType e.fold t :=
  h.reduce Facts.typed_empty e.reduces_fold

theorem HasType.substitute (hf : f.Typed s) {e : Expr} {t : Ty} (h : s.HasType e t) :
    s.HasType (e.substitute f) t :=
  h.reduce hf (e.reduces_substitute f)

theorem isPlace_fold {e : Expr} (h : IsPlace e) : IsPlace e.fold := by
  cases e with
  | name n p => trivial
  | index a i p => trivial
  | _ => exact absurd h (by simp [IsPlace])

mutual

theorem accepts_fold (t : Stmt) (h : s.Accepts t) : s.Accepts t.fold := by
  cases t with
  | block b p =>
    simp only [Stmt.fold, Accepts] at h ⊢
    exact acceptsAll_foldAll b h
  | cond c t e p =>
    cases e with
    | none =>
      simp only [Stmt.fold, Accepts] at h ⊢
      exact ⟨h.1.fold, accepts_fold t h.2⟩
    | some e =>
      simp only [Stmt.fold, Accepts] at h ⊢
      exact ⟨h.1.fold, accepts_fold t h.2.1, accepts_fold e h.2.2⟩
  | loop c b p =>
    simp only [Stmt.fold, Accepts] at h ⊢
    exact ⟨h.1.fold, accepts_fold b h.2⟩
  | expr e p =>
    simp only [Stmt.fold, Accepts] at h ⊢
    obtain ⟨t, ht⟩ := h
    exact ⟨t, ht.fold⟩
  | assign target value p =>
    simp only [Stmt.fold, Accepts] at h ⊢
    obtain ⟨hplace, t, hvoid, ht, hv⟩ := h
    exact ⟨isPlace_fold hplace, t, hvoid, ht.fold, hv.fold⟩
  | ret v p =>
    cases v with
    | none => exact h
    | some v =>
      simp only [Stmt.fold, Accepts] at h ⊢
      exact ⟨h.1, h.2.fold⟩

theorem acceptsAll_foldAll (ts : List Stmt) (h : s.AcceptsAll ts) :
    s.AcceptsAll (Stmt.foldAll ts) := by
  cases ts with
  | nil => trivial
  | cons t ts =>
    simp only [Stmt.foldAll, AcceptsAll] at h ⊢
    exact ⟨accepts_fold t h.1, acceptsAll_foldAll ts h.2⟩

end

theorem typed_after_assign (hf : f.Typed s) (names : List String) {target value : Expr} {p : Span}
    {t : Ty} (ht : s.HasType target t) (hv : s.HasType value t) :
    ((Stmt.assign target value p).after names f).Typed s := by
  cases target with
  | name n q =>
    simp only [Stmt.after]
    split
    · exact hf.store ht (hv.substitute hf)
    · exact hf
  | _ => exact hf

mutual

theorem typed_after {f : Facts} (hf : f.Typed s) (names : List String) (t : Stmt)
    (h : s.Accepts t) : (t.after names f).Typed s := by
  cases t with
  | block b p =>
    simp only [Accepts] at h
    exact typed_afterAll hf names b h
  | cond c t e p =>
    cases e with
    | none => exact hf.meet _
    | some e =>
      simp only [Accepts] at h
      exact (typed_after hf names e h.2.2).meet _
  | loop c b p => exact hf.forget _
  | expr e p => exact hf
  | assign target value p =>
    simp only [Accepts] at h
    obtain ⟨_, t, _, ht, hv⟩ := h
    exact typed_after_assign hf names ht hv
  | ret v p => exact hf

theorem typed_afterAll {f : Facts} (hf : f.Typed s) (names : List String) (ts : List Stmt)
    (h : s.AcceptsAll ts) : (Stmt.afterAll names f ts).Typed s := by
  cases ts with
  | nil => exact hf
  | cons t ts =>
    simp only [AcceptsAll] at h
    exact typed_afterAll (typed_after hf names t h.1) names ts h.2

end

theorem accepts_propagate_assign (hf : f.Typed s) (names : List String) {target value : Expr}
    {p : Span} (h : s.Accepts (.assign target value p)) :
    s.Accepts ((Stmt.assign target value p).propagate names f) := by
  simp only [Accepts] at h
  obtain ⟨hplace, t, hvoid, ht, hv⟩ := h
  have hv := hv.substitute hf
  cases target with
  | name n q =>
    simp only [Stmt.propagate, Accepts]
    exact ⟨trivial, t, hvoid, ht, hv⟩
  | index a i q =>
    simp only [Stmt.propagate, Accepts]
    exact ⟨trivial, t, hvoid, ht.substitute hf, hv⟩
  | _ => exact absurd hplace (by simp [IsPlace])

mutual

theorem accepts_propagate {f : Facts} (hf : f.Typed s) (names : List String) (t : Stmt)
    (h : s.Accepts t) : s.Accepts (t.propagate names f) := by
  cases t with
  | block b p =>
    simp only [Stmt.propagate, Accepts] at h ⊢
    exact acceptsAll_propagateAll hf names b h
  | cond c t e p =>
    cases e with
    | none =>
      simp only [Stmt.propagate, Accepts] at h ⊢
      exact ⟨h.1.substitute hf, accepts_propagate hf names t h.2⟩
    | some e =>
      simp only [Stmt.propagate, Accepts] at h ⊢
      exact ⟨h.1.substitute hf, accepts_propagate hf names t h.2.1,
        accepts_propagate hf names e h.2.2⟩
  | loop c b p =>
    have hf := hf.forget b.assigned
    simp only [Stmt.propagate, Accepts] at h ⊢
    exact ⟨h.1.substitute hf, accepts_propagate hf names b h.2⟩
  | expr e p =>
    simp only [Stmt.propagate, Accepts] at h ⊢
    obtain ⟨t, ht⟩ := h
    exact ⟨t, ht.substitute hf⟩
  | assign target value p => exact accepts_propagate_assign hf names h
  | ret v p =>
    cases v with
    | none => exact h
    | some v =>
      simp only [Stmt.propagate, Accepts] at h ⊢
      exact ⟨h.1, h.2.substitute hf⟩

theorem acceptsAll_propagateAll {f : Facts} (hf : f.Typed s) (names : List String)
    (ts : List Stmt) (h : s.AcceptsAll ts) : s.AcceptsAll (Stmt.propagateAll names f ts) := by
  cases ts with
  | nil => trivial
  | cons t ts =>
    simp only [Stmt.propagateAll, AcceptsAll] at h ⊢
    exact ⟨accepts_propagate hf names t h.1,
      acceptsAll_propagateAll (typed_after hf names t h.1) names ts h.2⟩

end

end Scope

theorem Node.Reduces.inLimits {n n' : Node} (h : n.Reduces n') (hn : n.inLimits = true) :
    n'.inLimits = true := by
  cases h with
  | stmt => rfl
  | expr h =>
    cases h with
    | refl => exact hn
    | literal | binary | unary | paren | index | length => rfl
    | newArray => exact hn
    | call has | callOn _ has | arrayInit has =>
      simp only [Node.inLimits, Expr.inLimits] at hn ⊢
      rw [has.length_eq]
      exact hn

theorem Scope.AcceptsAll.optimize {s : Scope} {d : MethodDecl} (h : s.AcceptsAll d.body) :
    s.AcceptsAll d.optimize.1.body :=
  d.optimize_rounds (P := fun d => s.AcceptsAll d.body) (fun _ h =>
    acceptsAll_foldAll _ (acceptsAll_propagateAll Facts.typed_empty _ _ h)) h

theorem Scope.Ready.optimize {s : Scope} {d : MethodDecl} (h : s.Ready d.body) :
    s.Ready d.optimize.1.body :=
  ⟨h.closed, h.accepts.optimize, d.optimize_induction
    (fun _ _ hb hn => hb.nodes (fun _ _ hr => hr.inLimits) hn) h.limits⟩

/-- So is a sound one sound. -/
theorem Scope.Sound.optimize {s : Scope} {d : MethodDecl} (h : s.Sound d.body) :
    s.Sound d.optimize.1.body :=
  ⟨h.closed, h.accepts.optimize, h.returns.imp id fun hr =>
    d.optimize_induction (fun _ _ hb hr => hb.anyReturns hr) hr⟩

end SingleClass
