import SingleClass.Proofs.Lowering.Derivation
import SingleClass.Proofs.Typing.Checking
set_option autoImplicit false

/-!
Lowering succeeds on typed bodies. Every expression with a value has a derivation from every supply,
and none of the derivations notes anything: what is called is declared.
-/

namespace SingleClass

theorem Expectation.of_ne_discard (t : Ty) : Expectation.of t ≠ .discard := by
  unfold Expectation.of
  split <;> simp

namespace Scope

theorem operandExpectations_ne_discard (s : Scope) (op : BinaryOp) (l r : Expr) :
    (s.operandExpectations op l r).1 ≠ .discard ∧ (s.operandExpectations op l r).2 ≠ .discard := by
  unfold operandExpectations
  split
  · simp
  · simp
  · simp
  · exact ⟨Expectation.of_ne_discard _, Expectation.of_ne_discard _⟩

theorem arrayExpectation_ne_discard (want : Expectation) : arrayExpectation want ≠ .discard := by
  unfold arrayExpectation
  split
  · split <;> simp
  · simp

/-- The expression has a derivation wherever `W` holds of what is expected of it, and `R` relates the
supplies around the derivation. -/
def Yields (s : Scope) (W : Expectation → Prop) (R : Supply → Supply → Prop) (e : Expr) : Prop :=
  ∀ (want : Expectation) (σ : Supply), W want → ∃ f σ', s.Lowers e want σ f σ' ∧ R σ σ'

/-- Expectations and supplies that can be handed through the parts of a call: `W` holds of what an
argument is expected to be, and `R` is kept from one part to the next. -/
structure Threads (W : Expectation → Prop) (R : Supply → Supply → Prop) : Prop where
  of (t : Ty) : W (.of t)
  refl (σ : Supply) : R σ σ
  trans {σ σ₁ σ₂ : Supply} : R σ σ₁ → R σ₁ σ₂ → R σ σ₂
  takeTemp (σ : Supply) : R σ σ.takeTemp

section

variable {s : Scope} {W : Expectation → Prop} {R : Supply → Supply → Prop}

theorem Threads.takeDest (hR : Threads W R) (σ : Supply) (want : Expectation) (ret : Ty) :
    R σ (σ.takeDest want ret) := by
  unfold Supply.takeDest
  split
  · exact hR.refl σ
  · exact hR.takeTemp σ

theorem exists_stores (hR : Threads W R) {es : List Expr} (h : ∀ e ∈ es, s.Yields W R e)
    {element : Ty} (hw : W (.value element)) (array : Temp) (i : Nat) (σ : Supply) :
    ∃ code σ', s.Stores array element i es σ code σ' ∧ R σ σ' := by
  induction es generalizing i σ with
  | nil => exact ⟨[], σ, .nil, hR.refl σ⟩
  | cons e es ih =>
    obtain ⟨he, hes⟩ := List.forall_mem_cons.1 h
    obtain ⟨f, σ₁, hf, hn⟩ := he (.value element) σ hw
    obtain ⟨rest, σ₂, hr, hn'⟩ := ih hes (i + 1) σ₁
    exact ⟨_, σ₂, .cons hf hr, hR.trans hn hn'⟩

theorem exists_packs (hR : Threads W R) {es : List Expr} (h : ∀ e ∈ es, s.Yields W R e)
    (hlen : es.length < 2147483648) (element : Ty) (hw : W (.value element)) (σ : Supply) :
    ∃ f σ', s.Packs element es σ f σ' ∧ R σ σ' := by
  obtain ⟨stores, σ', hs, hn⟩ := exists_stores hR h hw ⟨σ.temps, element.array⟩ 0 σ.takeTemp
  exact ⟨_, σ', .mk hlen hs, hR.trans (hR.takeTemp σ) hn⟩

def Suppliable (s : Scope) (W : Expectation → Prop) (R : Supply → Supply → Prop) : Passed → Prop
  | .direct e want => s.Yields W R e ∧ W want
  | .packed element values =>
    (∀ e ∈ values, s.Yields W R e) ∧ values.length < 2147483648 ∧ W (.value element)

theorem exists_args (hR : Threads W R) {ps : List Passed} (h : ∀ p ∈ ps, s.Suppliable W R p)
    (σ : Supply) : ∃ fs σ', s.LowersArgs ps σ fs σ' ∧ R σ σ' := by
  induction ps generalizing σ with
  | nil => exact ⟨[], σ, .nil, hR.refl σ⟩
  | cons p ps ih =>
    obtain ⟨hp, hps⟩ := List.forall_mem_cons.1 h
    cases p with
    | direct e want =>
      obtain ⟨f, σ₁, hf, hn⟩ := hp.1 want σ hp.2
      obtain ⟨fs, σ₂, hr, hn'⟩ := ih hps σ₁
      exact ⟨_, σ₂, .direct hf hr, hR.trans hn hn'⟩
    | packed element values =>
      obtain ⟨f, σ₁, hf, hn⟩ := exists_packs hR hp.1 hp.2.1 element hp.2.2 σ
      obtain ⟨fs, σ₂, hr, hn'⟩ := ih hps σ₁
      exact ⟨_, σ₂, .packed hf hr, hR.trans hn hn'⟩

def VarargWanted (W : Expectation → Prop) (c : Signature) : Prop :=
  ∀ v ∈ c.vararg?, W (.value v.ty.asValue) ∧ W (.value v.ty.element)

theorem suppliable_passedLast {es : List Expr} (h : ∀ e ∈ es, s.Yields W R e)
    (hlen : es.length < 2147483648) {t : Ty} (hw : W (.value t.asValue) ∧ W (.value t.element)) :
    s.Suppliable W R (s.passedLast t es) := by
  unfold passedLast
  split
  · exact ⟨h _ List.mem_cons_self, hw.1⟩
  · exact ⟨h, hlen, hw.2⟩

theorem suppliable_passed (hR : Threads W R) {es : List Expr} (h : ∀ e ∈ es, s.Yields W R e)
    (hlen : es.length < 2147483648) {callee : Option Signature}
    (hw : ∀ c ∈ callee, VarargWanted W c) :
    ∀ p ∈ s.passed callee es, s.Suppliable W R p := by
  intro p hp
  cases callee with
  | none =>
    obtain ⟨e, he, rfl⟩ := List.mem_map.1 hp
    exact ⟨h e he, hR.of _⟩
  | some c =>
    rcases List.mem_append.1 hp with hp | hp
    · obtain ⟨⟨e, v⟩, hmem, rfl⟩ := List.mem_map.1 hp
      have he := (List.of_mem_zip (List.mem_of_mem_take hmem)).1
      exact ⟨h e he, hR.of _⟩
    · obtain ⟨v, hv, rfl⟩ := List.mem_map.1 hp
      refine suppliable_passedLast (fun e he => h e (List.mem_of_mem_drop he)) ?_
        (hw c rfl v (Option.mem_toList.1 hv))
      rw [List.length_drop]
      omega

theorem exists_call (hR : Threads W R) {t : Option Expr} {m : String} {as : List Expr}
    {callee : Option Signature}
    (hsite : ∀ σ, ∃ site σ', s.LowersSite t m σ site σ' ∧ site.callee = callee ∧ R σ σ')
    (has : ∀ e ∈ as, s.Yields W R e) (hlen : as.length < 2147483648)
    (hw : ∀ c ∈ callee, VarargWanted W c) (p : Span) (want : Expectation)
    (hsettle : ∀ σ, R σ (σ.settle callee want m p)) (σ : Supply) :
    ∃ code fs σ₁ σ',
      s.LowersCall t m as p want σ code (want.dest (BoundCall.of callee want fs).ret σ₁) σ' ∧
        R σ σ' := by
  obtain ⟨site, σ₁, hs, rfl, hn⟩ := hsite σ
  obtain ⟨fs, σ₂, hargs, hn'⟩ := exists_args hR (suppliable_passed hR has hlen hw) σ₁
  exact ⟨_, fs, _, _, .mk hs hargs rfl,
    hR.trans hn (hR.trans hn' (hR.trans (hsettle σ₂) (hR.takeDest _ _ _)))⟩

end

def NotesKept (σ σ' : Supply) : Prop := σ'.notes = σ.notes

theorem threads_notesKept : Threads (· ≠ .discard) NotesKept where
  of := Expectation.of_ne_discard
  refl _ := rfl
  trans h h' := h'.trans h
  takeTemp _ := rfl

/-- The expression has a derivation wherever its value is wanted, and no note comes of it. -/
abbrev Lowerable (s : Scope) (e : Expr) : Prop := s.Yields (· ≠ .discard) NotesKept e

theorem exists_ownCall {s : Scope} {t : Option Expr} {m : String} {as : List Expr} {c : Signature}
    (hsite : ∀ σ, ∃ site σ', s.LowersSite t m σ site σ' ∧ site.callee = some c ∧
      σ'.notes = σ.notes)
    (has : ∀ e ∈ as, s.Lowerable e) (hlen : as.length < 2147483648) (p : Span) (want : Expectation)
    (σ : Supply) :
    ∃ code σ₁ σ', s.LowersCall t m as p want σ code (want.dest c.returnTy σ₁) σ' ∧
      σ'.notes = σ.notes := by
  have hw : ∀ c' ∈ some c, VarargWanted (· ≠ .discard) c' :=
    fun c' _ v _ => ⟨by simp, by simp⟩
  obtain ⟨code, fs, σ₁, σ', hcall, hn⟩ :=
    exists_call threads_notesKept hsite has hlen hw p want (fun _ => rfl) σ
  exact ⟨code, σ₁, σ', hcall, hn⟩

mutual

theorem HasType.lowerable {s : Scope} (hs : s.Closed) {e : Expr} {t : Ty} (h : s.HasType e t) :
    t.isVoid = false → (∀ n ∈ e.nodes, n.inLimits = true) → s.Lowerable e := by
  match h with
  | .literal =>
    intro _ _ want σ _
    exact ⟨_, _, .literal, rfl⟩
  | .name (b := b) hb hf =>
    intro _ _ want σ _
    cases hfield : b.isField with
    | false => exact ⟨_, _, .var hb hfield, rfl⟩
    | true =>
      cases b with
      | field f => exact ⟨_, _, .field hb, rfl⟩
      | localVar v | param v => simp [Binding.isField] at hfield
  | .this hstatic =>
    intro _ _ want σ _
    exact ⟨_, _, .this hstatic, rfl⟩
  | @HasType.binary _ op l r _ _ hop hl hr =>
    have ihl := hl.lowerable hs
    have ihr := hr.lowerable hs
    intro _ hn want σ _
    rw [Expr.nodes] at hn
    obtain ⟨hnl, hnr⟩ := List.forall_mem_append.1 (List.forall_mem_cons.1 hn).2
    obtain ⟨hwl, hwr⟩ := s.operandExpectations_ne_discard op l r
    obtain ⟨lf, σ₁, hlf, hn₁⟩ := ihl hop.scalar.2 hnl _ σ hwl
    obtain ⟨rf, σ₂, hrf, hn₂⟩ := ihr hop.scalar.2 hnr _ σ₁ hwr
    exact ⟨_, _, .binary hlf hrf, hn₂.trans hn₁⟩
  | @HasType.unary _ op _ _ he =>
    have ih := he.lowerable hs
    intro _ hn want σ _
    rw [Expr.nodes] at hn
    obtain ⟨f, σ₁, hf, hn₁⟩ :=
      ih op.scalar_ty.2 (List.forall_mem_cons.1 hn).2 (.value op.ty) σ (by simp)
    exact ⟨_, _, .unary hf, hn₁⟩
  | .paren he =>
    have ih := he.lowerable hs
    intro hvoid hn want σ hw
    rw [Expr.nodes] at hn
    obtain ⟨f, σ₁, hf, hn₁⟩ := ih hvoid (List.forall_mem_cons.1 hn).2 want σ hw
    exact ⟨_, _, .paren hf, hn₁⟩
  | .index ha hi _ hvoid =>
    have iha := ha.lowerable hs
    have ihi := hi.lowerable hs
    intro _ hn want σ _
    rw [Expr.nodes] at hn
    obtain ⟨hna, hni⟩ := List.forall_mem_append.1 (List.forall_mem_cons.1 hn).2
    obtain ⟨af, σ₁, haf, hn₁⟩ := iha hvoid hna _ σ (arrayExpectation_ne_discard want)
    obtain ⟨jf, σ₂, hjf, hn₂⟩ := ihi rfl hni (.value .int) σ₁ (by simp)
    exact ⟨_, _, .index haf hjf, hn₂.trans hn₁⟩
  | .length ha _ hvoid =>
    have ih := ha.lowerable hs
    intro _ hn want σ _
    rw [Expr.nodes] at hn
    obtain ⟨f, σ₁, hf, hn₁⟩ :=
      ih hvoid (List.forall_mem_cons.1 hn).2 (.value Ty.int.array) σ (by simp)
    exact ⟨_, _, .length hf, hn₁⟩
  | @HasType.call _ _ _ _ p c _ ht hm has _ =>
    have iht := ht.exists_site hs hm
    have ihas := has.lowerable hs
    intro hvoid hn want σ hw
    obtain ⟨hlen, hnt, hna⟩ := Expr.inLimits_call hn
    obtain ⟨code, σ₁, σ₂, hc, hn₂⟩ := exists_ownCall (iht hnt) (ihas hna) hlen p want σ
    have hdest : want.dest c.returnTy σ₁ = some ⟨σ₁.temps, c.returnTy⟩ := by
      have hret : c.returnTy.isVoid = false := hvoid
      simp [Expectation.dest, hw, hret]
    rw [hdest] at hc
    exact ⟨_, _, .call hc, hn₂⟩
  | .newObject =>
    intro _ _ want σ _
    exact ⟨_, _, .newObject, rfl⟩
  | .newArray he _ =>
    have ih := he.lowerable hs
    intro _ hn want σ _
    rw [Expr.nodes] at hn
    obtain ⟨f, σ₁, hf, hn₁⟩ := ih rfl (List.forall_mem_cons.1 hn).2 (.value .int) σ (by simp)
    exact ⟨_, _, .newArray hf, hn₁⟩
  | @HasType.arrayInit _ es _ _ _ hes _ _ _ =>
    have ih := hes.lowerable hs
    intro _ hn want σ _
    rw [Expr.nodes] at hn
    obtain ⟨hlen, hn⟩ := List.forall_mem_cons.1 hn
    have hlen : es.length < 2147483648 := by simpa [Node.inLimits, Expr.inLimits] using hlen
    obtain ⟨f, σ₁, hf, hn₁⟩ :=
      exists_packs threads_notesKept (ih hn) hlen (initElementTy _ want) (by simp) σ
    exact ⟨_, _, .arrayInit hf, hn₁⟩

theorem Receives.exists_site {s : Scope} (hs : s.Closed) {t : Option Expr} (h : s.Receives t)
    {m : String} {c : Signature} (hm : s.symbols.method? m = some c) :
    (∀ e ∈ t, ∀ n ∈ e.nodes, n.inLimits = true) → ∀ σ,
      ∃ site σ', s.LowersSite t m σ site σ' ∧ site.callee = some c ∧ σ'.notes = σ.notes := by
  match h with
  | .implicit hstatic =>
    intro _ σ
    exact ⟨_, σ, .implicit hstatic, hm, rfl⟩
  | .explicit he =>
    have ih := he.lowerable hs
    intro hn σ
    obtain ⟨ty, hty, hv, hd⟩ := he.typeOf_eq hs
    have hkind : ty.kind = .named s.symbols.className := congrArg Ty.kind hv
    have harray : ty.isArray = false := congrArg Ty.isArray hv
    obtain ⟨f, σ₁, hf, hn₁⟩ := ih rfl (hn _ rfl) .unknown σ (by simp)
    have howner : s.ownerOf ty m σ = .ok (s.symbols.internalName s.symbols.className) σ := by
      simp only [ownerOf, harray, hkind]
      rfl
    exact ⟨_, σ₁, .receiver (hs.staticReceiver?_eq _) hty howner hf,
      by simp [Symbols.callee?, harray, hkind, hm], hn₁⟩

theorem HaveTypes.lowerable {s : Scope} (hs : s.Closed) {es : List Expr} {ts : List Ty}
    (h : s.HaveTypes es ts) : (∀ n ∈ Expr.nodesOf es, n.inLimits = true) →
      ∀ e ∈ es, s.Lowerable e := by
  match h with
  | .nil =>
    intro _
    simp
  | .cons he hvoid hes =>
    have ihe := he.lowerable hs
    have ihes := hes.lowerable hs
    intro hn
    rw [Expr.nodesOf] at hn
    obtain ⟨hne, hnes⟩ := List.forall_mem_append.1 hn
    exact List.forall_mem_cons.2 ⟨ihe hvoid hne, ihes hnes⟩

end

theorem HasType.exists_effect {s : Scope} (hs : s.Closed) {e : Expr} {t : Ty} (h : s.HasType e t)
    (hn : ∀ n ∈ e.nodes, n.inLimits = true) (σ : Supply) :
    ∃ code σ', s.LowersEffect e σ code σ' ∧ σ'.notes = σ.notes := by
  have hstrip := h.stripParens
  have hn' : ∀ n ∈ e.stripParens.nodes, n.inLimits = true := fun n hmem =>
    hn n (e.nodes_stripParens_subset hmem)
  by_cases hcall : ∃ r m as p, e.stripParens = .call r m as p
  · obtain ⟨r, m, as, p, he⟩ := hcall
    rw [he] at hstrip hn'
    cases hstrip with
    | call ht hm has _ =>
      obtain ⟨hlen, hnt, hna⟩ := Expr.inLimits_call hn'
      obtain ⟨code, σ₁, σ₂, hc, hn₂⟩ :=
        exists_ownCall (ht.exists_site hs hm hnt) (has.lowerable hs hna) hlen p .discard σ
      exact ⟨code, σ₂, .call he hc, hn₂⟩
  · have hvoid : t.isVoid = false := by
      rw [← Bool.not_eq_true]
      intro hvoid
      rcases h.shape_of_isVoid hs hvoid with he | ⟨u, size, p, he⟩
      · exact hcall he
      · have hlimit := hn' _ (Expr.mem_nodes_self _)
        rw [he] at hstrip hlimit
        cases hstrip
        have : (Ty.ofName u).isVoid = true := hvoid
        simp [Node.inLimits, Expr.inLimits, this] at hlimit
    obtain ⟨f, σ₁, hf, hn₁⟩ :=
      hstrip.lowerable hs hvoid hn' _ σ (Expectation.of_ne_discard (s.typeHint e.stripParens))
    exact ⟨f.code, σ₁, .value (fun r m as p he => hcall ⟨r, m, as, p, he⟩) hf, hn₁⟩

theorem exists_assign {s : Scope} (hs : s.Closed) {target value : Expr} {t : Ty}
    (hplace : IsPlace target) (ht : s.HasType target t) (hv : s.HasType value t)
    (hvoid : t.isVoid = false) (hnt : ∀ n ∈ target.nodes, n.inLimits = true)
    (hnv : ∀ n ∈ value.nodes, n.inLimits = true) (σ : Supply) :
    ∃ code σ', s.LowersAssign target value σ code σ' ∧ σ'.notes = σ.notes := by
  have hvalue := hv.lowerable hs hvoid hnv
  cases ht with
  | @name n p b hb _ =>
    obtain ⟨v, σ₁, hlv, hn₁⟩ := hvalue (.of b.symbol.ty.asValue) σ (Expectation.of_ne_discard _)
    cases hfield : b.isField with
    | false => exact ⟨_, σ₁, .var hb hfield hlv, hn₁⟩
    | true =>
      cases b with
      | field f => exact ⟨_, σ₁, .field hb hlv, hn₁⟩
      | localVar v | param v => simp [Binding.isField] at hfield
  | index ha hi _ hva =>
    rw [Expr.nodes] at hnt
    obtain ⟨hna, hni⟩ := List.forall_mem_append.1 (List.forall_mem_cons.1 hnt).2
    obtain ⟨af, σ₁, haf, hn₁⟩ := ha.lowerable hs hva hna .unknown σ (by simp)
    obtain ⟨jf, σ₂, hjf, hn₂⟩ := hi.lowerable hs rfl hni (.value .int) σ₁ (by simp)
    obtain ⟨v, σ₃, hlv, hn₃⟩ := hvalue (.of af.operand.ty.element) σ₂ (Expectation.of_ne_discard _)
    exact ⟨_, σ₃, .element haf hjf hlv, hn₃.trans (hn₂.trans hn₁)⟩
  | _ => exact absurd hplace (by simp [IsPlace])

mutual

theorem Accepts.exists_lowers {s : Scope} (hs : s.Closed) (t : Stmt) (ha : s.Accepts t)
    (hn : ∀ n ∈ t.nodes, n.inLimits = true) (σ : Supply) :
    ∃ code σ', s.LowersStmt t σ code σ' ∧ σ'.notes = σ.notes := by
  cases t with
  | block b p =>
    simp only [Accepts] at ha
    rw [Stmt.nodes] at hn
    obtain ⟨code, σ₁, hb, hn₁⟩ :=
      AcceptsAll.exists_lowers hs b ha (List.forall_mem_cons.1 hn).2 σ
    exact ⟨code, σ₁, .block hb, hn₁⟩
  | cond c t e p =>
    cases e with
    | none =>
      simp only [Accepts] at ha
      rw [Stmt.nodes] at hn
      obtain ⟨hnc, hnt⟩ := List.forall_mem_append.1 (List.forall_mem_cons.1 hn).2
      obtain ⟨cf, σ₁, hcf, hn₁⟩ :=
        ha.1.lowerable hs rfl hnc (.value .boolean) σ.takeLabel (by simp)
      obtain ⟨tc, σ₂, ht, hn₂⟩ := Accepts.exists_lowers hs t ha.2 hnt σ₁
      exact ⟨_, σ₂, .condThen hcf ht, hn₂.trans hn₁⟩
    | some e =>
      simp only [Accepts] at ha
      rw [Stmt.nodes] at hn
      obtain ⟨hn, hne⟩ := List.forall_mem_append.1 (List.forall_mem_cons.1 hn).2
      obtain ⟨hnc, hnt⟩ := List.forall_mem_append.1 hn
      obtain ⟨cf, σ₁, hcf, hn₁⟩ :=
        ha.1.lowerable hs rfl hnc (.value .boolean) σ.takeLabel (by simp)
      obtain ⟨ec, σ₂, he, hn₂⟩ := Accepts.exists_lowers hs e ha.2.2 hne σ₁
      obtain ⟨tc, σ₃, ht, hn₃⟩ := Accepts.exists_lowers hs t ha.2.1 hnt σ₂
      exact ⟨_, σ₃, .condElse hcf he ht, hn₃.trans (hn₂.trans hn₁)⟩
  | loop c b p =>
    simp only [Accepts] at ha
    rw [Stmt.nodes] at hn
    obtain ⟨hnc, hnb⟩ := List.forall_mem_append.1 (List.forall_mem_cons.1 hn).2
    obtain ⟨cf, σ₁, hcf, hn₁⟩ := ha.1.lowerable hs rfl hnc (.value .boolean) σ.takeLabel (by simp)
    obtain ⟨bc, σ₂, hb, hn₂⟩ := Accepts.exists_lowers hs b ha.2 hnb σ₁
    exact ⟨_, σ₂, .loop hcf hb, hn₂.trans hn₁⟩
  | expr e p =>
    simp only [Accepts] at ha
    rw [Stmt.nodes] at hn
    obtain ⟨t, ht⟩ := ha
    obtain ⟨code, σ₁, he, hn₁⟩ := ht.exists_effect hs (List.forall_mem_cons.1 hn).2 σ
    exact ⟨code, σ₁, .expr he, hn₁⟩
  | assign target value p =>
    simp only [Accepts] at ha
    rw [Stmt.nodes] at hn
    obtain ⟨hplace, t, hvoid, ht, hv⟩ := ha
    obtain ⟨hnt, hnv⟩ := List.forall_mem_append.1 (List.forall_mem_cons.1 hn).2
    obtain ⟨code, σ₁, hl, hn₁⟩ := exists_assign hs hplace ht hv hvoid hnt hnv σ
    exact ⟨code, σ₁, .assign hl, hn₁⟩
  | ret v p =>
    cases v with
    | none => exact ⟨_, σ, .retNone, rfl⟩
    | some e =>
      simp only [Accepts] at ha
      rw [Stmt.nodes] at hn
      obtain ⟨v, σ₁, hv, hn₁⟩ := ha.2.lowerable hs ha.1 (List.forall_mem_cons.1 hn).2
        (.of s.method.returnTy) σ (Expectation.of_ne_discard _)
      exact ⟨_, σ₁, .retSome hv, hn₁⟩

theorem AcceptsAll.exists_lowers {s : Scope} (hs : s.Closed) (ts : List Stmt)
    (ha : s.AcceptsAll ts) (hn : ∀ n ∈ Stmt.nodesOf ts, n.inLimits = true) (σ : Supply) :
    ∃ code σ', s.LowersBody ts σ code σ' ∧ σ'.notes = σ.notes := by
  cases ts with
  | nil => exact ⟨[], σ, .nil, rfl⟩
  | cons t ts =>
    simp only [AcceptsAll] at ha
    rw [Stmt.nodesOf] at hn
    obtain ⟨hnt, hnts⟩ := List.forall_mem_append.1 hn
    obtain ⟨code, σ₁, ht, hn₁⟩ := Accepts.exists_lowers hs t ha.1 hnt σ
    obtain ⟨rest, σ₂, hts, hn₂⟩ := AcceptsAll.exists_lowers hs ts ha.2 hnts σ₁
    exact ⟨_, σ₂, .cons ht hts, hn₂.trans hn₁⟩

end

end Scope

theorem Symbols.exists_lowersMethods {S : Symbols} {W : Expectation → Prop}
    {R : Supply → Supply → Prop} (hR : Scope.Threads W R) {ds : List (MethodDecl × Signature)}
    (h : ∀ d ∈ ds, ∀ σ, ∃ code σ', Scope.LowersBody ⟨S, d.2⟩ d.1.body σ code σ' ∧ R σ σ')
    (σ : Supply) : ∃ ms σ', S.LowersMethods ds σ ms σ' ∧ R σ σ' := by
  induction ds generalizing σ with
  | nil => exact ⟨[], σ, .nil, hR.refl σ⟩
  | cons d ds ih =>
    obtain ⟨hd, hds⟩ := List.forall_mem_cons.1 h
    obtain ⟨code, σ₁, hb, hn₁⟩ := hd σ
    obtain ⟨ms, σ₂, hms, hn₂⟩ := ih hds σ₁
    exact ⟨_, σ₂, .cons hb hms, hR.trans hn₁ hn₂⟩

/-- A unit whose bodies are ready is lowered without a note. -/
theorem Symbols.lower_of_ready {S : Symbols} {p : Program}
    (h : ∀ d ∈ p.paired S, Scope.Ready ⟨S, d.2⟩ d.1.body) (σ : Supply) :
    ∃ code σ', S.lower p σ = .ok code σ' ∧ σ'.notes = σ.notes := by
  have hbodies := fun d hd σ =>
    Scope.AcceptsAll.exists_lowers (h d hd).closed d.1.body (h d hd).accepts (h d hd).limits σ
  obtain ⟨ms, σ', hms, hn⟩ := Symbols.exists_lowersMethods Scope.threads_notesKept hbodies σ
  exact ⟨_, σ', Symbols.lower_eq_ok_iff.2 ⟨ms, hms, rfl⟩, hn⟩

end SingleClass
