import SingleClass.Proofs.Constant.Simplification
set_option autoImplicit false

/-!
Lowering of simplified trees. Wherever a tree has a derivation, the simplified one has one too, from
every supply: its code is made of instructions that are like those of the first (`Instr.Like`), and it
takes no more temporaries and the same notes (`Supply.Keeps`).
-/

namespace SingleClass

/-- Operands of one type: the same one, two temporaries, or a literal in the place of another. -/
inductive Operand.Like : Operand → Operand → Prop
  | refl {o : Operand} : Like o o
  | temp {t t' : Temp} (h : t'.ty = t.ty) : Like (.temp t) (.temp t')
  | literal {o : Operand} {v : Literal} (h : o.ty = v.ty) : Like o (.ofLiteral v)

@[simp] theorem Operand.ty_ofLiteral (v : Literal) : (Operand.ofLiteral v).ty = v.ty := by
  cases v <;> rfl

theorem Operand.Like.ty_eq {o o' : Operand} (h : o.Like o') : o'.ty = o.ty := by
  cases h with
  | refl => rfl
  | temp h => exact h
  | literal h => rw [Operand.ty_ofLiteral, h]

theorem Operand.Like.trans {o o' o'' : Operand} (h : o.Like o') (h' : o'.Like o'') : o.Like o'' := by
  cases h' with
  | refl => exact h
  | literal h' => exact .literal (h.ty_eq.symm.trans h')
  | @temp t' t'' h' =>
    generalize ho' : Operand.temp t' = o' at h
    cases h with
    | refl => exact ho' ▸ .temp h'
    | temp h =>
      cases ho'
      exact .temp (h'.trans h)
    | @literal _ v _ => cases v <;> cases ho'

structure Call.Like (c c' : Call) : Prop where
  operands : List.Forall₂ Operand.Like (c.receiver.toList ++ c.args) (c'.receiver.toList ++ c'.args)
  params : c'.params = c.params
  ret : c'.ret = c.ret
  dest : c'.dest.map (·.ty) = c.dest.map (·.ty)

inductive Instr.Like : Instr → Instr → Prop
  | assignVar {n : String} {t : Ty} {v v' : Operand} (hv : v.Like v') :
      Like (.assign (.var n t) v) (.assign (.var n t) v')
  | assignTemp {t t' : Temp} {v v' : Operand} (ht : t'.ty = t.ty) (hv : v.Like v') :
      Like (.assign (.temp t) v) (.assign (.temp t') v')
  | assignElement {a a' j j' v v' : Operand} (ha : a.Like a') (hj : j.Like j') (hv : v.Like v') :
      Like (.assign (.element a j) v) (.assign (.element a' j') v')
  | binary {d d' : Temp} {op : BinaryOp} {l l' r r' : Operand} (hd : d'.ty = d.ty) (hl : l.Like l')
      (hr : r.Like r') : Like (.binary d op l r) (.binary d' op l' r')
  | unary {d d' : Temp} {op : UnaryOp} {v v' : Operand} (hd : d'.ty = d.ty) (hv : v.Like v') :
      Like (.unary d op v) (.unary d' op v')
  | call {c c' : Call} (hc : c.Like c') : Like (.call c) (.call c')
  | new {d d' : Temp} {c : String} (hd : d'.ty = d.ty) : Like (.new d c) (.new d' c)
  | newArray {d d' : Temp} {t : Ty} {n n' : Operand} (hd : d'.ty = d.ty) (hn : n.Like n') :
      Like (.newArray d t n) (.newArray d' t n')
  | arrayLoad {d d' : Temp} {a a' j j' : Operand} (hd : d'.ty = d.ty) (ha : a.Like a')
      (hj : j.Like j') : Like (.arrayLoad d a j) (.arrayLoad d' a' j')
  | arrayLength {d d' : Temp} {a a' : Operand} (hd : d'.ty = d.ty) (ha : a.Like a') :
      Like (.arrayLength d a) (.arrayLength d' a')
  | getField {d d' : Temp} {n : String} {t : Ty} (hd : d'.ty = d.ty) :
      Like (.getField d n t) (.getField d' n t)
  | putField {n : String} {t : Ty} {v v' : Operand} (hv : v.Like v') :
      Like (.putField n t v) (.putField n t v')
  | retNone : Like (.ret none) (.ret none)
  | retSome {v v' : Operand} (hv : v.Like v') : Like (.ret (some v)) (.ret (some v'))
  | goto {l l' : Label} : Like (.goto l) (.goto l')
  | branch {c c' : Operand} {l l' : Label} (hc : c.Like c') : Like (.branch c l) (.branch c' l')
  | label {l l' : Label} : Like (.label l) (.label l')

theorem Call.Like.refl (c : Call) : c.Like c :=
  ⟨List.forall₂_same.2 fun _ _ => .refl, rfl, rfl, rfl⟩

theorem Operand.forall₂_like_trans {os os' os'' : List Operand} (h : List.Forall₂ Operand.Like os os')
    (h' : List.Forall₂ Operand.Like os' os'') : List.Forall₂ Operand.Like os os'' := by
  induction h generalizing os'' with
  | nil => exact h'
  | cons ho _ ih =>
    cases h' with
    | cons ho' hos' => exact .cons (ho.trans ho') (ih hos')

theorem Call.Like.trans {c c' c'' : Call} (h : c.Like c') (h' : c'.Like c'') : c.Like c'' where
  operands := Operand.forall₂_like_trans h.operands h'.operands
  params := h'.params.trans h.params
  ret := h'.ret.trans h.ret
  dest := h'.dest.trans h.dest

theorem Instr.Like.refl (i : Instr) : i.Like i := by
  cases i with
  | assign d v =>
    cases d with
    | var n t => exact .assignVar .refl
    | temp t => exact .assignTemp rfl .refl
    | element a j => exact .assignElement .refl .refl .refl
  | binary d op l r => exact .binary rfl .refl .refl
  | unary d op v => exact .unary rfl .refl
  | call c => exact .call (.refl c)
  | new d c => exact .new rfl
  | newArray d t n => exact .newArray rfl .refl
  | arrayLoad d a j => exact .arrayLoad rfl .refl .refl
  | arrayLength d a => exact .arrayLength rfl .refl
  | getField d n t => exact .getField rfl
  | putField n t v => exact .putField .refl
  | ret v =>
    cases v with
    | none => exact .retNone
    | some v => exact .retSome .refl
  | goto l => exact .goto
  | branch c l => exact .branch .refl
  | label l => exact .label

theorem Instr.Like.trans {i i' i'' : Instr} (h : i.Like i') (h' : i'.Like i'') : i.Like i'' := by
  cases h with
  | assignVar hv =>
    cases h' with
    | assignVar hv' => exact .assignVar (hv.trans hv')
  | assignTemp ht hv =>
    cases h' with
    | assignTemp ht' hv' => exact .assignTemp (ht'.trans ht) (hv.trans hv')
  | assignElement ha hj hv =>
    cases h' with
    | assignElement ha' hj' hv' => exact .assignElement (ha.trans ha') (hj.trans hj') (hv.trans hv')
  | binary hd hl hr =>
    cases h' with
    | binary hd' hl' hr' => exact .binary (hd'.trans hd) (hl.trans hl') (hr.trans hr')
  | unary hd hv =>
    cases h' with
    | unary hd' hv' => exact .unary (hd'.trans hd) (hv.trans hv')
  | call hc =>
    cases h' with
    | call hc' => exact .call (hc.trans hc')
  | new hd =>
    cases h' with
    | new hd' => exact .new (hd'.trans hd)
  | newArray hd hn =>
    cases h' with
    | newArray hd' hn' => exact .newArray (hd'.trans hd) (hn.trans hn')
  | arrayLoad hd ha hj =>
    cases h' with
    | arrayLoad hd' ha' hj' => exact .arrayLoad (hd'.trans hd) (ha.trans ha') (hj.trans hj')
  | arrayLength hd ha =>
    cases h' with
    | arrayLength hd' ha' => exact .arrayLength (hd'.trans hd) (ha.trans ha')
  | getField hd =>
    cases h' with
    | getField hd' => exact .getField (hd'.trans hd)
  | putField hv =>
    cases h' with
    | putField hv' => exact .putField (hv.trans hv')
  | retNone => exact h'
  | retSome hv =>
    cases h' with
    | retSome hv' => exact .retSome (hv.trans hv')
  | goto =>
    cases h' with
    | goto => exact .goto
  | branch hc =>
    cases h' with
    | branch hc' => exact .branch (hc.trans hc')
  | label =>
    cases h' with
    | label => exact .label

def LikeCode (code code' : List Instr) : Prop := ∀ i' ∈ code', ∃ i ∈ code, i.Like i'

namespace LikeCode

theorem refl (code : List Instr) : LikeCode code code := fun i hi => ⟨i, hi, .refl i⟩

theorem trans {code code' code'' : List Instr} (h : LikeCode code code')
    (h' : LikeCode code' code'') : LikeCode code code'' := by
  intro i'' hi''
  obtain ⟨i', hi', hlike'⟩ := h' i'' hi''
  obtain ⟨i, hi, hlike⟩ := h i' hi'
  exact ⟨i, hi, hlike.trans hlike'⟩

theorem nil (code : List Instr) : LikeCode code [] := by
  simp [LikeCode]

theorem append {code code' rest rest' : List Instr} (h : LikeCode code code')
    (hr : LikeCode rest rest') : LikeCode (code ++ rest) (code' ++ rest') := by
  refine List.forall_mem_append.2 ⟨?_, ?_⟩
  · intro i' hi'
    obtain ⟨i, hi, hlike⟩ := h i' hi'
    exact ⟨i, List.mem_append_left _ hi, hlike⟩
  · intro i' hi'
    obtain ⟨i, hi, hlike⟩ := hr i' hi'
    exact ⟨i, List.mem_append_right _ hi, hlike⟩

theorem cons {i i' : Instr} {code code' : List Instr} (hi : i.Like i') (h : LikeCode code code') :
    LikeCode (i :: code) (i' :: code') := by
  refine List.forall_mem_cons.2 ⟨⟨i, List.mem_cons_self, hi⟩, ?_⟩
  intro j' hj'
  obtain ⟨j, hj, hlike⟩ := h j' hj'
  exact ⟨j, List.mem_cons_of_mem _ hj, hlike⟩

theorem snoc {i i' : Instr} {code code' : List Instr} (h : LikeCode code code') (hi : i.Like i') :
    LikeCode (code ++ [i]) (code' ++ [i']) :=
  h.append (.cons hi (.nil _))

end LikeCode

structure Fragment.Like (f f' : Fragment) : Prop where
  code : LikeCode f.code f'.code
  operand : f.operand.Like f'.operand

/-- What is taken from the supply `τ` is what is taken from `σ`, some temporaries aside. -/
structure Supply.Keeps (σ σ' τ τ' : Supply) : Prop where
  notes : ∃ ds, σ'.notes = σ.notes ++ ds ∧ τ'.notes = τ.notes ++ ds
  temps : τ'.temps + σ.temps ≤ τ.temps + σ'.temps

namespace Supply.Keeps

theorem refl (σ τ : Supply) : Keeps σ σ τ τ := ⟨⟨[], by simp⟩, by omega⟩

theorem trans {σ σ₁ σ₂ τ τ₁ τ₂ : Supply} (h : Keeps σ σ₁ τ τ₁) (h' : Keeps σ₁ σ₂ τ₁ τ₂) :
    Keeps σ σ₂ τ τ₂ := by
  obtain ⟨⟨ds, hσ, hτ⟩, hle⟩ := h
  obtain ⟨⟨ds', hσ', hτ'⟩, hle'⟩ := h'
  refine ⟨⟨ds ++ ds', ?_, ?_⟩, by omega⟩
  · rw [hσ', hσ, List.append_assoc]
  · rw [hτ', hτ, List.append_assoc]

theorem through {σ σ' υ υ' τ τ' : Supply} (h : Keeps σ σ' υ υ') (h' : Keeps υ υ' τ τ') :
    Keeps σ σ' τ τ' := by
  obtain ⟨⟨ds, hσ, hυ⟩, hle⟩ := h
  obtain ⟨⟨ds', hυ', hτ⟩, hle'⟩ := h'
  have hds : ds' = ds := List.append_cancel_left (hυ'.symm.trans hυ)
  exact ⟨⟨ds, hσ, hds ▸ hτ⟩, by omega⟩

theorem takeTemp (σ τ : Supply) : Keeps σ σ.takeTemp τ τ.takeTemp :=
  ⟨⟨[], by simp [Supply.takeTemp]⟩, by simp only [Supply.takeTemp]; omega⟩

theorem takeLabel (σ τ : Supply) : Keeps σ σ.takeLabel τ τ.takeLabel :=
  ⟨⟨[], by simp [Supply.takeLabel]⟩, by simp only [Supply.takeLabel]; omega⟩

theorem skipTemp (σ τ : Supply) : Keeps σ σ.takeTemp τ τ :=
  ⟨⟨[], by simp [Supply.takeTemp]⟩, by simp only [Supply.takeTemp]; omega⟩

theorem settle (σ τ : Supply) (callee : Option Signature) (want : Expectation) (m : String)
    (p : Span) : Keeps σ (σ.settle callee want m p) τ (τ.settle callee want m p) := by
  unfold Supply.settle
  split
  · exact ⟨⟨_, rfl, rfl⟩, by dsimp only; omega⟩
  · exact refl σ τ

theorem takeDest (σ τ : Supply) (want : Expectation) (ret : Ty) :
    Keeps σ (σ.takeDest want ret) τ (τ.takeDest want ret) := by
  unfold Supply.takeDest
  split
  · exact refl σ τ
  · exact takeTemp σ τ

end Supply.Keeps

theorem BinaryOp.resultTy_of_compute {op : BinaryOp} {a b c : Int32} (h : op.compute a b = some c) :
    op.resultTy = (Literal.int c).ty := by
  simp [BinaryOp.resultTy, BinaryOp.arithmetic_of_compute h, Literal.ty]

theorem BoundCall.ret_of (callee : Option Signature) (want : Expectation) (fs fs' : List Fragment) :
    (BoundCall.of callee want fs').ret = (BoundCall.of callee want fs).ret := by
  cases callee <;> rfl

namespace Scope

variable {s : Scope}

theorem SimplifiesAll.length_eq {es es' : List Expr} (h : s.SimplifiesAll es es') :
    es'.length = es.length := by
  induction es generalizing es' with
  | nil =>
    cases h
    rfl
  | cons e es ih =>
    cases h with
    | cons _ hes => simp [ih hes]

theorem SimplifiesAll.drop {es es' : List Expr} (h : s.SimplifiesAll es es') (k : Nat) :
    s.SimplifiesAll (es.drop k) (es'.drop k) := by
  induction es generalizing es' k with
  | nil =>
    cases h
    simpa using SimplifiesAll.nil
  | cons e es ih =>
    cases h with
    | cons he hes =>
      cases k with
      | zero => exact .cons he hes
      | succ k => exact ih hes k

inductive SimplifiesPassed (s : Scope) : Passed → Passed → Prop
  | direct {e e' : Expr} {want : Expectation} (he : s.Simplifies e e') :
      SimplifiesPassed s (.direct e want) (.direct e' want)
  | packed {element : Ty} {es es' : List Expr} (hes : s.SimplifiesAll es es') :
      SimplifiesPassed s (.packed element es) (.packed element es')

theorem SimplifiesAll.direct {as as' : List Expr} (h : s.SimplifiesAll as as') :
    List.Forall₂ s.SimplifiesPassed (as.map fun a => .direct a (.of (s.typeHint a)))
      (as'.map fun a => .direct a (.of (s.typeHint a))) := by
  induction as generalizing as' with
  | nil =>
    cases h
    exact .nil
  | cons a as ih =>
    cases h with
    | cons he hes =>
      refine .cons ?_ (ih hes)
      dsimp only
      rw [he.typeHint_eq]
      exact .direct he

theorem SimplifiesAll.fixed {as as' : List Expr} (h : s.SimplifiesAll as as') (vs : List Symbol)
    (k : Nat) :
    List.Forall₂ s.SimplifiesPassed
      (((as.zip vs).take k).map fun (a, v) => .direct a (.of v.ty.asValue))
      (((as'.zip vs).take k).map fun (a, v) => .direct a (.of v.ty.asValue)) := by
  induction as generalizing as' vs k with
  | nil =>
    cases h
    simp
  | cons a as ih =>
    cases h with
    | cons he hes =>
      cases vs with
      | nil => simp
      | cons v vs =>
        cases k with
        | zero => simp
        | succ k => exact .cons (.direct he) (ih hes vs k)

theorem SimplifiesAll.passedLast {as as' : List Expr} (h : s.SimplifiesAll as as') (t : Ty) :
    s.SimplifiesPassed (s.passedLast t as) (s.passedLast t as') := by
  unfold Scope.passedLast
  rw [h.typeHints_eq]
  cases VarargPassing.of (as.map s.typeHint) t.element with
  | pack => exact .packed h
  | array =>
    cases h with
    | nil => exact .packed .nil
    | cons he _ => exact .direct he

theorem SimplifiesAll.passed {as as' : List Expr} (h : s.SimplifiesAll as as')
    (callee : Option Signature) :
    List.Forall₂ s.SimplifiesPassed (s.passed callee as) (s.passed callee as') := by
  cases callee with
  | none => exact h.direct
  | some c =>
    refine List.rel_append (h.fixed c.params c.fixedArity) ?_
    cases c.vararg? with
    | none => exact .nil
    | some v => exact .cons ((h.drop c.fixedArity).passedLast v.ty) .nil

theorem ownerOf_eq_ok {t : Ty} {m owner : String} {σ σ' : Supply}
    (h : s.ownerOf t m σ = .ok owner σ') (τ : Supply) : s.ownerOf t m τ = .ok owner τ := by
  unfold ownerOf at h ⊢
  cases ha : t.isArray with
  | true => simp [ha, Lower.throw_ne_ok] at h
  | false =>
    simp only [ha, Bool.false_eq_true, if_false] at h ⊢
    cases hk : t.kind with
    | named c | string =>
      simp only [hk, Lower.pure_eq_ok, and_true] at h ⊢
      exact h.1
    | _ => simp [hk, Lower.throw_ne_ok] at h

theorem Simplifies.of_call {t : Option Expr} {m : String} {as : List Expr} {p : Span} {e' : Expr}
    (h : s.Simplifies (.call t m as p) e') :
    ∃ t' as', e' = .call t' m as' p ∧ Option.Rel s.Simplifies t t' ∧ s.SimplifiesAll as as' := by
  cases h with
  | call has => exact ⟨none, _, rfl, .none, has⟩
  | callOn ht has => exact ⟨some _, _, rfl, .some ht, has⟩

theorem Simplifies.not_call {e e' : Expr} (h : s.Simplifies e e')
    (hc : ∀ t m as p, e ≠ .call t m as p) : ∀ t m as p, e' ≠ .call t m as p := by
  cases h with
  | call _ | callOn _ _ => exact absurd rfl (hc _ _ _ _)
  | _ => simp

structure LikeSite (site site' : CallSite) : Prop where
  code : LikeCode site.code site'.code
  receiver : List.Forall₂ Operand.Like site.receiver.toList site'.receiver.toList
  callee : site'.callee = site.callee

theorem map_ty_dest (want : Expectation) (ret : Ty) (σ : Supply) :
    (want.dest ret σ).map (·.ty) = if want = .discard || ret.isVoid then none else some ret := by
  unfold Expectation.dest
  split <;> rfl

theorem ty_of_like {fs fs' : List Fragment} (h : List.Forall₂ Fragment.Like fs fs') :
    fs'.map (·.operand.ty) = fs.map (·.operand.ty) := by
  induction h with
  | nil => rfl
  | cons hf _ ih => rw [List.map_cons, List.map_cons, hf.operand.ty_eq, ih]

theorem likeCode_flatMap {fs fs' : List Fragment} (h : List.Forall₂ Fragment.Like fs fs') :
    LikeCode (fs.flatMap (·.code)) (fs'.flatMap (·.code)) := by
  induction h with
  | nil => exact .nil _
  | cons hf _ ih => exact hf.code.append ih

theorem LikeSite.call {site site' : CallSite} (hsite : LikeSite site site') {fs fs' : List Fragment}
    (hfs : List.Forall₂ Fragment.Like fs fs') (m : String) (want : Expectation) (σ τ : Supply) :
    (site.instr m (.of site.callee want fs) (want.dest (BoundCall.of site.callee want fs).ret σ)).Like
      (site'.instr m (.of site'.callee want fs')
        (want.dest (BoundCall.of site'.callee want fs').ret τ)) := by
  rw [hsite.callee]
  have hparams : (BoundCall.of site.callee want fs').params =
      (BoundCall.of site.callee want fs).params := by
    cases site.callee with
    | none => exact ty_of_like hfs
    | some c => rfl
  have hret := BoundCall.ret_of site.callee want fs fs'
  refine ⟨?_, hparams, hret, ?_⟩
  · simp only [CallSite.instr, BoundCall.args_of]
    refine List.rel_append hsite.receiver ?_
    rw [List.forall₂_map_left_iff, List.forall₂_map_right_iff]
    exact hfs.imp fun _ _ h => h.operand
  · simp only [CallSite.instr, map_ty_dest, hret]

theorem like_constructorCall {d d' : Temp} {c : String} (hd : d'.ty = d.ty) :
    (s.constructorCall d c).Like (s.constructorCall d' c) :=
  ⟨.cons (.temp hd) .nil, rfl, rfl, rfl⟩

theorem operandExpectations_eq {op : BinaryOp} {l l' r r' : Expr} (hl : s.Simplifies l l')
    (hr : s.Simplifies r r') : s.operandExpectations op l' r' = s.operandExpectations op l r := by
  simp only [operandExpectations, hl.typeHint_eq, hr.typeHint_eq]

mutual

/-- A simplified expression has a derivation wherever the expression has one. -/
theorem Lowers.simulate {e e' : Expr} {want : Expectation} {σ σ' : Supply} {f : Fragment}
    (h : s.Lowers e want σ f σ') (he : s.Simplifies e e') (τ : Supply) :
    ∃ f' τ', s.Lowers e' want τ f' τ' ∧ f.Like f' ∧ σ.Keeps σ' τ τ' := by
  match h with
  | .literal =>
    cases he with
    | literal => exact ⟨_, τ, .literal, ⟨.nil _, .refl⟩, .refl σ τ⟩
  | .var hb hf =>
    cases he with
    | name => exact ⟨_, τ, .var hb hf, ⟨.nil _, .refl⟩, .refl σ τ⟩
    | read hx hty =>
      cases (lookup_of_local? hx).symm.trans hb
      exact ⟨_, τ, .literal, ⟨.nil _, .literal hty⟩, .refl σ τ⟩
  | .field hf =>
    cases he with
    | name =>
      exact ⟨_, _, .field hf, ⟨.cons (.getField rfl) (.nil _), .temp rfl⟩, .takeTemp σ τ⟩
    | read hx _ => cases (lookup_of_local? hx).symm.trans hf
  | .this hs =>
    cases he with
    | this => exact ⟨_, τ, .this hs, ⟨.nil _, .refl⟩, .refl σ τ⟩
  | .binary hl hr =>
    cases he with
    | binary hel her =>
      obtain ⟨lf', τ₁, hl', hlf, hk₁⟩ := hl.simulate hel τ
      obtain ⟨rf', τ₂, hr', hrf, hk₂⟩ := hr.simulate her τ₁
      rw [← operandExpectations_eq hel her] at hl' hr'
      exact ⟨_, _, .binary hl' hr',
        ⟨(hlf.code.append hrf.code).snoc (.binary rfl hlf.operand hrf.operand), .temp rfl⟩,
        (hk₁.trans hk₂).trans (.takeTemp _ _)⟩
    | compute hel her hc =>
      -- literals take nothing from the supply, so neither do the operands that became them
      obtain ⟨lf', τ₁, hl', _, hk₁⟩ := hl.simulate hel τ
      cases hl'
      obtain ⟨rf', τ₂, hr', _, hk₂⟩ := hr.simulate her τ
      cases hr'
      refine ⟨_, τ, .literal, ⟨.nil _, ?_⟩, (hk₁.trans hk₂).trans (.skipTemp _ _)⟩
      exact @Operand.Like.literal _ (.int _) (BinaryOp.resultTy_of_compute hc)
  | .unary ho =>
    cases he with
    | unary heo =>
      obtain ⟨f', τ₁, ho', hf, hk⟩ := ho.simulate heo τ
      exact ⟨_, _, .unary ho', ⟨hf.code.snoc (.unary rfl hf.operand), .temp rfl⟩,
        hk.trans (.takeTemp _ _)⟩
  | .paren ho =>
    cases he with
    | paren heo =>
      obtain ⟨f', τ₁, ho', hf, hk⟩ := ho.simulate heo τ
      exact ⟨f', τ₁, .paren ho', hf, hk⟩
    | unparen heo => exact ho.simulate heo τ
  | .index ha hi =>
    cases he with
    | index hea hei =>
      obtain ⟨af', τ₁, ha', haf, hk₁⟩ := ha.simulate hea τ
      obtain ⟨jf', τ₂, hi', hjf, hk₂⟩ := hi.simulate hei τ₁
      have hty : af'.operand.ty.element = Ty.element _ := congrArg Ty.element haf.operand.ty_eq
      exact ⟨_, _, .index ha' hi',
        ⟨(haf.code.append hjf.code).snoc (.arrayLoad hty haf.operand hjf.operand), .temp hty⟩,
        (hk₁.trans hk₂).trans (.takeTemp _ _)⟩
  | .length ha =>
    cases he with
    | length hea =>
      obtain ⟨f', τ₁, ha', hf, hk⟩ := ha.simulate hea τ
      exact ⟨_, _, .length ha', ⟨hf.code.snoc (.arrayLength rfl hf.operand), .temp rfl⟩,
        hk.trans (.takeTemp _ _)⟩
  | .call hc =>
    obtain ⟨t', as', rfl, ht, has⟩ := he.of_call
    obtain ⟨code', dest', τ', hc', hcode, hdest, hk⟩ := hc.simulate ht has τ
    obtain ⟨result', rfl, hty⟩ := Option.map_eq_some_iff.1 hdest
    exact ⟨_, τ', .call hc', ⟨hcode, .temp hty⟩, hk⟩
  | .newObject =>
    cases he with
    | newObject =>
      exact ⟨_, _, .newObject,
        ⟨.cons (.new rfl) (.cons (.call (like_constructorCall rfl)) (.nil _)), .temp rfl⟩,
        .takeTemp σ τ⟩
  | .newArray ho =>
    cases he with
    | newArray heo =>
      obtain ⟨f', τ₁, ho', hf, hk⟩ := ho.simulate heo τ
      exact ⟨_, _, .newArray ho', ⟨hf.code.snoc (.newArray rfl hf.operand), .temp rfl⟩,
        hk.trans (.takeTemp _ _)⟩
  | .arrayInit hp =>
    cases he with
    | arrayInit hes =>
      obtain ⟨f', τ', hp', hf, hk⟩ := hp.simulate hes τ
      rw [← (Simplifies.arrayInit hes).typeHint_eq] at hp'
      exact ⟨f', τ', .arrayInit hp', hf, hk⟩

theorem LowersCall.simulate {t t' : Option Expr} {m : String} {as as' : List Expr} {p : Span}
    {want : Expectation} {σ σ' : Supply} {code : List Instr} {dest : Option Temp}
    (h : s.LowersCall t m as p want σ code dest σ') (ht : Option.Rel s.Simplifies t t')
    (has : s.SimplifiesAll as as') (τ : Supply) :
    ∃ code' dest' τ', s.LowersCall t' m as' p want τ code' dest' τ' ∧ LikeCode code code' ∧
      dest'.map (·.ty) = dest.map (·.ty) ∧ σ.Keeps σ' τ τ' := by
  match h with
  | .mk hsite hargs hbound =>
    obtain ⟨site', τ₁, hsite', hlike, hk₁⟩ := hsite.simulate ht τ
    obtain ⟨fs', τ₂, hargs', hfs, hk₂⟩ := hargs.simulate (has.passed _) τ₁
    rw [← hlike.callee] at hargs'
    subst hbound
    refine ⟨_, _, _, .mk hsite' hargs' rfl, ?_, (hlike.call hfs m want _ _).dest, ?_⟩
    · exact (hlike.code.append (likeCode_flatMap hfs)).snoc (.call (hlike.call hfs m want _ _))
    · rw [hlike.callee, BoundCall.ret_of]
      exact (hk₁.trans hk₂).trans ((Supply.Keeps.settle _ _ _ want m p).trans (.takeDest _ _ _ _))

theorem LowersSite.simulate {t t' : Option Expr} {m : String} {σ σ' : Supply} {site : CallSite}
    (h : s.LowersSite t m σ site σ') (ht : Option.Rel s.Simplifies t t') (τ : Supply) :
    ∃ site' τ', s.LowersSite t' m τ site' τ' ∧ LikeSite site site' ∧ σ.Keeps σ' τ τ' := by
  match h with
  | .implicit hs =>
    cases ht with
    | none => exact ⟨_, τ, .implicit hs, ⟨.nil _, .cons .refl .nil, rfl⟩, .refl σ τ⟩
  | .static hi =>
    cases ht with
    | some het =>
      rw [← het.staticReceiver?_eq] at hi
      exact ⟨_, τ, .static hi, ⟨.nil _, .nil, rfl⟩, .refl σ τ⟩
  | .receiver hn hty ho ht' =>
    cases ht with
    | some het =>
      obtain ⟨f', τ', ht', hf, hk⟩ := ht'.simulate het τ
      rw [← het.staticReceiver?_eq] at hn
      exact ⟨_, τ', .receiver hn ((het.typeOf_eq_ok _).2 hty) (ownerOf_eq_ok ho τ) ht',
        ⟨hf.code, .cons hf.operand .nil, rfl⟩, hk⟩

theorem LowersArgs.simulate {ps ps' : List Passed} {σ σ' : Supply} {fs : List Fragment}
    (h : s.LowersArgs ps σ fs σ') (hps : List.Forall₂ s.SimplifiesPassed ps ps') (τ : Supply) :
    ∃ fs' τ', s.LowersArgs ps' τ fs' τ' ∧ List.Forall₂ Fragment.Like fs fs' ∧ σ.Keeps σ' τ τ' := by
  match h with
  | .nil =>
    cases hps
    exact ⟨[], τ, .nil, .nil, .refl σ τ⟩
  | .direct he hs =>
    cases hps with
    | cons hp hps =>
      cases hp with
      | direct hee =>
        obtain ⟨f', τ₁, he', hf, hk⟩ := he.simulate hee τ
        obtain ⟨fs', τ₂, hs', hfs, hk'⟩ := hs.simulate hps τ₁
        exact ⟨_, τ₂, .direct he' hs', .cons hf hfs, hk.trans hk'⟩
  | .packed hp hs =>
    cases hps with
    | cons hpp hps =>
      cases hpp with
      | packed hes =>
        obtain ⟨f', τ₁, hp', hf, hk⟩ := hp.simulate hes τ
        obtain ⟨fs', τ₂, hs', hfs, hk'⟩ := hs.simulate hps τ₁
        exact ⟨_, τ₂, .packed hp' hs', .cons hf hfs, hk.trans hk'⟩

theorem Packs.simulate {element : Ty} {es es' : List Expr} {σ σ' : Supply} {f : Fragment}
    (h : s.Packs element es σ f σ') (hes : s.SimplifiesAll es es') (τ : Supply) :
    ∃ f' τ', s.Packs element es' τ f' τ' ∧ f.Like f' ∧ σ.Keeps σ' τ τ' := by
  match h with
  | .mk hlen hs =>
    obtain ⟨stores', τ', hs', hcode, hk⟩ :=
      hs.simulate hes ⟨τ.temps, element.array⟩ rfl τ.takeTemp
    rw [← hes.length_eq] at hlen ⊢
    exact ⟨_, τ', .mk hlen hs', ⟨.cons (.newArray rfl .refl) hcode, .temp rfl⟩,
      (Supply.Keeps.takeTemp σ τ).trans hk⟩

theorem Stores.simulate {array : Temp} {element : Ty} {i : Nat} {es es' : List Expr}
    {σ σ' : Supply} {code : List Instr} (h : s.Stores array element i es σ code σ')
    (hes : s.SimplifiesAll es es') (array' : Temp) (harray : array'.ty = array.ty) (τ : Supply) :
    ∃ code' τ', s.Stores array' element i es' τ code' τ' ∧ LikeCode code code' ∧
      σ.Keeps σ' τ τ' := by
  match h with
  | .nil =>
    cases hes
    exact ⟨[], τ, .nil, .nil _, .refl σ τ⟩
  | .cons he hs =>
    cases hes with
    | cons hee hes =>
      obtain ⟨f', τ₁, he', hf, hk⟩ := he.simulate hee τ
      obtain ⟨code', τ₂, hs', hcode, hk'⟩ := hs.simulate hes array' harray τ₁
      exact ⟨_, τ₂, .cons he' hs',
        hf.code.append (.cons (.assignElement (.temp harray) .refl hf.operand) hcode),
        hk.trans hk'⟩

end

theorem LowersEffect.simulate {e e' : Expr} {σ σ' : Supply} {code : List Instr}
    (h : s.LowersEffect e σ code σ') (he : s.Simplifies e e') (τ : Supply) :
    ∃ code' τ', s.LowersEffect e' τ code' τ' ∧ LikeCode code code' ∧ σ.Keeps σ' τ τ' := by
  have hstrip := he.stripParens
  cases h with
  | call hcall hc =>
    rw [hcall] at hstrip
    obtain ⟨t', as', hcall', ht, has⟩ := hstrip.of_call
    obtain ⟨code', dest', τ', hc', hcode, _, hk⟩ := hc.simulate ht has τ
    exact ⟨code', τ', .call hcall' hc', hcode, hk⟩
  | value hcall hv =>
    obtain ⟨f', τ', hv', hf, hk⟩ := hv.simulate hstrip τ
    rw [← hstrip.typeHint_eq] at hv'
    exact ⟨f'.code, τ', .value (hstrip.not_call hcall) hv', hf.code, hk⟩

theorem LowersAssign.simulate_name {n : String} {q : Span} {v v' : Expr} {σ σ' : Supply}
    {code : List Instr} (h : s.LowersAssign (.name n q) v σ code σ') (hv : s.Simplifies v v')
    (τ : Supply) :
    ∃ code' τ', s.LowersAssign (.name n q) v' τ code' τ' ∧ LikeCode code code' ∧
      σ.Keeps σ' τ τ' := by
  cases h with
  | var hb hf h =>
    obtain ⟨f', τ', h', hlike, hk⟩ := h.simulate hv τ
    exact ⟨_, τ', .var hb hf h', hlike.code.snoc (.assignVar hlike.operand), hk⟩
  | field hf h =>
    obtain ⟨f', τ', h', hlike, hk⟩ := h.simulate hv τ
    exact ⟨_, τ', .field hf h', hlike.code.snoc (.putField hlike.operand), hk⟩

theorem LowersAssign.simulate {t t' v v' : Expr} {σ σ' : Supply} {code : List Instr}
    (h : s.LowersAssign t v σ code σ') (hn : ∀ n q, t ≠ .name n q) (ht : s.Simplifies t t')
    (hv : s.Simplifies v v') (τ : Supply) :
    ∃ code' τ', s.LowersAssign t' v' τ code' τ' ∧ LikeCode code code' ∧ σ.Keeps σ' τ τ' := by
  cases h with
  | var _ _ _ | field _ _ => exact absurd rfl (hn _ _)
  | element ha hi h =>
    cases ht with
    | index hea hei =>
      obtain ⟨af', τ₁, ha', haf, hk₁⟩ := ha.simulate hea τ
      obtain ⟨jf', τ₂, hi', hjf, hk₂⟩ := hi.simulate hei τ₁
      obtain ⟨f', τ₃, h', hf, hk₃⟩ := h.simulate hv τ₂
      rw [← haf.operand.ty_eq] at h'
      exact ⟨_, τ₃, .element ha' hi' h',
        ((haf.code.append hjf.code).append hf.code).snoc
          (.assignElement haf.operand hjf.operand hf.operand),
        (hk₁.trans hk₂).trans hk₃⟩

theorem likeCode_cond {l l' : Nat} {c c' : Fragment} {t t' e e' : List Instr} (hc : c.Like c')
    (ht : LikeCode t t') (he : LikeCode e e') : LikeCode (condCode l c t e) (condCode l' c' t' e') :=
  ((((hc.code.snoc (.branch hc.operand)).append he).append
    (.cons .goto (.cons .label (.nil _)))).append ht).snoc .label

theorem likeCode_loop {l l' : Nat} {c c' : Fragment} {b b' : List Instr} (hc : c.Like c')
    (hb : LikeCode b b') : LikeCode (loopCode l c b) (loopCode l' c' b') :=
  ((((LikeCode.cons .label (.nil _)).append hc.code).append
    (.cons (.branch hc.operand) (.cons .goto (.cons .label (.nil _))))).append hb).append
    (.cons .goto (.cons .label (.nil _)))

mutual

theorem LowersStmt.simulate {t t' : Stmt} {σ σ' : Supply} {code : List Instr}
    (h : s.LowersStmt t σ code σ') (ht : s.SimplifiesStmt t t') (τ : Supply) :
    ∃ code' τ', s.LowersStmt t' τ code' τ' ∧ LikeCode code code' ∧ σ.Keeps σ' τ τ' := by
  match h with
  | .block hb =>
    cases ht with
    | block hbb =>
      obtain ⟨code', τ', hb', hcode, hk⟩ := hb.simulate hbb τ
      exact ⟨code', τ', .block hb', hcode, hk⟩
  | .condThen hc ht₁ =>
    cases ht with
    | condThen hcc htt =>
      obtain ⟨cf', τ₁, hc', hcf, hk₁⟩ := hc.simulate hcc τ.takeLabel
      obtain ⟨tc', τ₂, ht', htc, hk₂⟩ := ht₁.simulate htt τ₁
      exact ⟨_, τ₂, .condThen hc' ht', likeCode_cond hcf htc (.nil _),
        ((Supply.Keeps.takeLabel σ τ).trans hk₁).trans hk₂⟩
  | .condElse hc he ht₁ =>
    cases ht with
    | condElse hcc htt hee =>
      obtain ⟨cf', τ₁, hc', hcf, hk₁⟩ := hc.simulate hcc τ.takeLabel
      obtain ⟨ec', τ₂, he', hec, hk₂⟩ := he.simulate hee τ₁
      obtain ⟨tc', τ₃, ht', htc, hk₃⟩ := ht₁.simulate htt τ₂
      exact ⟨_, τ₃, .condElse hc' he' ht', likeCode_cond hcf htc hec,
        (((Supply.Keeps.takeLabel σ τ).trans hk₁).trans hk₂).trans hk₃⟩
  | .loop hc hb =>
    cases ht with
    | loop hcc hbb =>
      obtain ⟨cf', τ₁, hc', hcf, hk₁⟩ := hc.simulate hcc τ.takeLabel
      obtain ⟨bc', τ₂, hb', hbc, hk₂⟩ := hb.simulate hbb τ₁
      exact ⟨_, τ₂, .loop hc' hb', likeCode_loop hcf hbc,
        ((Supply.Keeps.takeLabel σ τ).trans hk₁).trans hk₂⟩
  | .expr he =>
    cases ht with
    | expr hee =>
      obtain ⟨code', τ', he', hcode, hk⟩ := he.simulate hee τ
      exact ⟨code', τ', .expr he', hcode, hk⟩
  | .assign ha =>
    cases ht with
    | assignName hv =>
      obtain ⟨code', τ', ha', hcode, hk⟩ := ha.simulate_name hv τ
      exact ⟨code', τ', .assign ha', hcode, hk⟩
    | assign hn htt hv =>
      obtain ⟨code', τ', ha', hcode, hk⟩ := ha.simulate hn htt hv τ
      exact ⟨code', τ', .assign ha', hcode, hk⟩
  | .retNone =>
    cases ht with
    | retNone => exact ⟨_, τ, .retNone, .refl _, .refl σ τ⟩
  | .retSome hv =>
    cases ht with
    | retSome hvv =>
      obtain ⟨f', τ', hv', hf, hk⟩ := hv.simulate hvv τ
      exact ⟨_, τ', .retSome hv', hf.code.snoc (.retSome hf.operand), hk⟩

theorem LowersBody.simulate {b b' : List Stmt} {σ σ' : Supply} {code : List Instr}
    (h : s.LowersBody b σ code σ') (hb : s.SimplifiesBody b b') (τ : Supply) :
    ∃ code' τ', s.LowersBody b' τ code' τ' ∧ LikeCode code code' ∧ σ.Keeps σ' τ τ' := by
  match h with
  | .nil =>
    cases hb
    exact ⟨[], τ, .nil, .nil _, .refl σ τ⟩
  | .cons ht hs =>
    cases hb with
    | cons htt hss =>
      obtain ⟨code₁, τ₁, ht', hcode₁, hk₁⟩ := ht.simulate htt τ
      obtain ⟨code₂, τ₂, hs', hcode₂, hk₂⟩ := hs.simulate hss τ₁
      exact ⟨_, τ₂, .cons ht' hs', hcode₁.append hcode₂, hk₁.trans hk₂⟩

end

end Scope

end SingleClass
