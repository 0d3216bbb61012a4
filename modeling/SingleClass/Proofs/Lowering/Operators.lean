import SingleClass.Proofs.Constant.Vetted
import SingleClass.Proofs.Lowering.BoundNames
set_option autoImplicit false

/-!
The operators of three-address code are those of the source, one for one, and each has operands of the
types that the source gives them (`Scope.LowersBody.operations_perm`).

Where both types are known, the operator works on them. An open type satisfies every rule, for its
operand and for the other one, and lowering computes the operand at the type that its place expects
(`Scope.operandTy`). So all operators of the code work exactly if those with an open operand do
(`Program.operators_work_iff`).
-/

namespace SingleClass

structure Operation where
  op : BinaryOp
  left : Ty
  right : Ty
  deriving DecidableEq

/-- The machine has the operator for operands of these types. -/
def Operation.works (x : Operation) : Bool :=
  match x.op.family with
  | .arithmetic | .ordering => x.left.isInt && x.right.isInt
  | .logical => x.left.isBoolean && x.right.isBoolean
  | .equality =>
    x.left.isReference && x.right.isReference || x.left.isInt && x.right.isInt ||
      x.left.isBoolean && x.right.isBoolean

def Instr.operation? : Instr → Option Operation
  | .binary _ op l r => some { op, left := l.ty.asValue, right := r.ty.asValue }
  | .assign .. | .unary .. | .call _ | .new .. | .newArray .. | .arrayLoad .. | .arrayLength ..
  | .getField .. | .putField .. | .ret _ | .branch .. | .goto _ | .label _ => none

def Operation.ofCode (code : List Instr) : List Operation := code.filterMap Instr.operation?

def MethodCode.works (m : MethodCode) : Bool := (Operation.ofCode m.instrs).all Operation.works

namespace Scope

/-- The type at which an operand of an open type is computed. A call has the type that its place
expects, an element that of its array, and an initializer is an array, of ints if no array is expected. -/
def openTy : Expr → Expectation → Ty
  | .paren e, want => openTy e want
  | .index a _ _, want => (openTy a (arrayExpectation want)).element
  | .arrayInit .., want => (initElementTy .external want).array
  | _, want => want.foreignTy

def operandTy (s : Scope) (e : Expr) (want : Expectation) : Ty :=
  if (s.typeHint e).isEscape then openTy e want else s.typeHint e

def operation? (s : Scope) : Node → Option Operation
  | .expr (.binary op l r _) =>
    let wants := s.operandExpectations op l r
    some { op, left := (s.operandTy l wants.1).asValue, right := (s.operandTy r wants.2).asValue }
  | _ => none

def operations (s : Scope) (ns : List Node) : List Operation := ns.filterMap s.operation?

def works (s : Scope) (n : Node) : Bool := (s.operation? n).all Operation.works

/-- The node is an operator with an operand of an open type. -/
def isOpen (s : Scope) : Node → Bool
  | .expr (.binary _ l r _) => (s.typeHint l).isEscape || (s.typeHint r).isEscape
  | _ => false

variable {s : Scope}

theorem operandTy_of_known {e : Expr} {t : Ty} (ht : s.typeOf e = .ok t) (h : t.isEscape = false)
    (want : Expectation) : s.operandTy e want = t := by
  simp [operandTy, typeHint_of_typeOf ht, h]

theorem operandTy_of_open {e : Expr} {t : Ty} (ht : s.typeOf e = .ok t) (h : t.isEscape = true)
    (want : Expectation) : s.operandTy e want = openTy e want := by
  simp [operandTy, typeHint_of_typeOf ht, h]

end Scope

theorem Ty.array_element {t : Ty} (h : t.isArray = true) : t.element.array.asValue = t.asValue := by
  simp [Ty.element, Ty.array, Ty.asValue, h]

theorem Typing.element_of_known {t u : Ty} (hu : u.isEscape = false) (h : Typing.element u = .ok t) :
    t = u.element := by
  unfold Typing.element at h
  split at h
  · cases h
    rfl
  · simp [hu] at h

theorem Typing.isArray_of_arrayInit {ts : List Ty} {t : Ty} (h : Typing.arrayInit ts = .ok t) :
    t.isArray = true := by
  unfold Typing.arrayInit at h
  (repeat' split at h) <;> cases h <;> rfl

theorem Typing.works_of_binary {op : BinaryOp} {l r t : Ty} (hl : l.isEscape = false)
    (hr : r.isEscape = false) (hlv : l.isVoid = false) (h : Typing.binary op l r = .ok t) :
    ({ op, left := l.asValue, right := r.asValue } : Operation).works = true := by
  simp only [Typing.binary, hl, hr, Bool.or_self, Bool.false_eq_true, if_false] at h
  split at h
  · cases h
  · next harray =>
    split at h
    · next haccepts =>
      unfold BinaryOp.accepts at haccepts
      unfold Operation.works
      dsimp only
      cases hfamily : op.family with
      | arithmetic | ordering | logical =>
        rw [hfamily] at haccepts
        exact haccepts
      | equality =>
        have heq : l = r := by simpa [hfamily] using haccepts
        subst heq
        cases hkind : l.kind <;>
          simp_all [Ty.isEscape, Ty.isVoid, Ty.isReference, Ty.isInt, Ty.isBoolean, Ty.asValue]
    · cases h

namespace Scope

variable {s : Scope}

theorem works_of_not_isOpen {n : Node} (hn : s.Vetted n) (hopen : s.isOpen n = false) :
    s.works n = true := by
  unfold works
  cases hx : s.operation? n with
  | none => rfl
  | some x =>
    match n with
    | .expr (.binary op l r p) =>
      obtain ⟨t, ht⟩ := hn
      obtain ⟨lt, hlt, hlv, ht⟩ := typeOf_bind_eq_ok.1 ht
      obtain ⟨rt, hrt, -, ht⟩ := typeOf_bind_eq_ok.1 ht
      simp only [isOpen, typeHint_of_typeOf hlt, typeHint_of_typeOf hrt,
        Bool.or_eq_false_iff] at hopen
      simp only [operation?, operandTy_of_known hlt hopen.1, operandTy_of_known hrt hopen.2,
        Option.some.injEq] at hx
      subst hx
      exact Typing.works_of_binary hopen.1 hopen.2 hlv ht

theorem typeOf_call {t : Option Expr} {m : String} {as : List Expr} {p : Span} {ty : Ty}
    (h : s.typeOf (.call t m as p) = .ok ty) : ty = s.symbols.callTy m (t.map s.typeHint) := by
  cases t with
  | none =>
    simp only [typeOf] at h
    split at h
    · cases h
    · cases h
      rfl
  | some t =>
    obtain ⟨u, hu, h⟩ := exists_typeOf h
    cases h
    rw [Option.map_some, typeHint_of_typeOf hu]

theorem LowersCall.ty_dest (hs : s.Concrete) {t : Option Expr} {m : String} {as : List Expr}
    {p : Span} {want : Expectation} {σ σ' : Supply} {code : List Instr} {d : Temp} {ty : Ty}
    (ht : s.typeOf (.call t m as p) = .ok ty)
    (h : s.LowersCall t m as p want σ code (some d) σ') :
    d.ty = s.operandTy (.call t m as p) want := by
  generalize hdest : some d = dest at h
  cases h with
  | mk hsite hargs hbound =>
    subst hbound
    obtain ⟨rfl, -, -⟩ := Expectation.of_mem_dest hdest.symm
    have hty := typeOf_call ht
    rw [hsite.callee_hint]
    unfold Symbols.callTy at hty
    cases hc : s.symbols.callee? m (t.map s.typeHint) with
    | some c =>
      rw [hc] at hty
      have hconcrete := hs.methods c (Symbols.mem_methods_of_callee? hc)
      rw [operandTy_of_known ht (hty ▸ hconcrete.returnTy), hty]
      rfl
    | none =>
      rw [hc] at hty
      rw [operandTy_of_open ht (hty ▸ rfl)]
      rfl

theorem initElementTy_of_open {t : Ty} (h : t.isEscape = true) (want : Expectation) :
    initElementTy t want = initElementTy .external want := by
  have hexternal : Ty.external.isEscape = true := rfl
  simp only [initElementTy, h, hexternal, if_true]

theorem initElementTy_of_known {t : Ty} (h : t.isEscape = false) (want : Expectation) :
    initElementTy t want = t.element := by
  simp only [initElementTy, h, Bool.false_eq_true, if_false]

theorem Packs.ty_operand {element : Ty} {es : List Expr} {σ σ' : Supply} {f : Fragment}
    (h : s.Packs element es σ f σ') : f.operand.ty = element.array := by
  cases h
  rfl

theorem Lowers.ty_eq_operandTy (hs : s.Concrete) {e : Expr} {want : Expectation} {σ σ' : Supply}
    {f : Fragment} (h : s.Lowers e want σ f σ') {t : Ty} (ht : s.typeOf e = .ok t) :
    f.operand.ty.asValue = (s.operandTy e want).asValue := by
  fun_induction openTy e want generalizing σ σ' f t with
  | case1 e want ih =>
    cases h with
    | paren he => exact ih he ht
  | case2 a i p want ih =>
    cases h with
    | index ha _ =>
      obtain ⟨u, hu, helement⟩ := exists_typeOf ht
      have harray := congrArg Ty.element (ih ha hu)
      have hescape : t.isEscape = u.isEscape := by
        simp only [Ty.isEscape, Typing.kind_element helement]
      cases hknown : u.isEscape with
      | true =>
        rw [operandTy_of_open hu hknown] at harray
        rw [operandTy_of_open ht (hescape.trans hknown)]
        exact harray
      | false =>
        rw [operandTy_of_known hu hknown] at harray
        rw [operandTy_of_known ht (hescape.trans hknown), Typing.element_of_known hknown helement]
        exact harray
  | case3 es p want =>
    cases h with
    | arrayInit hp =>
      have hty := ht
      simp only [typeOf, valuesOf_bind_eq_ok] at hty
      obtain ⟨ts, _, hinit⟩ := hty
      rw [hp.ty_operand, typeHint_of_typeOf ht]
      cases hknown : t.isEscape with
      | true => rw [operandTy_of_open ht hknown, openTy, initElementTy_of_open hknown]
      | false =>
        rw [operandTy_of_known ht hknown, initElementTy_of_known hknown]
        exact Ty.array_element (Typing.isArray_of_arrayInit hinit)
  | case4 want e hparen hindex hinit =>
    -- of what is left, only a call can have an open type
    cases h with
    | @literal v =>
      cases ht
      rw [operandTy_of_known (t := v.ty) rfl (by cases v <;> rfl)]
      cases v <;> rfl
    | var hb _ | field hb =>
      have hty := ht
      simp only [typeOf, nameTy, hb, Except.ok.injEq] at hty
      rw [operandTy_of_known ht (hty ▸ hs.lookup hb), ← hty]
      rfl
    | this hstatic =>
      rw [operandTy_of_known (t := s.symbols.ownTy) (by simp [typeOf, thisTy, hstatic]) rfl]
      rfl
    | binary _ _ =>
      obtain ⟨_, _, hop⟩ := exists_typeOf ht
      obtain ⟨_, _, hop⟩ := exists_typeOf hop
      obtain rfl := Typing.ty_of_binary hop
      rw [operandTy_of_known ht (BinaryOp.isEscape_resultTy _)]
      rfl
    | unary _ =>
      obtain ⟨_, _, hop⟩ := exists_typeOf ht
      obtain rfl := Typing.ty_of_unary hop
      rw [operandTy_of_known ht (UnaryOp.isEscape_ty _)]
      rfl
    | length _ =>
      obtain ⟨_, _, hlength⟩ := exists_typeOf ht
      obtain rfl := Typing.ty_of_length hlength
      rw [operandTy_of_known ht rfl]
      rfl
    | call hc => rw [Operand.ty_temp, hc.ty_dest hs ht]
    | newObject =>
      rw [operandTy_of_known ht (by cases ht; rfl)]
      cases ht
      rfl
    | newArray _ =>
      rw [operandTy_of_known ht (by cases ht; exact Ty.isEscape_ofName _)]
      cases ht
      rfl
    | paren _ => exact absurd rfl (hparen _)
    | index _ _ => exact absurd rfl (hindex _ _ _)
    | arrayInit _ => exact absurd rfl (hinit _ _)

end Scope

/-! ### One for one -/

namespace Operation

@[simp] theorem ofCode_nil : ofCode [] = [] := rfl

@[simp] theorem ofCode_append (code rest : List Instr) :
    ofCode (code ++ rest) = ofCode code ++ ofCode rest :=
  List.filterMap_append

theorem ofCode_cons_of_none {i : Instr} (h : i.operation? = none) (code : List Instr) :
    ofCode (i :: code) = ofCode code :=
  List.filterMap_cons_none h

theorem ofCode_snoc_of_none (code : List Instr) {i : Instr} (h : i.operation? = none) :
    ofCode (code ++ [i]) = ofCode code := by
  rw [ofCode_append, ofCode_cons_of_none h, ofCode_nil, List.append_nil]

theorem ofCode_closing (ret : Ty) (code : List Instr) : ofCode (closing ret code) = [] := by
  unfold closing
  (repeat' split) <;> rfl

theorem ofCode_condCode (n : Nat) (cf : Fragment) (tc ec : List Instr) :
    ofCode (condCode n cf tc ec) = ofCode cf.code ++ ofCode ec ++ ofCode tc := by
  have hjumps : ofCode [.goto ⟨"endif", n⟩, .label ⟨"then", n⟩] = [] := rfl
  rw [condCode, ofCode_snoc_of_none _ rfl, ofCode_append, ofCode_append, ofCode_append,
    ofCode_snoc_of_none _ rfl, hjumps, List.append_nil]

theorem ofCode_loopCode (n : Nat) (cf : Fragment) (bc : List Instr) :
    ofCode (loopCode n cf bc) = ofCode cf.code ++ ofCode bc := by
  have hhead : ofCode [.label ⟨"whilecond", n⟩] = [] := rfl
  have htest : ofCode [.branch cf.operand ⟨"whilebody", n⟩, .goto ⟨"whileend", n⟩,
      .label ⟨"whilebody", n⟩] = [] := rfl
  have hback : ofCode [.goto ⟨"whilecond", n⟩, .label ⟨"whileend", n⟩] = [] := rfl
  simp only [loopCode, ofCode_append, hhead, htest, hback, List.nil_append, List.append_nil]

end Operation

theorem Expr.nodesOf_append (es es' : List Expr) :
    Expr.nodesOf (es ++ es') = Expr.nodesOf es ++ Expr.nodesOf es' := by
  induction es with
  | nil => rfl
  | cons e es ih => rw [List.cons_append, Expr.nodesOf, Expr.nodesOf, ih, List.append_assoc]

theorem Expr.nodes_call (t : Option Expr) (m : String) (as : List Expr) (p : Span) :
    (Expr.call t m as p).nodes =
      .expr (.call t m as p) :: t.elim [] Expr.nodes ++ Expr.nodesOf as := by
  cases t <;> rfl

namespace Scope

variable {s : Scope}

@[simp] theorem operations_append (ns ns' : List Node) :
    s.operations (ns ++ ns') = s.operations ns ++ s.operations ns' :=
  List.filterMap_append

theorem operations_cons_of_none {n : Node} (h : s.operation? n = none) (ns : List Node) :
    s.operations (n :: ns) = s.operations ns :=
  List.filterMap_cons_none h

theorem operations_stripParens (e : Expr) :
    s.operations e.stripParens.nodes = s.operations e.nodes := by
  fun_induction Expr.stripParens e with
  | case1 e ih => rw [ih, Expr.nodes, operations_cons_of_none rfl]
  | case2 => rfl

theorem operations_of_staticReceiver? {e : Expr} {i : Import} (h : s.staticReceiver? e = some i) :
    s.operations e.nodes = [] := by
  fun_induction staticReceiver? s e with
  | case1 | case2 => rfl
  | case3 e ih =>
    rw [Expr.nodes, operations_cons_of_none rfl]
    exact ih h
  | case4 => cases h

mutual

/-- The code of an expression has the operators of the expression. -/
theorem Lowers.operations_perm (hs : s.Concrete) {e : Expr} {want : Expectation} {σ σ' : Supply}
    {f : Fragment} (h : s.Lowers e want σ f σ') (hv : ∀ n ∈ e.nodes, s.Vetted n) :
    (Operation.ofCode f.code).Perm (s.operations e.nodes) := by
  match h with
  | .literal | .var _ _ | .field _ | .this _ | .newObject => exact .refl _
  | .binary hl hr =>
    simp only [Expr.nodes, List.cons_append, List.forall_mem_cons, List.forall_mem_append] at hv
    obtain ⟨⟨t, ht⟩, hvl, hvr⟩ := hv
    obtain ⟨lt, hlt, ht⟩ := exists_typeOf ht
    obtain ⟨rt, hrt, -⟩ := exists_typeOf ht
    have hparts := (hl.operations_perm hs hvl).append (hr.operations_perm hs hvr)
    rw [← operations_append] at hparts
    rw [Operation.ofCode_append, Operation.ofCode_append]
    refine (hparts.append_right _).trans (List.perm_append_comm.trans ?_)
    simp only [Operation.ofCode, List.filterMap_cons, List.filterMap_nil, Instr.operation?,
      hl.ty_eq_operandTy hs hlt, hr.ty_eq_operandTy hs hrt]
    exact .refl _
  | .index ha hi =>
    simp only [Expr.nodes, List.cons_append, List.forall_mem_cons, List.forall_mem_append] at hv
    rw [Operation.ofCode_snoc_of_none _ rfl, Operation.ofCode_append, Expr.nodes, List.cons_append,
      operations_cons_of_none rfl, operations_append]
    exact (ha.operations_perm hs hv.2.1).append (hi.operations_perm hs hv.2.2)
  | .unary he | .length he | .newArray he =>
    simp only [Expr.nodes, List.forall_mem_cons] at hv
    rw [Operation.ofCode_snoc_of_none _ rfl, Expr.nodes, operations_cons_of_none rfl]
    exact he.operations_perm hs hv.2
  | .paren he =>
    simp only [Expr.nodes, List.forall_mem_cons] at hv
    exact he.operations_perm hs hv.2
  | .call hc => exact hc.operations_perm hs hv
  | .arrayInit hp =>
    simp only [Expr.nodes, List.forall_mem_cons] at hv
    exact hp.operations_perm hs hv.2

theorem LowersCall.operations_perm (hs : s.Concrete) {t : Option Expr} {m : String} {as : List Expr}
    {p : Span} {want : Expectation} {σ σ' : Supply} {code : List Instr} {dest : Option Temp}
    (h : s.LowersCall t m as p want σ code dest σ')
    (hv : ∀ n ∈ (Expr.call t m as p).nodes, s.Vetted n) :
    (Operation.ofCode code).Perm (s.operations (Expr.call t m as p).nodes) := by
  match h with
  | .mk hsite hargs _ =>
    rw [Expr.nodes_call, List.cons_append, List.forall_mem_cons, List.forall_mem_append] at hv
    obtain ⟨hadmits, hvt, hva⟩ := hv
    rw [Vetted, ← hsite.callee_hint] at hadmits
    have hpassed := exprs_passed (s := s) hadmits
    have hperm := hargs.operations_perm hs (by rwa [hpassed])
    rw [hpassed] at hperm
    rw [Operation.ofCode_snoc_of_none _ rfl, Operation.ofCode_append, Expr.nodes_call,
      List.cons_append, operations_cons_of_none rfl, operations_append]
    exact (hsite.operations_perm hs hvt).append hperm

theorem LowersSite.operations_perm (hs : s.Concrete) {t : Option Expr} {m : String} {σ σ' : Supply}
    {site : CallSite} (h : s.LowersSite t m σ site σ')
    (hv : ∀ n ∈ t.elim [] Expr.nodes, s.Vetted n) :
    (Operation.ofCode site.code).Perm (s.operations (t.elim [] Expr.nodes)) := by
  match h with
  | .implicit _ => exact .refl _
  | .static hi =>
    rw [Option.elim_some, operations_of_staticReceiver? hi]
    exact .refl _
  | .receiver _ _ _ ht => exact ht.operations_perm hs hv

theorem LowersArgs.operations_perm (hs : s.Concrete) {ps : List Passed} {σ σ' : Supply}
    {fs : List Fragment} (h : s.LowersArgs ps σ fs σ')
    (hv : ∀ n ∈ Expr.nodesOf (ps.flatMap Passed.exprs), s.Vetted n) :
    (Operation.ofCode (fs.flatMap (·.code))).Perm
      (s.operations (Expr.nodesOf (ps.flatMap Passed.exprs))) := by
  match h with
  | .nil => exact .refl _
  | .direct he hes =>
    rw [List.flatMap_cons, Expr.nodesOf_append, List.forall_mem_append] at hv
    simp only [Passed.exprs, Expr.nodesOf, List.append_nil] at hv
    rw [List.flatMap_cons, List.flatMap_cons, Operation.ofCode_append, Expr.nodesOf_append,
      operations_append]
    simp only [Passed.exprs, Expr.nodesOf, List.append_nil]
    exact (he.operations_perm hs hv.1).append (hes.operations_perm hs hv.2)
  | .packed hp hes =>
    rw [List.flatMap_cons, Expr.nodesOf_append, List.forall_mem_append] at hv
    rw [List.flatMap_cons, List.flatMap_cons, Operation.ofCode_append, Expr.nodesOf_append,
      operations_append]
    exact (hp.operations_perm hs hv.1).append (hes.operations_perm hs hv.2)

theorem Packs.operations_perm (hs : s.Concrete) {element : Ty} {es : List Expr} {σ σ' : Supply}
    {f : Fragment} (h : s.Packs element es σ f σ') (hv : ∀ n ∈ Expr.nodesOf es, s.Vetted n) :
    (Operation.ofCode f.code).Perm (s.operations (Expr.nodesOf es)) := by
  match h with
  | .mk _ hst =>
    rw [Operation.ofCode_cons_of_none rfl]
    exact hst.operations_perm hs hv

theorem Stores.operations_perm (hs : s.Concrete) {array : Temp} {element : Ty} {i : Nat}
    {es : List Expr} {σ σ' : Supply} {code : List Instr} (h : s.Stores array element i es σ code σ')
    (hv : ∀ n ∈ Expr.nodesOf es, s.Vetted n) :
    (Operation.ofCode code).Perm (s.operations (Expr.nodesOf es)) := by
  match h with
  | .nil => exact .refl _
  | .cons he hes =>
    rw [Expr.nodesOf, List.forall_mem_append] at hv
    rw [Operation.ofCode_append, Operation.ofCode_cons_of_none rfl, Expr.nodesOf, operations_append]
    exact (he.operations_perm hs hv.1).append (hes.operations_perm hs hv.2)

end

theorem LowersEffect.operations_perm (hs : s.Concrete) {e : Expr} {σ σ' : Supply} {code : List Instr}
    (h : s.LowersEffect e σ code σ') (hv : ∀ n ∈ e.nodes, s.Vetted n) :
    (Operation.ofCode code).Perm (s.operations e.nodes) := by
  have hstrip : ∀ n ∈ e.stripParens.nodes, s.Vetted n :=
    fun n hn => hv n (Expr.nodes_stripParens_subset e hn)
  rw [← operations_stripParens]
  cases h with
  | call he hc =>
    rw [he] at hstrip ⊢
    exact hc.operations_perm hs hstrip
  | value _ hl => exact hl.operations_perm hs hstrip

theorem LowersAssign.operations_perm (hs : s.Concrete) {target value : Expr} {σ σ' : Supply}
    {code : List Instr} (h : s.LowersAssign target value σ code σ')
    (ht : ∀ n ∈ target.nodes, s.Vetted n) (hv : ∀ n ∈ value.nodes, s.Vetted n) :
    (Operation.ofCode code).Perm (s.operations (target.nodes ++ value.nodes)) := by
  cases h with
  | var _ _ hl | field _ hl =>
    rw [Operation.ofCode_snoc_of_none _ rfl, Expr.nodes, List.singleton_append,
      operations_cons_of_none rfl]
    exact hl.operations_perm hs hv
  | element ha hi hl =>
    simp only [Expr.nodes, List.cons_append, List.forall_mem_cons, List.forall_mem_append] at ht
    rw [Operation.ofCode_snoc_of_none _ rfl, Operation.ofCode_append, Operation.ofCode_append,
      operations_append, Expr.nodes, List.cons_append, operations_cons_of_none rfl,
      operations_append]
    exact ((ha.operations_perm hs ht.2.1).append (hi.operations_perm hs ht.2.2)).append
      (hl.operations_perm hs hv)

mutual

theorem LowersStmt.operations_perm (hs : s.Concrete) {t : Stmt} {σ σ' : Supply} {code : List Instr}
    (h : s.LowersStmt t σ code σ') (hv : ∀ n ∈ t.nodes, s.Vetted n) :
    (Operation.ofCode code).Perm (s.operations t.nodes) := by
  match h with
  | .block hb =>
    simp only [Stmt.nodes, List.forall_mem_cons] at hv
    exact hb.operations_perm hs hv.2
  | .condThen hc ht =>
    simp only [Stmt.nodes, List.cons_append, List.forall_mem_cons, List.forall_mem_append] at hv
    rw [Operation.ofCode_condCode, Stmt.nodes, List.cons_append, operations_cons_of_none rfl,
      operations_append, Operation.ofCode_nil, List.append_nil]
    exact (hc.operations_perm hs hv.2.1).append (ht.operations_perm hs hv.2.2)
  | .condElse hc he ht =>
    simp only [Stmt.nodes, List.cons_append, List.forall_mem_cons, List.forall_mem_append] at hv
    rw [Operation.ofCode_condCode, Stmt.nodes, List.cons_append, List.cons_append,
      operations_cons_of_none rfl, operations_append, operations_append]
    -- the code of the other branch comes first
    have hbranches := (he.operations_perm hs hv.2.2).append (ht.operations_perm hs hv.2.1.2)
    rw [List.append_assoc, List.append_assoc]
    exact (hc.operations_perm hs hv.2.1.1).append (hbranches.trans List.perm_append_comm)
  | .loop hc hb =>
    simp only [Stmt.nodes, List.cons_append, List.forall_mem_cons, List.forall_mem_append] at hv
    rw [Operation.ofCode_loopCode, Stmt.nodes, List.cons_append, operations_cons_of_none rfl,
      operations_append]
    exact (hc.operations_perm hs hv.2.1).append (hb.operations_perm hs hv.2.2)
  | .expr he =>
    simp only [Stmt.nodes, List.forall_mem_cons] at hv
    exact he.operations_perm hs hv.2
  | .assign ha =>
    simp only [Stmt.nodes, List.cons_append, List.forall_mem_cons, List.forall_mem_append] at hv
    exact ha.operations_perm hs hv.2.1 hv.2.2
  | .retNone => exact .refl _
  | .retSome hl =>
    simp only [Stmt.nodes, List.forall_mem_cons] at hv
    rw [Operation.ofCode_snoc_of_none _ rfl]
    exact hl.operations_perm hs hv.2

theorem LowersBody.operations_perm (hs : s.Concrete) {ts : List Stmt} {σ σ' : Supply}
    {code : List Instr} (h : s.LowersBody ts σ code σ') (hv : ∀ n ∈ Stmt.nodesOf ts, s.Vetted n) :
    (Operation.ofCode code).Perm (s.operations (Stmt.nodesOf ts)) := by
  match h with
  | .nil => exact .refl _
  | .cons ht hts =>
    simp only [Stmt.nodesOf, List.forall_mem_append] at hv
    rw [Operation.ofCode_append, Stmt.nodesOf, operations_append]
    exact (ht.operations_perm hs hv.1).append (hts.operations_perm hs hv.2)

end

theorem all_operations_iff {ns : List Node} :
    (s.operations ns).all Operation.works = true ↔ ∀ n ∈ ns, s.works n = true := by
  rw [operations, List.all_filterMap, List.all_eq_true]
  rfl

end Scope

theorem Symbols.LowersMethods.operations_perm {S : Symbols} {ds : List (MethodDecl × Signature)}
    {σ σ' : Supply} {ms : List MethodCode} (h : S.LowersMethods ds σ ms σ')
    (hs : ∀ d ∈ ds, Scope.Concrete ⟨S, d.2⟩)
    (hv : ∀ d ∈ ds, ∀ n ∈ Stmt.nodesOf d.1.body, Scope.Vetted ⟨S, d.2⟩ n) :
    List.Forall₂ (fun d m => (Operation.ofCode m.instrs).Perm
      (Scope.operations ⟨S, d.2⟩ (Stmt.nodesOf d.1.body))) ds ms := by
  induction h with
  | nil => exact .nil
  | cons hb _ ih =>
    obtain ⟨hs, hss⟩ := List.forall_mem_cons.1 hs
    obtain ⟨hv, hvs⟩ := List.forall_mem_cons.1 hv
    refine .cons ?_ (ih hss hvs)
    rw [Scope.methodCode, Operation.ofCode_append, Operation.ofCode_closing, List.append_nil]
    exact hb.operations_perm hs hv

namespace Program

def bodies (p : Program) (o : Options) : List (Scope × List Node) :=
  ((p.prepared o).paired (.ofProgram p)).map fun d =>
    (⟨.ofProgram p, d.2⟩, Stmt.nodesOf d.1.body)

theorem operations_perm_of_lower {p : Program} {o : Options}
    (hv : ∀ b ∈ p.bodies o, ∀ n ∈ b.2, b.1.Vetted n) {code : ClassCode} {σ : Supply}
    (h : p.lowered o = .ok code σ) :
    List.Forall₂ (fun b m => (Operation.ofCode m.instrs).Perm (b.1.operations b.2)) (p.bodies o)
      code.methods := by
  obtain ⟨ms, hms, rfl⟩ := Symbols.lower_eq_ok_iff.1 h
  rw [bodies, List.forall₂_map_left_iff]
  refine hms.operations_perm ?_ ?_
  · intro d hd
    obtain ⟨d', hd', rfl⟩ := mem_paired_prepared hd
    exact p.concrete_scope (List.mem_map_of_mem hd')
  · intro d hd
    exact hv _ (List.mem_map.2 ⟨d, hd, rfl⟩)

theorem works_iff_of_perm {bs : List (Scope × List Node)} {ms : List MethodCode}
    (h : List.Forall₂ (fun b m => (Operation.ofCode m.instrs).Perm (b.1.operations b.2)) bs ms) :
    (∀ m ∈ ms, m.works = true) ↔ ∀ b ∈ bs, ∀ n ∈ b.2, b.1.works n = true := by
  induction h with
  | nil => simp
  | cons hperm _ ih =>
    rw [List.forall_mem_cons, List.forall_mem_cons, ih, ← Scope.all_operations_iff,
      MethodCode.works, hperm.all_eq]

/-- The binary instructions of a program without diagnostics are the operators of its bodies, one for
one. Those on known types work, and so all do exactly if those with an open operand work on the types
at which lowering computes their operands. -/
theorem operators_work_iff {p : Program} {o : Options} (hown : p.HasOwnName)
    (hd : o.optimize = true → p.disguises = false) {c : Compiled} (h : p.compile o = .ok c)
    (hc : c.isSuccess = true) :
    ∃ code σ, p.lowered o = .ok code σ ∧
      List.Forall₂ (fun b m => (Operation.ofCode m.instrs).Perm (b.1.operations b.2)) (p.bodies o)
        code.methods ∧
      (∀ b ∈ p.bodies o, ∀ n ∈ b.2, b.1.isOpen n = false → b.1.works n = true) ∧
      ((∀ m ∈ code.methods, m.works = true) ↔
        ∀ b ∈ p.bodies o, ∀ n ∈ b.2, b.1.isOpen n = true → b.1.works n = true) := by
  obtain ⟨ha, code, σ, hl, -⟩ := isSuccess_compile_iff.1 ⟨c, h, hc⟩
  have hvetted : ∀ b ∈ p.bodies o, ∀ n ∈ b.2, b.1.Vetted n := by
    intro b hb
    obtain ⟨d, hmem, rfl⟩ := List.mem_map.1 hb
    exact vetted_prepared hown ha hd d hmem
  have hknown : ∀ b ∈ p.bodies o, ∀ n ∈ b.2, b.1.isOpen n = false → b.1.works n = true :=
    fun b hb n hn => Scope.works_of_not_isOpen (hvetted b hb n hn)
  have hperm := operations_perm_of_lower hvetted hl
  refine ⟨code, σ, hl, hperm, hknown, (works_iff_of_perm hperm).trans ?_⟩
  constructor
  · intro hworks b hb n hn _
    exact hworks b hb n hn
  · intro hworks b hb n hn
    cases hopen : b.1.isOpen n with
    | true => exact hworks b hb n hn hopen
    | false => exact hknown b hb n hn hopen

/-- A class whose operators have operands of another class on either side. -/
def panel : Program :=
  let var (n : String) : Expr := .name n {}
  let int (n : Int32) : Expr := .literal (.int n) {}
  let ask (t : String) (m : String) : Expr := .call (some (var t)) m [] {}
  { imports := [{ path := "lib.Gauge" }]
    classDecl := {
      name := "Panel"
      methods := [{
        name := "watch", returns := { name := "boolean" }
        params := [{ type := { name := "Gauge" }, name := "g" },
          { type := { name := "int", isArray := true }, name := "marks" }]
        locals := [{ type := { name := "int" }, name := "k" }]
        body := [
          .assign (var "k") (.binary .add (int 2) (.paren (.binary .mul (int 3) (int 4) {})) {}) {},
          .loop (.binary .lt (ask "g" "level")
              (.binary .add (var "k") (.index (ask "g" "steps") (var "k") {}) {}) {})
            (.assign (var "k") (.binary .sub (var "k") (.index (var "marks") (int 0) {}) {}) {}) {},
          .ret (some (.binary .or (.binary .ne (var "g") (ask "g" "peer") {})
            (.binary .and (ask "Gauge" "ready") (.binary .eq (ask "g" "table") (var "marks") {}) {})
              {})) {}] }] } }

theorem operators_work_panel :
    panel.HasOwnName ∧ panel.disguises = false ∧
      (∃ c, panel.compile { optimize := true } = .ok c ∧ c.isSuccess = true) ∧
      ∃ code σ, panel.lowered { optimize := true } = .ok code σ ∧
        (code.methods.flatMap fun m => Operation.ofCode m.instrs).length = 7 ∧
        ∀ m ∈ code.methods, m.works = true := by
  have hown : panel.HasOwnName := ⟨by decide, by decide⟩
  have hdisguises : panel.disguises = false := by decide +kernel
  have hopen : ((panel.bodies { optimize := true }).all fun b =>
      b.2.all fun n => !b.1.isOpen n || b.1.works n) = true := by
    decide +kernel
  have hlength : (((Symbols.ofProgram panel).lower (panel.prepared { optimize := true })).run' {}).any
      fun code => (code.methods.flatMap fun m => Operation.ofCode m.instrs).length = 7 := by
    decide +kernel
  obtain ⟨c, hc, hsuccess⟩ :=
    exists_isSuccess (x := panel.compile { optimize := true }) (by decide +kernel)
  obtain ⟨code, σ, hl, -, -, hworks⟩ := operators_work_iff hown (fun _ => hdisguises) hc hsuccess
  obtain ⟨code', σ', hl', hlength⟩ := Lower.exists_of_any hlength
  rw [lowered, hl'] at hl
  cases hl
  refine ⟨hown, hdisguises, ⟨c, hc, hsuccess⟩, code, σ, hl', of_decide_eq_true hlength, hworks.2 ?_⟩
  intro b hb n hn ho
  simpa [ho] using List.all_eq_true.1 (List.all_eq_true.1 hopen b hb) n hn

/-- `import lib.Io; class T { int m(int[] a) { return a + Io.read(); } }` -/
def tally : Program where
  imports := [{ path := "lib.Io" }]
  classDecl := {
    name := "T"
    methods := [{
      name := "m", returns := { name := "int" }
      params := [{ type := { name := "int", isArray := true }, name := "a" }]
      body := [.ret (some (.binary .add (.name "a" {})
        (.call (some (.name "Io" {})) "read" [] {}) {})) {}] }] }

/-- `import lib.Box; class Box { boolean flag() { return true; } int m() { return this.flag() + 1; } }` -/
def parcel : Program where
  imports := [{ path := "lib.Box" }]
  classDecl := {
    name := "Box"
    methods := [
      { name := "flag", returns := { name := "boolean" }
        body := [.ret (some (.literal (.bool true) {})) {}] },
      { name := "m", returns := { name := "int" }
        body := [.ret (some (.binary .add (.call (some (.this {})) "flag" [] {})
          (.literal (.int 1) {}) {})) {}] }] }

/-- `import lib.A; class T { boolean m(A b) { A a; a = 1; return a == b; } }` -/
def decoy : Program where
  imports := [{ path := "lib.A" }]
  classDecl := {
    name := "T"
    methods := [{
      name := "m", returns := { name := "boolean" }
      params := [{ type := { name := "A" }, name := "b" }]
      locals := [{ type := { name := "A" }, name := "a" }]
      body := [
        .assign (.name "a" {}) (.literal (.int 1) {}) {},
        .ret (some (.binary .eq (.name "a" {}) (.name "b" {}) {})) {}] }] }

/-- Compiled without diagnostics, though an operator of the code has operands that it does not work on. -/
def Misfits (p : Program) (o : Options) : Prop :=
  (∃ c, p.compile o = .ok c ∧ c.isSuccess = true) ∧
    ∃ code σ, p.lowered o = .ok code σ ∧ ∃ m ∈ code.methods, m.works = false

theorem misfits_of_any {p : Program} {o : Options}
    (h : (p.compile o).toOption.any Compiled.isSuccess = true)
    (hl : (((Symbols.ofProgram p).lower (p.prepared o)).run' {}).any fun code =>
      code.methods.any fun m => !m.works) : p.Misfits o := by
  obtain ⟨code, σ, hl, hm⟩ := Lower.exists_of_any hl
  obtain ⟨m, hm, hworks⟩ := List.any_eq_true.1 hm
  exact ⟨exists_isSuccess h, code, σ, hl, m, hm, by simpa using hworks⟩

/-- The three ways to a misfit: the rule of the operator does not look at an operand when the other one is
open, nor at one whose class has the name of an import, and a literal is put for a local of a type that is
declared elsewhere once the rule has been checked. -/
theorem misfits_of_accepted :
    (tally.HasOwnName ∧ tally.disguises = false ∧ tally.Misfits { optimize := false }) ∧
      (¬parcel.HasOwnName ∧ parcel.Misfits { optimize := false }) ∧
      decoy.HasOwnName ∧ decoy.disguises = true ∧ decoy.Misfits { optimize := true } := by
  refine ⟨⟨⟨by decide, by decide⟩, by decide +kernel, ?_⟩, ⟨?_, ?_⟩, ⟨by decide, by decide⟩,
    by decide +kernel, ?_⟩
  · exact misfits_of_any (by decide +kernel) (by decide +kernel)
  · rintro ⟨himport, _⟩
    exact absurd himport (by decide)
  · exact misfits_of_any (by decide +kernel) (by decide +kernel)
  · exact misfits_of_any (by decide +kernel) (by decide +kernel)

end Program

end SingleClass
