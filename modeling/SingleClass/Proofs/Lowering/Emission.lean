import SingleClass.Proofs.Lowering.Numbering
import SingleClass.Proofs.Typing.Checking
set_option autoImplicit false

/-!
Where emitted instructions come from. Each is issued by a node of the tree, and its operands are what
lowering computes the parts of the node to (`Scope.LowersBody.issued`). So what holds of every instruction
of a body is shown by cases on the node that has issued it, and lowering is gone through once.
-/

namespace SingleClass

def Expectation.Concrete : Expectation → Prop
  | .value t => t.isEscape = false
  | .discard | .unknown => True

theorem Expectation.concrete_of (t : Ty) : (Expectation.of t).Concrete := by
  unfold Expectation.of
  split
  · trivial
  · rename_i h
    simp only [Bool.or_eq_true, not_or, Bool.not_eq_true] at h
    exact h.1

theorem Expectation.Concrete.foreignTy {want : Expectation} (h : want.Concrete) :
    want.foreignTy.isEscape = false := by
  cases want with
  | value t => exact h
  | discard | unknown => rfl

@[simp] theorem BinaryOp.isEscape_resultTy (op : BinaryOp) : op.resultTy.isEscape = false := by
  unfold BinaryOp.resultTy
  split <;> rfl

@[simp] theorem UnaryOp.isEscape_ty (op : UnaryOp) : op.ty.isEscape = false := by
  cases op <;> rfl

theorem Ty.isEscape_ofName (t : TypeName) : (Ty.ofName t).isEscape = false :=
  (Ty.declared_ofName t).isEscape

namespace Scope

theorem concrete_operandExpectations (s : Scope) (op : BinaryOp) (l r : Expr) :
    (s.operandExpectations op l r).1.Concrete ∧ (s.operandExpectations op l r).2.Concrete := by
  unfold operandExpectations
  split
  · exact ⟨rfl, rfl⟩
  · exact ⟨rfl, rfl⟩
  · exact ⟨rfl, rfl⟩
  · exact ⟨Expectation.concrete_of _, Expectation.concrete_of _⟩

theorem concrete_arrayExpectation {want : Expectation} (h : want.Concrete) :
    (arrayExpectation want).Concrete := by
  cases want with
  | value t =>
    simp only [arrayExpectation]
    split
    · trivial
    · exact h
  | discard | unknown => trivial

theorem isEscape_initElementTy (hinted : Ty) {want : Expectation} (h : want.Concrete) :
    (initElementTy hinted want).isEscape = false := by
  unfold initElementTy
  split
  · cases want with
    | value t =>
      dsimp only
      split
      · exact h
      · rfl
    | discard | unknown => rfl
  · rename_i hinted'
    exact Bool.eq_false_iff.2 hinted'

end Scope

def Ty.AllConcrete (ts : List Ty) : Prop := ∀ t ∈ ts, t.isEscape = false

structure Signature.Concrete (m : Signature) : Prop where
  returnTy : m.returnTy.isEscape = false
  params : Ty.AllConcrete m.paramTys
  locals : Ty.AllConcrete (m.locals.map (·.ty))

structure Scope.Concrete (s : Scope) : Prop where
  fields : Ty.AllConcrete (s.symbols.fields.map (·.ty))
  methods : ∀ m ∈ s.symbols.methods, m.Concrete
  method : s.method.Concrete

theorem Signature.concrete_ofDecl (d : MethodDecl) : (Signature.ofDecl d).Concrete := by
  have hvars : ∀ vs : List VarDecl, Ty.AllConcrete ((vs.map Symbol.ofDecl).map (·.ty)) := by
    intro vs t ht
    simp only [List.map_map, List.mem_map, Function.comp_apply] at ht
    obtain ⟨v, _, rfl⟩ := ht
    exact Ty.isEscape_ofName _
  exact ⟨Ty.isEscape_ofName _, hvars d.params, hvars d.locals⟩

theorem Program.concrete_scope (p : Program) {sig : Signature}
    (h : sig ∈ (Symbols.ofProgram p).methods) : Scope.Concrete ⟨.ofProgram p, sig⟩ := by
  have hmethods : ∀ m ∈ (Symbols.ofProgram p).methods, m.Concrete := by
    intro m hm
    obtain ⟨d, _, rfl⟩ := List.mem_map.1 hm
    exact Signature.concrete_ofDecl d
  refine ⟨?_, hmethods, hmethods sig h⟩
  intro t ht
  simp only [Symbols.ofProgram, List.map_map, List.mem_map, Function.comp_apply] at ht
  obtain ⟨v, _, rfl⟩ := ht
  exact Ty.isEscape_ofName _

theorem Program.concrete_scopeOf (p : Program) {d : MethodDecl} (hd : d ∈ p.classDecl.methods) :
    (p.scopeOf d).Concrete :=
  p.concrete_scope (List.mem_map.2 ⟨d, hd, rfl⟩)

theorem Symbols.mem_methods_of_callee? {S : Symbols} {m : String} {receiver : Option Ty}
    {c : Signature} (h : S.callee? m receiver = some c) : c ∈ S.methods := by
  have hmethod : S.method? m = some c := by
    unfold Symbols.callee? at h
    split at h
    · exact h
    · split at h
      · exact h
      · cases h
  exact List.mem_of_find?_eq_some hmethod

def Passed.exprs : Passed → List Expr
  | .direct e _ => [e]
  | .packed _ values => values

theorem Expr.mem_nodesOf {n : Node} {es : List Expr} :
    n ∈ Expr.nodesOf es ↔ ∃ e ∈ es, n ∈ e.nodes := by
  induction es with
  | nil => simp [Expr.nodesOf]
  | cons e es ih => simp [Expr.nodesOf, ih]

namespace Scope

variable {s : Scope}

theorem Concrete.lookup (hs : s.Concrete) {n : String} {b : Binding} (hb : s.lookup n = some b) :
    b.symbol.ty.isEscape = false := by
  unfold Scope.lookup at hb
  split at hb
  · rename_i v hv
    cases hb
    exact hs.method.locals _ (List.mem_map.2 ⟨v, List.mem_of_find?_eq_some hv, rfl⟩)
  · split at hb
    · rename_i v hv
      cases hb
      exact hs.method.params _ (List.mem_map.2 ⟨v, List.mem_of_find?_eq_some hv, rfl⟩)
    · obtain ⟨v, hv, rfl⟩ := Option.map_eq_some_iff.1 hb
      exact hs.fields _ (List.mem_map.2 ⟨v, List.mem_of_find?_eq_some hv, rfl⟩)

theorem LowersSite.concrete_callee (hs : s.Concrete) {t : Option Expr} {m : String} {σ σ' : Supply}
    {site : CallSite} (h : s.LowersSite t m σ site σ') : ∀ c ∈ site.callee, c.Concrete := by
  have hcallee : ∀ receiver, ∀ c ∈ s.symbols.callee? m receiver, c.Concrete :=
    fun _ c hc => hs.methods c (Symbols.mem_methods_of_callee? hc)
  cases h with
  | implicit _ => exact hcallee none
  | static _ => simp
  | receiver _ _ _ _ => exact hcallee (some _)

def ConcretePassed : Passed → Prop
  | .direct _ want => want.Concrete
  | .packed element _ => element.isEscape = false

theorem concretePassed {callee : Option Signature} (hc : ∀ c ∈ callee, c.Concrete) (as : List Expr) :
    ∀ p ∈ s.passed callee as, ConcretePassed p := by
  cases callee with
  | none =>
    intro p hp
    obtain ⟨a, _, rfl⟩ := List.mem_map.1 hp
    exact Expectation.concrete_of _
  | some c =>
    intro p hp
    rcases List.mem_append.1 hp with hp | hp
    · obtain ⟨⟨a, v⟩, _, rfl⟩ := List.mem_map.1 hp
      exact Expectation.concrete_of _
    · obtain ⟨v, hv, rfl⟩ := List.mem_map.1 hp
      have hlast : v ∈ c.params :=
        List.mem_of_getLast? (Option.filter_eq_some_iff.1 (Option.mem_toList.1 hv)).1
      have hty : v.ty.isEscape = false :=
        (hc c rfl).params _ (List.mem_map.2 ⟨v, hlast, rfl⟩)
      unfold passedLast
      split <;> exact hty

theorem exprs_passedLast_subset (s : Scope) (t : Ty) (as : List Expr) :
    (s.passedLast t as).exprs ⊆ as := by
  unfold passedLast
  split
  · simp [Passed.exprs]
  · exact List.Subset.refl _

theorem exprs_passed_subset {callee : Option Signature} {as : List Expr} {p : Passed}
    (hp : p ∈ s.passed callee as) : p.exprs ⊆ as := by
  cases callee with
  | none =>
    obtain ⟨a, ha, rfl⟩ := List.mem_map.1 hp
    simpa [Passed.exprs] using ha
  | some c =>
    rcases List.mem_append.1 hp with hp | hp
    · obtain ⟨⟨a, v⟩, ha, rfl⟩ := List.mem_map.1 hp
      simpa [Passed.exprs] using (List.of_mem_zip (List.mem_of_mem_take ha)).1
    · obtain ⟨v, _, rfl⟩ := List.mem_map.1 hp
      exact List.Subset.trans (exprs_passedLast_subset s _ _) (List.drop_subset _ _)

/-- The expression is computed, as a value that is expected so, by a part of the code, and this is its
operand. -/
def Leaves (s : Scope) (code : List Instr) (want : Expectation) (e : Expr) (o : Operand) : Prop :=
  ∃ σ f σ', s.Lowers e want σ f σ' ∧ f.code ⊆ code ∧ f.operand = o

theorem Lowers.leaves {code : List Instr} {e : Expr} {want : Expectation} {σ σ' : Supply}
    {f : Fragment} (h : s.Lowers e want σ f σ') (hsub : f.code ⊆ code) :
    s.Leaves code want e f.operand :=
  ⟨σ, f, σ', h, hsub, rfl⟩

/-- The node puts the expressions into a new array, as elements of this type. -/
inductive Gathers (s : Scope) : Node → Ty → List Expr → Prop
  | init {es : List Expr} {p : Span} {want : Expectation} (hw : want.Concrete) :
      Gathers s (.expr (.arrayInit es p)) (initElementTy (s.typeHint (.arrayInit es p)) want) es
  | vararg {t : Option Expr} {m : String} {as es : List Expr} {p : Span} {σ σ₁ : Supply}
      {site : CallSite} {element : Ty} (hsite : s.LowersSite t m σ site σ₁)
      (hmem : .packed element es ∈ s.passed site.callee as) :
      Gathers s (.expr (.call t m as p)) element es

inductive HasCondition : Node → Expr → Prop
  | cond {c : Expr} {t : Stmt} {e : Option Stmt} {p : Span} : HasCondition (.stmt (.cond c t e p)) c
  | loop {c : Expr} {b : Stmt} {p : Span} : HasCondition (.stmt (.loop c b p)) c

/-- The instruction is one that the node adds to the code of its parts, all of which is in `code`. -/
inductive Issues (s : Scope) (code : List Instr) : Node → Instr → Prop
  | getField {n : String} {p : Span} {i : Nat} {f : Symbol} (hf : s.lookup n = some (.field f)) :
      Issues s code (.expr (.name n p)) (.getField ⟨i, f.ty.asValue⟩ f.name f.ty.asValue)
  | binary {op : BinaryOp} {l r : Expr} {p : Span} {i : Nat} {lo ro : Operand}
      (hl : s.Leaves code (s.operandExpectations op l r).1 l lo)
      (hr : s.Leaves code (s.operandExpectations op l r).2 r ro) :
      Issues s code (.expr (.binary op l r p)) (.binary ⟨i, op.resultTy⟩ op lo ro)
  | unary {op : UnaryOp} {e : Expr} {p : Span} {i : Nat} {o : Operand}
      (he : s.Leaves code (.value op.ty) e o) :
      Issues s code (.expr (.unary op e p)) (.unary ⟨i, op.ty⟩ op o)
  | arrayLoad {a e : Expr} {p : Span} {want : Expectation} {i : Nat} {ao eo : Operand}
      (hw : want.Concrete) (ha : s.Leaves code (arrayExpectation want) a ao)
      (he : s.Leaves code (.value .int) e eo) :
      Issues s code (.expr (.index a e p)) (.arrayLoad ⟨i, ao.ty.element⟩ ao eo)
  | arrayLength {a : Expr} {p : Span} {i : Nat} {o : Operand}
      (ha : s.Leaves code (.value Ty.int.array) a o) :
      Issues s code (.expr (.length a p)) (.arrayLength ⟨i, .int⟩ o)
  | call {t : Option Expr} {m : String} {as : List Expr} {p : Span} {want : Expectation}
      {σ σ₁ σ₂ σ₃ : Supply} {site : CallSite} {fs : List Fragment} (hw : want.Concrete)
      (hsite : s.LowersSite t m σ site σ₁) (hsub : site.code ⊆ code)
      (hargs : s.LowersArgs (s.passed site.callee as) σ₁ fs σ₂)
      (hsubs : fs.flatMap (·.code) ⊆ code) :
      Issues s code (.expr (.call t m as p)) (.call (site.instr m (.of site.callee want fs)
        (want.dest (BoundCall.of site.callee want fs).ret σ₃)))
  | new {c : String} {p : Span} {i : Nat} :
      Issues s code (.expr (.newObject c p)) (.new ⟨i, .named c⟩ c)
  | construct {c : String} {p : Span} {i : Nat} (hnew : .new ⟨i, .named c⟩ c ∈ code) :
      Issues s code (.expr (.newObject c p)) (.call (s.constructorCall ⟨i, .named c⟩ c))
  | newArray {t : TypeName} {e : Expr} {p : Span} {i : Nat} {o : Operand}
      (he : s.Leaves code (.value .int) e o) :
      Issues s code (.expr (.newArray t e p))
        (.newArray ⟨i, Typing.newArray t⟩ (Ty.ofName t).element o)
  | gather {n : Node} {element : Ty} {es : List Expr} {i : Nat} (hn : s.Gathers n element es) :
      Issues s code n (.newArray ⟨i, element.array⟩ element (.int (.ofNat es.length)))
  | store {n : Node} {element : Ty} {es : List Expr} {e : Expr} {array : Temp} {k : Int32}
      {size o : Operand} (hn : s.Gathers n element es) (he : e ∈ es)
      (harray : array.ty = element.array) (hnew : .newArray array element size ∈ code)
      (ho : s.Leaves code (.value element) e o) :
      Issues s code n (.assign (.element (.temp array) (.int k)) o)
  | assignVar {n : String} {p q : Span} {e : Expr} {b : Binding} {o : Operand}
      (hb : s.lookup n = some b) (hf : b.isField = false)
      (he : s.Leaves code (.of b.symbol.ty.asValue) e o) :
      Issues s code (.stmt (.assign (.name n p) e q)) (.assign (.var n b.symbol.ty.asValue) o)
  | putField {n : String} {p q : Span} {e : Expr} {f : Symbol} {o : Operand}
      (hf : s.lookup n = some (.field f)) (he : s.Leaves code (.of f.ty.asValue) e o) :
      Issues s code (.stmt (.assign (.name n p) e q)) (.putField f.name f.ty.asValue o)
  | assignElement {a i e : Expr} {p q : Span} {ao jo o : Operand} (ha : s.Leaves code .unknown a ao)
      (hi : s.Leaves code (.value .int) i jo) (he : s.Leaves code (.of ao.ty.element) e o) :
      Issues s code (.stmt (.assign (.index a i p) e q)) (.assign (.element ao jo) o)
  | branch {n : Node} {c : Expr} {o : Operand} {l : Label} (hn : HasCondition n c)
      (hc : s.Leaves code (.value .boolean) c o) (hl : l.kind ∈ structureKinds) :
      Issues s code n (.branch o l)
  | goto {n : Node} {l : Label} (hl : l.kind ∈ structureKinds) : Issues s code n (.goto l)
  | label {n : Node} {l : Label} (hl : l.kind ∈ structureKinds) : Issues s code n (.label l)
  | retNone {p : Span} : Issues s code (.stmt (.ret none p)) (.ret none)
  | retSome {e : Expr} {p : Span} {o : Operand} (he : s.Leaves code (.of s.method.returnTy) e o) :
      Issues s code (.stmt (.ret (some e) p)) (.ret (some o))

def IssuedBy (s : Scope) (N : Node → Prop) (code : List Instr) (i : Instr) : Prop :=
  ∃ n, N n ∧ s.Issues code n i

section

variable {N : Node → Prop} {code : List Instr}

mutual

theorem Lowers.issued (hs : s.Concrete) {e : Expr} {want : Expectation} {σ σ' : Supply}
    {f : Fragment} (h : s.Lowers e want σ f σ') (hw : want.Concrete) (hsub : f.code ⊆ code)
    (hN : ∀ n ∈ e.nodes, N n) : ∀ i ∈ f.code, s.IssuedBy N code i := by
  have hself : N (.expr e) := hN _ (Expr.mem_nodes_self e)
  match h with
  | .literal | .var _ _ | .this _ => simp
  | .field hf => exact List.forall_mem_singleton.2 ⟨_, hself, .getField hf⟩
  | .binary hl hr =>
    simp only [Expr.nodes, List.cons_append, List.forall_mem_cons, List.forall_mem_append] at hN
    simp only [List.append_subset] at hsub
    simp only [List.forall_mem_append, List.forall_mem_singleton]
    exact ⟨⟨hl.issued hs (s.concrete_operandExpectations _ _ _).1 hsub.1.1 hN.2.1,
      hr.issued hs (s.concrete_operandExpectations _ _ _).2 hsub.1.2 hN.2.2⟩,
      _, hself, .binary (hl.leaves hsub.1.1) (hr.leaves hsub.1.2)⟩
  | .index ha hi =>
    simp only [Expr.nodes, List.cons_append, List.forall_mem_cons, List.forall_mem_append] at hN
    simp only [List.append_subset] at hsub
    simp only [List.forall_mem_append, List.forall_mem_singleton]
    exact ⟨⟨ha.issued hs (concrete_arrayExpectation hw) hsub.1.1 hN.2.1,
      hi.issued hs rfl hsub.1.2 hN.2.2⟩,
      _, hself, .arrayLoad hw (ha.leaves hsub.1.1) (hi.leaves hsub.1.2)⟩
  | .unary he =>
    simp only [Expr.nodes, List.forall_mem_cons] at hN
    simp only [List.append_subset] at hsub
    simp only [List.forall_mem_append, List.forall_mem_singleton]
    exact ⟨he.issued hs (UnaryOp.isEscape_ty _) hsub.1 hN.2, _, hself, .unary (he.leaves hsub.1)⟩
  | .length he =>
    simp only [Expr.nodes, List.forall_mem_cons] at hN
    simp only [List.append_subset] at hsub
    simp only [List.forall_mem_append, List.forall_mem_singleton]
    exact ⟨he.issued hs rfl hsub.1 hN.2, _, hself, .arrayLength (he.leaves hsub.1)⟩
  | .newArray he =>
    simp only [Expr.nodes, List.forall_mem_cons] at hN
    simp only [List.append_subset] at hsub
    simp only [List.forall_mem_append, List.forall_mem_singleton]
    exact ⟨he.issued hs rfl hsub.1 hN.2, _, hself, .newArray (he.leaves hsub.1)⟩
  | .paren he =>
    simp only [Expr.nodes, List.forall_mem_cons] at hN
    exact he.issued hs hw hsub hN.2
  | .call hc => exact hc.issued hs hw hsub hN
  | .newObject =>
    simp only [List.forall_mem_cons]
    exact ⟨⟨_, hself, .new⟩, ⟨_, hself, .construct (hsub List.mem_cons_self)⟩, by simp⟩
  | .arrayInit hp =>
    simp only [Expr.nodes, List.forall_mem_cons] at hN
    exact hp.issued hs (.init hw) (isEscape_initElementTy _ hw) hsub hself
      fun e he n hn => hN.2 n (Expr.mem_nodesOf.2 ⟨e, he, hn⟩)

theorem LowersCall.issued (hs : s.Concrete) {t : Option Expr} {m : String} {as : List Expr}
    {p : Span} {want : Expectation} {σ σ' : Supply} {block : List Instr} {dest : Option Temp}
    (h : s.LowersCall t m as p want σ block dest σ') (hw : want.Concrete) (hsub : block ⊆ code)
    (hN : ∀ n ∈ (Expr.call t m as p).nodes, N n) : ∀ i ∈ block, s.IssuedBy N code i := by
  have hself : N (.expr (.call t m as p)) := hN _ (Expr.mem_nodes_self _)
  match h with
  | .mk hsite hargs hbound =>
    subst hbound
    simp only [List.append_subset] at hsub
    simp only [List.forall_mem_append, List.forall_mem_singleton]
    refine ⟨⟨hsite.issued hs hsub.1.1 ?_, hargs.issued hs ?_ ?_ hsub.1.2 hself ?_⟩,
      _, hself, .call hw hsite hsub.1.1 hargs hsub.1.2⟩
    · intro e he n hn
      cases he
      exact hN n (by simp [Expr.nodes, hn])
    · exact concretePassed (hsite.concrete_callee hs) as
    · exact fun element es hmem => .vararg hsite hmem
    · intro q hq e he n hn
      have hmem := Expr.mem_nodesOf.2 ⟨e, exprs_passed_subset hq he, hn⟩
      cases t <;> exact hN n (by simp [Expr.nodes, hmem])

theorem LowersSite.issued (hs : s.Concrete) {t : Option Expr} {m : String} {σ σ' : Supply}
    {site : CallSite} (h : s.LowersSite t m σ site σ') (hsub : site.code ⊆ code)
    (hN : ∀ e ∈ t, ∀ n ∈ e.nodes, N n) : ∀ i ∈ site.code, s.IssuedBy N code i := by
  match h with
  | .implicit _ | .static _ => simp
  | .receiver _ _ _ ht => exact ht.issued hs trivial hsub (hN _ rfl)

theorem LowersArgs.issued (hs : s.Concrete) {ps : List Passed} {σ σ' : Supply} {fs : List Fragment}
    (h : s.LowersArgs ps σ fs σ') (hps : ∀ p ∈ ps, ConcretePassed p) {n : Node}
    (hn : ∀ element es, .packed element es ∈ ps → s.Gathers n element es)
    (hsub : fs.flatMap (·.code) ⊆ code) (hself : N n)
    (hN : ∀ p ∈ ps, ∀ e ∈ p.exprs, ∀ n ∈ e.nodes, N n) :
    ∀ i ∈ fs.flatMap (·.code), s.IssuedBy N code i := by
  match h with
  | .nil => simp
  | .direct he hr =>
    obtain ⟨hp, hps⟩ := List.forall_mem_cons.1 hps
    obtain ⟨hNe, hNs⟩ := List.forall_mem_cons.1 hN
    rw [List.flatMap_cons, List.append_subset] at hsub
    rw [List.flatMap_cons, List.forall_mem_append]
    exact ⟨he.issued hs hp hsub.1 (hNe _ List.mem_cons_self),
      hr.issued hs hps (fun element es hmem => hn element es (List.mem_cons_of_mem _ hmem)) hsub.2
        hself hNs⟩
  | .packed hpack hr =>
    obtain ⟨hp, hps⟩ := List.forall_mem_cons.1 hps
    obtain ⟨hNe, hNs⟩ := List.forall_mem_cons.1 hN
    rw [List.flatMap_cons, List.append_subset] at hsub
    rw [List.flatMap_cons, List.forall_mem_append]
    exact ⟨hpack.issued hs (hn _ _ List.mem_cons_self) hp hsub.1 hself hNe,
      hr.issued hs hps (fun element es hmem => hn element es (List.mem_cons_of_mem _ hmem)) hsub.2
        hself hNs⟩

theorem Packs.issued (hs : s.Concrete) {element : Ty} {es : List Expr} {σ σ' : Supply} {f : Fragment}
    (h : s.Packs element es σ f σ') {n : Node} (hn : s.Gathers n element es)
    (helement : element.isEscape = false) (hsub : f.code ⊆ code) (hself : N n)
    (hN : ∀ e ∈ es, ∀ n ∈ e.nodes, N n) : ∀ i ∈ f.code, s.IssuedBy N code i := by
  match h with
  | .mk _ hst =>
    rw [List.cons_subset] at hsub
    rw [List.forall_mem_cons]
    exact ⟨⟨n, hself, .gather hn⟩,
      hst.issued hs hn (List.Subset.refl _) rfl hsub.1 helement hsub.2 hself hN⟩

theorem Stores.issued (hs : s.Concrete) {array : Temp} {element : Ty} {i : Nat} {es all : List Expr}
    {σ σ' : Supply} {block : List Instr} (h : s.Stores array element i es σ block σ') {n : Node}
    (hn : s.Gathers n element all) (hes : es ⊆ all) (harray : array.ty = element.array)
    {size : Operand} (hnew : .newArray array element size ∈ code)
    (helement : element.isEscape = false) (hsub : block ⊆ code) (hself : N n)
    (hN : ∀ e ∈ es, ∀ n ∈ e.nodes, N n) :
    ∀ i ∈ block, s.IssuedBy N code i := by
  match h with
  | .nil => simp
  | .cons he hr =>
    obtain ⟨hNe, hNes⟩ := List.forall_mem_cons.1 hN
    simp only [List.append_subset, List.cons_subset] at hsub hes
    rw [List.forall_mem_append, List.forall_mem_cons]
    exact ⟨he.issued hs helement hsub.1 hNe, ⟨n, hself, .store hn hes.1 harray hnew (he.leaves hsub.1)⟩,
      hr.issued hs hn hes.2 harray hnew helement hsub.2.2 hself hNes⟩

end

theorem LowersEffect.issued (hs : s.Concrete) {e : Expr} {σ σ' : Supply} {block : List Instr}
    (h : s.LowersEffect e σ block σ') (hsub : block ⊆ code) (hN : ∀ n ∈ e.nodes, N n) :
    ∀ i ∈ block, s.IssuedBy N code i := by
  have hstrip : ∀ n ∈ e.stripParens.nodes, N n :=
    fun n hn => hN n (Expr.nodes_stripParens_subset e hn)
  cases h with
  | call he hc => exact hc.issued hs trivial hsub (he ▸ hstrip)
  | value _ hl => exact hl.issued hs (Expectation.concrete_of _) hsub hstrip

theorem LowersAssign.issued (hs : s.Concrete) {target value : Expr} {p : Span} {σ σ' : Supply}
    {block : List Instr} (h : s.LowersAssign target value σ block σ') (hsub : block ⊆ code)
    (hself : N (.stmt (.assign target value p))) (ht : ∀ n ∈ target.nodes, N n)
    (hN : ∀ n ∈ value.nodes, N n) : ∀ i ∈ block, s.IssuedBy N code i := by
  cases h with
  | var hb hf hv =>
    rw [List.append_subset] at hsub
    rw [List.forall_mem_append, List.forall_mem_singleton]
    exact ⟨hv.issued hs (Expectation.concrete_of _) hsub.1 hN,
      _, hself, .assignVar hb hf (hv.leaves hsub.1)⟩
  | field hf hv =>
    rw [List.append_subset] at hsub
    rw [List.forall_mem_append, List.forall_mem_singleton]
    exact ⟨hv.issued hs (Expectation.concrete_of _) hsub.1 hN,
      _, hself, .putField hf (hv.leaves hsub.1)⟩
  | element ha hi hv =>
    simp only [Expr.nodes, List.cons_append, List.forall_mem_cons, List.forall_mem_append] at ht
    simp only [List.append_subset] at hsub
    simp only [List.forall_mem_append, List.forall_mem_singleton]
    exact ⟨⟨⟨ha.issued hs trivial hsub.1.1.1 ht.2.1, hi.issued hs rfl hsub.1.1.2 ht.2.2⟩,
      hv.issued hs (Expectation.concrete_of _) hsub.1.2 hN⟩,
      _, hself, .assignElement (ha.leaves hsub.1.1.1) (hi.leaves hsub.1.1.2) (hv.leaves hsub.1.2)⟩

theorem issued_condCode {n : Node} {k : Nat} {c : Expr} {cf : Fragment} {tc ec : List Instr}
    (hsub : condCode k cf tc ec ⊆ code) (hself : N n) (hn : HasCondition n c)
    (hc : cf.code ⊆ code → s.Leaves code (.value .boolean) c cf.operand ∧
      ∀ i ∈ cf.code, s.IssuedBy N code i)
    (ht : tc ⊆ code → ∀ i ∈ tc, s.IssuedBy N code i)
    (he : ec ⊆ code → ∀ i ∈ ec, s.IssuedBy N code i) :
    ∀ i ∈ condCode k cf tc ec, s.IssuedBy N code i := by
  have hthen : (⟨"then", k⟩ : Label).kind ∈ structureKinds := by simp [structureKinds]
  have hend : (⟨"endif", k⟩ : Label).kind ∈ structureKinds := by simp [structureKinds]
  simp only [condCode, List.append_assoc, List.append_subset] at hsub
  obtain ⟨hcsub, _, hesub, _, htsub, _⟩ := hsub
  obtain ⟨hyields, hcode⟩ := hc hcsub
  simp only [condCode, List.append_assoc, List.forall_mem_append, List.forall_mem_cons]
  exact ⟨hcode, ⟨⟨n, hself, .branch hn hyields hthen⟩, by simp⟩, he hesub,
    ⟨⟨n, hself, .goto hend⟩, ⟨n, hself, .label hthen⟩, by simp⟩, ht htsub,
    ⟨n, hself, .label hend⟩, by simp⟩

theorem issued_loopCode {n : Node} {k : Nat} {c : Expr} {cf : Fragment} {bc : List Instr}
    (hsub : loopCode k cf bc ⊆ code) (hself : N n) (hn : HasCondition n c)
    (hc : cf.code ⊆ code → s.Leaves code (.value .boolean) c cf.operand ∧
      ∀ i ∈ cf.code, s.IssuedBy N code i)
    (hb : bc ⊆ code → ∀ i ∈ bc, s.IssuedBy N code i) :
    ∀ i ∈ loopCode k cf bc, s.IssuedBy N code i := by
  have hcond : (⟨"whilecond", k⟩ : Label).kind ∈ structureKinds := by simp [structureKinds]
  have hbody : (⟨"whilebody", k⟩ : Label).kind ∈ structureKinds := by simp [structureKinds]
  have hend : (⟨"whileend", k⟩ : Label).kind ∈ structureKinds := by simp [structureKinds]
  simp only [loopCode, List.append_assoc, List.append_subset] at hsub
  obtain ⟨_, hcsub, _, hbsub, _⟩ := hsub
  obtain ⟨hyields, hcode⟩ := hc hcsub
  simp only [loopCode, List.append_assoc, List.forall_mem_append, List.forall_mem_cons]
  exact ⟨⟨⟨n, hself, .label hcond⟩, by simp⟩, hcode, ⟨⟨n, hself, .branch hn hyields hbody⟩,
    ⟨n, hself, .goto hend⟩, ⟨n, hself, .label hbody⟩, by simp⟩, hb hbsub, ⟨n, hself, .goto hcond⟩,
    ⟨n, hself, .label hend⟩, by simp⟩

mutual

theorem LowersStmt.issued (hs : s.Concrete) {t : Stmt} {σ σ' : Supply} {block : List Instr}
    (h : s.LowersStmt t σ block σ') (hsub : block ⊆ code) (hN : ∀ n ∈ t.nodes, N n) :
    ∀ i ∈ block, s.IssuedBy N code i := by
  match h with
  | .block hb =>
    simp only [Stmt.nodes, List.forall_mem_cons] at hN
    exact hb.issued hs hsub hN.2
  | .condThen hc ht =>
    simp only [Stmt.nodes, List.cons_append, List.forall_mem_cons, List.forall_mem_append] at hN
    exact issued_condCode hsub hN.1 .cond
      (fun hsub => ⟨hc.leaves hsub, hc.issued hs rfl hsub hN.2.1⟩)
      (fun hsub => ht.issued hs hsub hN.2.2) (by simp)
  | .condElse hc he ht =>
    simp only [Stmt.nodes, List.cons_append, List.forall_mem_cons, List.forall_mem_append] at hN
    exact issued_condCode hsub hN.1 .cond
      (fun hsub => ⟨hc.leaves hsub, hc.issued hs rfl hsub hN.2.1.1⟩)
      (fun hsub => ht.issued hs hsub hN.2.1.2) fun hsub => he.issued hs hsub hN.2.2
  | .loop hc hb =>
    simp only [Stmt.nodes, List.cons_append, List.forall_mem_cons, List.forall_mem_append] at hN
    exact issued_loopCode hsub hN.1 .loop
      (fun hsub => ⟨hc.leaves hsub, hc.issued hs rfl hsub hN.2.1⟩)
      fun hsub => hb.issued hs hsub hN.2.2
  | .expr he =>
    simp only [Stmt.nodes, List.forall_mem_cons] at hN
    exact he.issued hs hsub hN.2
  | .assign ha =>
    simp only [Stmt.nodes, List.cons_append, List.forall_mem_cons, List.forall_mem_append] at hN
    exact ha.issued hs hsub hN.1 hN.2.1 hN.2.2
  | .retNone =>
    simp only [Stmt.nodes, List.forall_mem_singleton] at hN ⊢
    exact ⟨_, hN, .retNone⟩
  | .retSome hv =>
    simp only [Stmt.nodes, List.forall_mem_cons] at hN
    rw [List.append_subset] at hsub
    rw [List.forall_mem_append, List.forall_mem_singleton]
    exact ⟨hv.issued hs (Expectation.concrete_of _) hsub.1 hN.2,
      _, hN.1, .retSome (hv.leaves hsub.1)⟩

/-- Every instruction of a body is issued by a node of it. -/
theorem LowersBody.issued (hs : s.Concrete) {ts : List Stmt} {σ σ' : Supply} {block : List Instr}
    (h : s.LowersBody ts σ block σ') (hsub : block ⊆ code) (hN : ∀ n ∈ Stmt.nodesOf ts, N n) :
    ∀ i ∈ block, s.IssuedBy N code i := by
  match h with
  | .nil => simp
  | .cons ht hr =>
    simp only [Stmt.nodesOf, List.forall_mem_append] at hN ⊢
    rw [List.append_subset] at hsub
    exact ⟨ht.issued hs hsub.1 hN.1, hr.issued hs hsub.2 hN.2⟩

end

end

end Scope

end SingleClass
