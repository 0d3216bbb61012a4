import Mathlib.Data.List.Forall2
import SingleClass.Proofs.Lowering.Emission
import SingleClass.Proofs.Lowering.Evaluation
import SingleClass.Proofs.Typing.Parts
set_option autoImplicit false

/-!
Types of three-address code. Code that lowering builds for a body in order is typed: every operand has
the type that its instruction asks for, every temporary that is read is defined in the method, and the
receiver is used in instance methods only.
-/

namespace SingleClass

theorem Ty.element_eq_self {t : Ty} (h : t.Declared) (ha : t.isArray = false) : t.element = t := by
  have hv := h.asValue_eq ha
  obtain ⟨kind, isArray, isVararg⟩ := t
  simp_all [element, asValue]

theorem Symbols.isKnown_resultTy (S : Symbols) (op : BinaryOp) : S.isKnown op.resultTy = true := by
  cases op <;> rfl

theorem Symbols.isKnown_ty (S : Symbols) (op : UnaryOp) : S.isKnown op.ty = true := by
  cases op <;> rfl

namespace Scope

mutual

theorem HasType.isKnown {s : Scope} (hs : s.Closed) {e : Expr} {t : Ty} (h : s.HasType e t) :
    s.symbols.isKnown t = true := by
  match h with
  | .literal (v := v) => cases v <;> rfl
  | .name hb _ => exact (hs.lookup_admits hb).isKnown
  | .this _ | .newObject => simp [Symbols.isKnown, Symbols.ownTy, Ty.named]
  | .binary _ _ _ => exact s.symbols.isKnown_resultTy _
  | .unary _ => exact s.symbols.isKnown_ty _
  | .paren he => exact he.isKnown hs
  | .index ha _ _ _ => exact ha.isKnown hs
  | .length _ _ _ => rfl
  | .call _ hm _ _ => exact (hs.symbols.methods _ (Symbols.Closed.method_mem hm)).isKnown
  | .newArray _ hk => exact hk
  | .arrayInit hes hne hts _ =>
    obtain ⟨u, hu⟩ := List.exists_mem_of_ne_nil _ hne
    exact hts u hu ▸ hes.isKnown hs u hu

theorem HaveTypes.isKnown {s : Scope} (hs : s.Closed) {es : List Expr} {ts : List Ty}
    (h : s.HaveTypes es ts) : ∀ t ∈ ts, s.symbols.isKnown t = true := by
  match h with
  | .nil => simp
  | .cons he _ hes => exact List.forall_mem_cons.2 ⟨he.isKnown hs, hes.isKnown hs⟩

end

theorem HaveTypes.isVoid {s : Scope} {es : List Expr} {ts : List Ty} (h : s.HaveTypes es ts) :
    ∀ t ∈ ts, t.isVoid = false := by
  match h with
  | .nil => simp
  | .cons _ hvoid hes => exact List.forall_mem_cons.2 ⟨hvoid, hes.isVoid⟩

/-- The operand has a value of type `t`: it names a variable of the method, or one of the temporaries
`D`, or the receiver of an instance method. -/
inductive TypedOperand (s : Scope) (D : List Temp) : Operand → Ty → Prop
  | int {v : Int32} : TypedOperand s D (.int v) .int
  | bool {b : Bool} : TypedOperand s D (.bool b) .boolean
  | var {n : String} {b : Binding} (hb : s.lookup n = some b) (hf : b.isField = false) :
      TypedOperand s D (.var n b.symbol.ty.asValue) b.symbol.ty.asValue
  | temp {d : Temp} (hd : d ∈ D) (hescape : d.ty.isEscape = false) (hvoid : d.ty.isVoid = false) :
      TypedOperand s D (.temp d) d.ty.asValue
  | this (hs : s.method.isStatic = false) : TypedOperand s D s.thisOperand s.symbols.ownTy
  | null {t : Ty} (href : t.isReference = true) (hescape : t.isEscape = false)
      (hvoid : t.isVoid = false) (hself : t.asValue = t) : TypedOperand s D (.null t) t

/-- What a call means: the initialiser of a fresh object, or a method of the class. -/
inductive Callee (s : Scope) (c : Call) : Prop
  | constructor (hname : c.method = "<init>") (hparams : c.params = []) (hret : c.ret = .void)
  | method {m : Signature} (hm : m ∈ s.symbols.methods) (hname : m.name = c.method)
      (hparams : m.paramTys = c.params) (hret : m.returnTy = c.ret)

structure TypedCall (s : Scope) (D : List Temp) (c : Call) : Prop where
  owner : c.owner = s.symbols.className
  receiver : ∃ o, c.receiver = some o ∧ s.TypedOperand D o s.symbols.ownTy
  dispatch : c.dispatch ≠ .static
  callee : s.Callee c
  args : List.Forall₂ (s.TypedOperand D) c.args (c.params.map Ty.asValue)
  dest : ∀ d ∈ c.dest, d.ty = c.ret ∧ c.ret.isVoid = false

theorem TypedCall.params {s : Scope} (hs : s.Closed) {D : List Temp} {c : Call}
    (h : s.TypedCall D c) : ∀ t ∈ c.params, t.isEscape = false ∧ t.isVoid = false := by
  cases h.callee with
  | constructor _ hparams _ => simp [hparams]
  | method hm _ hparams _ =>
    intro t ht
    rw [← hparams] at ht
    obtain ⟨v, hv, rfl⟩ := List.mem_map.1 ht
    have hadmits := (hs.symbols.methods _ hm).params v hv
    exact ⟨hadmits.declared.isEscape, hadmits.isVoid⟩

theorem TypedCall.ret {s : Scope} {D : List Temp} {c : Call} (h : s.TypedCall D c) :
    c.ret = .void ∨ ∃ m ∈ s.symbols.methods, m.returnTy = c.ret := by
  cases h.callee with
  | constructor _ _ hret => exact .inl hret
  | method hm _ _ hret => exact .inr ⟨_, hm, hret⟩

/-- An instruction in order. `V` says whether arrays of void are created. -/
inductive TypedInstr (s : Scope) (V : Prop) (D : List Temp) : Instr → Prop
  | assignVar {n : String} {b : Binding} {v : Operand} (hb : s.lookup n = some b)
      (hf : b.isField = false) (hv : s.TypedOperand D v b.symbol.ty.asValue) :
      TypedInstr s V D (.assign (.var n b.symbol.ty.asValue) v)
  | assignElement {a i v : Operand} {t : Ty} (ha : s.TypedOperand D a t) (harray : t.isArray = true)
      (hi : s.TypedOperand D i .int) (hv : s.TypedOperand D v t.element) :
      TypedInstr s V D (.assign (.element a i) v)
  | binary {d : Temp} {op : BinaryOp} {l r : Operand} {t : Ty} (hop : op.Takes t)
      (hl : s.TypedOperand D l t) (hr : s.TypedOperand D r t) (hd : d.ty = op.resultTy) :
      TypedInstr s V D (.binary d op l r)
  | unary {d : Temp} {op : UnaryOp} {o : Operand} (ho : s.TypedOperand D o op.ty)
      (hd : d.ty = op.ty) : TypedInstr s V D (.unary d op o)
  | call {c : Call} (hc : s.TypedCall D c) : TypedInstr s V D (.call c)
  | new {d : Temp} (hd : d.ty = s.symbols.ownTy) : TypedInstr s V D (.new d s.symbols.className)
  | newArray {d : Temp} {element : Ty} {size : Operand} (hd : d.ty = element.array)
      (helement : element.element = element) (hescape : element.isEscape = false)
      (hknown : s.symbols.isKnown element = true) (hvoid : element.isVoid = true → V)
      (hsize : s.TypedOperand D size .int) :
      TypedInstr s V D (.newArray d element size)
  | arrayLoad {d : Temp} {a i : Operand} {t : Ty} (ha : s.TypedOperand D a t)
      (harray : t.isArray = true) (hi : s.TypedOperand D i .int) (hd : d.ty = t.element) :
      TypedInstr s V D (.arrayLoad d a i)
  | arrayLength {d : Temp} {a : Operand} {t : Ty} (ha : s.TypedOperand D a t)
      (harray : t.isArray = true) (hd : d.ty = .int) : TypedInstr s V D (.arrayLength d a)
  | getField {d : Temp} {f : Symbol} (hf : f ∈ s.symbols.fields) (hs : s.method.isStatic = false)
      (hd : d.ty = f.ty.asValue) : TypedInstr s V D (.getField d f.name f.ty.asValue)
  | putField {f : Symbol} {v : Operand} (hf : f ∈ s.symbols.fields) (hs : s.method.isStatic = false)
      (hv : s.TypedOperand D v f.ty.asValue) : TypedInstr s V D (.putField f.name f.ty.asValue v)
  | retNone (hvoid : s.method.returnTy.isVoid = true) : TypedInstr s V D (.ret none)
  | retSome {v : Operand} (hvoid : s.method.returnTy.isVoid = false)
      (hv : s.TypedOperand D v s.method.returnTy.asValue) : TypedInstr s V D (.ret (some v))
  | goto {l : Label} (hl : l.kind ∈ structureKinds) : TypedInstr s V D (.goto l)
  | branch {c : Operand} {l : Label} (hc : s.TypedOperand D c .boolean)
      (hl : l.kind ∈ structureKinds) : TypedInstr s V D (.branch c l)
  | label {l : Label} (hl : l.kind ∈ structureKinds) : TypedInstr s V D (.label l)

theorem TypedOperand.scalar {s : Scope} (hs : s.Closed) {D : List Temp} {o : Operand} {t : Ty}
    (h : s.TypedOperand D o t) :
    o.ty.asValue = t ∧ t.isEscape = false ∧ t.isVoid = false := by
  cases h with
  | int | bool => exact ⟨rfl, rfl, rfl⟩
  | var hb hf =>
    have hadmits := hs.lookup_admits hb
    exact ⟨rfl, hadmits.declared.isEscape, hadmits.isVoid⟩
  | temp hd hescape hvoid => exact ⟨rfl, hescape, hvoid⟩
  | this hstatic => exact ⟨rfl, rfl, rfl⟩
  | null href hescape hvoid hself => exact ⟨hself, hescape, hvoid⟩

def TypedCode (s : Scope) (V : Prop) (D : List Temp) (code : List Instr) : Prop :=
  ∀ i ∈ code, s.TypedInstr V D i

structure Holds (s : Scope) (element : Ty) (es : List Expr) : Prop where
  isElement : element.element = element
  isEscape : element.isEscape = false
  isVoid : element.isVoid = false
  isKnown : s.symbols.isKnown element = true
  values : ∀ e ∈ es, s.HasType e element

def PassedAs (s : Scope) : Passed → Ty → Prop
  | .direct e _, t => s.HasType e t ∧ t.isVoid = false
  | .packed element values, t => t = element.array ∧ s.Holds element values

end Scope

theorem Signature.params_eq (c : Signature) :
    c.params.take c.fixedArity ++ c.vararg?.toList = c.params := by
  unfold fixedArity
  cases hv : c.vararg? with
  | none => simp
  | some v =>
    have hlast : c.params.getLast? = some v := by
      unfold vararg? at hv
      exact (Option.filter_eq_some_iff.1 hv).1
    obtain ⟨init, hinit⟩ := List.getLast?_eq_some_iff.1 hlast
    simp [hinit]

namespace Scope

theorem passedAs_direct {s : Scope} (k : Nat) {as : List Expr} {vs : List Symbol} {ts : List Ty}
    (has : s.HaveTypes as ts) (hk : k ≤ as.length)
    (hts : ts.take k = (vs.take k).map (·.ty.asValue)) :
    List.Forall₂ s.PassedAs
      (((as.zip vs).take k).map fun (a, v) => Passed.direct a (.of v.ty.asValue))
      ((vs.take k).map (·.ty.asValue)) := by
  induction k generalizing as vs ts with
  | zero => simp
  | succ k ih =>
    cases has with
    | nil => simp at hk
    | cons ha hvoid hrest =>
      cases vs with
      | nil => simp
      | cons v vs =>
        simp only [List.take_succ_cons, List.map_cons, List.cons.injEq] at hts
        obtain ⟨rfl, hts⟩ := hts
        simp only [List.zip_cons_cons, List.take_succ_cons, List.map_cons]
        exact .cons ⟨ha, hvoid⟩ (ih hrest (by simpa using hk) hts)

theorem passedAs_last {s : Scope} (hs : s.Closed) {v : Symbol} {as : List Expr} {ts : List Ty}
    (hv : s.symbols.Admits v) (hvararg : v.ty.isVararg = true) (has : s.HaveTypes as ts)
    (hts : ts = [v.ty.element.array] ∨ ∀ t ∈ ts, t = v.ty.element) :
    s.PassedAs (s.passedLast v.ty as) v.ty.asValue := by
  have hasValue : v.ty.asValue = v.ty.element.array := by
    have := hv.declared.isArray_of_isVararg hvararg
    simp [Ty.asValue, Ty.array, Ty.element, this]
  rcases s.passedLast_cases hs has v.ty with ⟨e, rfl, he, hpassed⟩ | ⟨hne, hpassed⟩
  · rw [hpassed]
    exact ⟨hasValue ▸ he, hv.isVoid⟩
  · rw [hpassed]
    refine ⟨hasValue, rfl, hv.declared.isEscape, hv.isVoid, hv.isKnown, has.hasType ?_⟩
    exact hts.resolve_left fun heq => hne ((passesArray_iff hs has).2 heq)

theorem exists_passedAs {s : Scope} {ps : List Passed} {ts : List Ty}
    (h : List.Forall₂ s.PassedAs ps ts) : ∀ p ∈ ps, ∃ t, s.PassedAs p t := by
  induction h with
  | nil => simp
  | cons hp _ ih => exact List.forall_mem_cons.2 ⟨⟨_, hp⟩, ih⟩

theorem passedAs_params {s : Scope} (hs : s.Closed) {c : Signature} {as : List Expr} {ts : List Ty}
    (hc : s.symbols.AdmitsMethod c) (has : s.HaveTypes as ts) (hts : c.Takes ts) :
    List.Forall₂ s.PassedAs (s.passed (some c) as) (c.paramTys.map Ty.asValue) := by
  have hlen : c.fixedArity ≤ as.length := by
    rw [has.length_eq]
    exact c.fixedArity_le_of_admits hts.arity
  have hparams : c.paramTys.map Ty.asValue =
      (c.params.take c.fixedArity).map (·.ty.asValue) ++ c.vararg?.toList.map (·.ty.asValue) := by
    rw [← List.map_append, c.params_eq]
    simp [Signature.paramTys]
  rw [hparams]
  refine List.rel_append (passedAs_direct _ has hlen hts.fixed) ?_
  cases hv : c.vararg? with
  | none => simp
  | some v =>
    have hfilter := Option.filter_eq_some_iff.1 hv
    have hmem : v ∈ c.params := List.mem_of_getLast? hfilter.1
    refine .cons ?_ .nil
    exact passedAs_last hs (hc.params v hmem) hfilter.2 (has.drop _) (hts.trailing v hv)

theorem TypedOperand.of_temp {s : Scope} {D : List Temp} {d : Temp} {t : Ty} (hd : d ∈ D)
    (ht : d.ty.asValue = t) (hescape : t.isEscape = false) (hvoid : t.isVoid = false) :
    s.TypedOperand D (.temp d) t := by
  subst ht
  exact .temp hd hescape hvoid

theorem mem_definitions {code : List Instr} {i : Instr} {d : Temp} (hi : i ∈ code)
    (hd : i.defined? = some d) : d ∈ definitions code :=
  List.mem_filterMap.2 ⟨i, hi, hd⟩

theorem definitions_mono {code rest : List Instr} (h : code ⊆ rest) :
    definitions code ⊆ definitions rest :=
  List.filterMap_subset _ h

section

variable {s : Scope} {D : List Temp}

theorem Packs.typedOperand {element : Ty} {es : List Expr} {σ σ' : Supply} {f : Fragment}
    (h : s.Packs element es σ f σ') (helement : s.Holds element es) (hD : definitions f.code ⊆ D) :
    s.TypedOperand D f.operand element.array := by
  cases h with
  | mk _ _ =>
    have harray : element.array.asValue = element.array := by
      rw [← helement.isElement]
      rfl
    exact .of_temp (hD (mem_definitions List.mem_cons_self rfl)) harray helement.isEscape
      helement.isVoid

theorem LowersCall.dest_eq (hs : s.Closed) {t : Option Expr} {m : String} {as : List Expr} {p : Span}
    {want : Expectation} {σ σ' : Supply} {code : List Instr} {dest : Option Temp}
    (h : s.LowersCall t m as p want σ code dest σ') (ht : s.Receives t) {c : Signature}
    (hm : s.symbols.method? m = some c) :
    ∀ d ∈ dest, d ∈ definitions code ∧ d.ty = c.returnTy := by
  cases h with
  | mk hsite _ hbound =>
    intro d hd
    refine ⟨mem_definitions (List.mem_append_right _ List.mem_cons_self) hd, ?_⟩
    obtain ⟨rfl, _, _⟩ := Expectation.of_mem_dest hd
    rw [hbound, (hsite.callee_eq hs ht).trans hm]
    rfl

theorem HasType.holds (hs : s.Closed) {es : List Expr} {p : Span} {t : Ty}
    (h : s.HasType (.arrayInit es p) t) (want : Expectation) :
    t = (initElementTy (s.typeHint (.arrayInit es p)) want).array ∧
      s.Holds (initElementTy (s.typeHint (.arrayInit es p)) want) es := by
  have hhint := h.typeHint_eq hs
  have hknown := h.isKnown hs
  have helement := congrArg Ty.element hhint.1
  rw [initElementTy_of_hint hhint.2.isEscape]
  cases h with
  | @arrayInit _ _ t ts hes hne hts harray =>
    obtain ⟨u, hu⟩ := List.exists_mem_of_ne_nil ts hne
    obtain rfl := hts u hu
    have hdeclared := hes.declared hs u hu
    have hself := Ty.element_eq_self hdeclared harray
    have hinit : (s.typeHint (.arrayInit es p)).element = u := helement.trans hself
    rw [hinit]
    exact ⟨rfl, hself, hdeclared.isEscape, hes.isVoid u hu, hknown, hes.hasType hts⟩

theorem definitions_subset_left {code code' : List Instr}
    (h : definitions (code ++ code') ⊆ D) : definitions code ⊆ D := by
  rw [definitions_append, List.append_subset] at h
  exact h.1

theorem Lowers.typedOperand (hs : s.Closed) {e : Expr} {want : Expectation} {σ σ' : Supply}
    {f : Fragment} (h : s.Lowers e want σ f σ') :
    ∀ ⦃t : Ty⦄, s.HasType e t → t.isVoid = false → definitions f.code ⊆ D →
      s.TypedOperand D f.operand t := by
  match h with
  | .literal (v := v) =>
    intro t ht _ _
    cases ht
    cases v with
    | int n => exact .int
    | bool b => exact .bool
  | .var hb hf =>
    intro t ht _ _
    cases ht with
    | name hb' _ =>
      cases Option.some.inj (hb.symm.trans hb')
      exact .var hb hf
  | .this hstatic =>
    intro t ht _ _
    cases ht
    exact .this hstatic
  | .paren he =>
    intro t ht
    cases ht with
    | paren het => exact he.typedOperand hs het
  | .index ha _ =>
    have ih := ha.typedOperand hs
    intro t ht hvoid hD
    have hescape := (ht.declared hs).1.isEscape
    cases ht with
    | index hat _ _ hvoid' =>
      have hDa := definitions_subset_left (definitions_subset_left hD)
      have helement := congrArg Ty.element ((ih hat hvoid' hDa).scalar hs).1
      exact .of_temp (hD (mem_definitions (List.mem_append_right _ List.mem_cons_self) rfl)) helement
        hescape hvoid
  | .call hc =>
    intro t ht hvoid hD
    have hescape := (ht.declared hs).1.isEscape
    cases ht with
    | call hrecv hm _ _ =>
      obtain ⟨hd, hty⟩ := hc.dest_eq hs hrecv hm _ rfl
      exact .of_temp (hD hd) (congrArg Ty.asValue hty) hescape hvoid
  | .arrayInit hp =>
    intro t ht _ hD
    obtain ⟨rfl, hholds⟩ := ht.holds hs want
    exact hp.typedOperand hholds hD
  | .field hf =>
    intro t ht hvoid hD
    have hescape := (ht.declared hs).1.isEscape
    cases ht with
    | name hb _ =>
      cases Option.some.inj (hf.symm.trans hb)
      exact .of_temp (hD (mem_definitions List.mem_cons_self rfl)) rfl hescape hvoid
  | .newObject =>
    intro t ht _ hD
    cases ht
    exact .of_temp (hD (mem_definitions List.mem_cons_self rfl)) rfl rfl rfl
  | .binary _ _ =>
    intro t ht hvoid hD
    have hdeclared := ht.declared hs
    cases ht
    exact .of_temp (hD (mem_definitions (List.mem_append_right _ List.mem_cons_self) rfl))
      hdeclared.2 hdeclared.1.isEscape hvoid
  | .unary _ | .length _ | .newArray _ =>
    intro t ht hvoid hD
    have hdeclared := ht.declared hs
    cases ht
    exact .of_temp (hD (mem_definitions (List.mem_append_right _ List.mem_cons_self) rfl))
      hdeclared.2 hdeclared.1.isEscape hvoid

theorem Leaves.typedOperand (hs : s.Closed) {code : List Instr} {want : Expectation} {e : Expr}
    {o : Operand} (h : s.Leaves code want e o) {t : Ty} (ht : s.HasType e t) (hvoid : t.isVoid = false)
    (hD : definitions code ⊆ D) : s.TypedOperand D o t := by
  obtain ⟨_, f, _, hl, hsub, rfl⟩ := h
  exact hl.typedOperand hs ht hvoid (List.Subset.trans (definitions_mono hsub) hD)

theorem LowersArgs.typedOperands (hs : s.Closed) {ps : List Passed} {σ σ' : Supply}
    {fs : List Fragment} (h : s.LowersArgs ps σ fs σ') {ts : List Ty}
    (hps : List.Forall₂ s.PassedAs ps ts) (hD : definitions (fs.flatMap (·.code)) ⊆ D) :
    List.Forall₂ (s.TypedOperand D) (fs.map (·.operand)) ts := by
  induction hps generalizing σ fs with
  | nil =>
    cases h
    exact .nil
  | cons hp _ ih =>
    cases h with
    | direct he hr =>
      rw [List.flatMap_cons, definitions_append, List.append_subset] at hD
      exact .cons (he.typedOperand hs hp.1 hp.2 hD.1) (ih hr hD.2)
    | packed hpack hr =>
      rw [List.flatMap_cons, definitions_append, List.append_subset] at hD
      obtain ⟨rfl, hholds⟩ := hp
      exact .cons (hpack.typedOperand hholds hD.1) (ih hr hD.2)

theorem LowersSite.typedReceiver (hs : s.Closed) {t : Option Expr} {m : String} {σ σ' : Supply}
    {site : CallSite} (h : s.LowersSite t m σ site σ') (ht : s.Receives t)
    (hD : definitions site.code ⊆ D) :
    site.owner = s.symbols.className ∧ site.dispatch ≠ .static ∧
      ∃ o, site.receiver = some o ∧ s.TypedOperand D o s.symbols.ownTy := by
  cases h with
  | implicit hstatic => exact ⟨rfl, by simp, _, rfl, .this hstatic⟩
  | static hi => simp [hs.staticReceiver?_eq] at hi
  | receiver _ hty ho hl =>
    cases ht with
    | explicit he =>
      refine ⟨?_, by simp, _, rfl, hl.typedOperand hs he rfl hD⟩
      obtain ⟨ty, hty', hv, _⟩ := he.typeOf_eq hs
      have heq := Except.ok.inj (hty.symm.trans hty')
      have hkind : ty.kind = .named s.symbols.className := congrArg Ty.kind hv
      have harray : ty.isArray = false := congrArg Ty.isArray hv
      simp only [ownerOf, heq, harray, hkind, Bool.false_eq_true, if_false, Lower.pure_eq_ok] at ho
      simpa [Symbols.internalName, internalName, findImport, hs.symbols.imports] using ho.1.symm

theorem Gathers.holds (hs : s.Closed) {n : Node} {element : Ty} {es : List Expr}
    (h : s.Gathers n element es) (hn : s.Keeps n) : s.Holds element es := by
  cases h with
  | init _ =>
    obtain ⟨t, ht⟩ := hn
    exact (ht.holds hs _).2
  | vararg hsite hmem =>
    obtain ⟨t, ht⟩ := hn
    cases ht with
    | call hrecv hm has hts =>
      rw [(hsite.callee_eq hs hrecv).trans hm] at hmem
      have hadmits := hs.symbols.methods _ (Symbols.Closed.method_mem hm)
      obtain ⟨_, hp⟩ := exists_passedAs (passedAs_params hs hadmits has hts) _ hmem
      exact hp.2

end

/-- `V` holds where an array of void is created. -/
def VoidArrays (V : Prop) (nodes : List Node) : Prop :=
  ∀ u size p, .expr (.newArray u size p) ∈ nodes → (Ty.ofName u).isVoid = true → V

theorem Closed.mem_fields {s : Scope} {n : String} {f : Symbol} (hf : s.lookup n = some (.field f)) :
    f ∈ s.symbols.fields := by
  unfold lookup at hf
  split at hf
  · cases hf
  · split at hf
    · cases hf
    · obtain ⟨v, hv, heq⟩ := Option.map_eq_some_iff.1 hf
      cases heq
      exact List.mem_of_find?_eq_some hv

theorem LowersCall.typedCall {s : Scope} (hs : s.Closed) {D : List Temp} {t : Option Expr} {m : String}
    {as : List Expr} {p : Span} {u : Ty} {want : Expectation} {σ σ₁ σ₂ σ₃ : Supply} {site : CallSite}
    {fs : List Fragment} (hsite : s.LowersSite t m σ site σ₁)
    (hargs : s.LowersArgs (s.passed site.callee as) σ₁ fs σ₂) (h : s.HasType (.call t m as p) u)
    (hD : definitions site.code ⊆ D) (hDs : definitions (fs.flatMap (·.code)) ⊆ D) :
    s.TypedCall D (site.instr m (.of site.callee want fs)
      (want.dest (BoundCall.of site.callee want fs).ret σ₃)) := by
  cases h with
  | @call _ _ _ _ c _ hrecv hm has hts =>
    have hcallee := (hsite.callee_eq hs hrecv).trans hm
    have hmem := Symbols.Closed.method_mem hm
    obtain ⟨howner, hdispatch, hreceiver⟩ := hsite.typedReceiver hs hrecv hD
    rw [hcallee] at hargs ⊢
    have hname : c.name = m := by simpa using List.find?_some hm
    refine ⟨howner, hreceiver, hdispatch, .method hmem hname rfl rfl, ?_, ?_⟩
    · exact hargs.typedOperands hs (passedAs_params hs (hs.symbols.methods c hmem) has hts) hDs
    · intro d hd
      obtain ⟨rfl, _, hvoid⟩ := Expectation.of_mem_dest hd
      exact ⟨rfl, hvoid⟩

theorem Issues.typed {s : Scope} (hs : s.Closed) {V : Prop} {D : List Temp} {code : List Instr}
    {n : Node} {i : Instr} (h : s.Issues code n i) (hn : s.Keeps n) (hV : VoidArrays V [n])
    (hD : definitions code ⊆ D) : s.TypedInstr V D i := by
  have hpart : ∀ {part : List Instr}, part ⊆ code → definitions part ⊆ D :=
    fun hsub => List.Subset.trans (definitions_mono hsub) hD
  cases h with
  | getField hf =>
    obtain ⟨t, ht⟩ := hn
    cases ht with
    | name hb hstatic =>
      cases Option.some.inj (hf.symm.trans hb)
      exact .getField (Closed.mem_fields hf) (hstatic rfl) rfl
  | binary hl hr =>
    obtain ⟨t, ht⟩ := hn
    cases ht with
    | binary hop hlt hrt =>
      have hvoid := hop.scalar.2
      exact .binary hop (hl.typedOperand hs hlt hvoid hD) (hr.typedOperand hs hrt hvoid hD) rfl
  | unary he =>
    obtain ⟨t, ht⟩ := hn
    cases ht with
    | unary het => exact .unary (he.typedOperand hs het (UnaryOp.scalar_ty _).2 hD) rfl
  | arrayLoad _ ha hi =>
    obtain ⟨t, ht⟩ := hn
    cases ht with
    | index hat hit harray hvoid =>
      have hao := ha.typedOperand hs hat hvoid hD
      have helement := congrArg Ty.element (hao.scalar hs).1
      exact .arrayLoad hao harray (hi.typedOperand hs hit rfl hD) helement
  | arrayLength ha =>
    obtain ⟨t, ht⟩ := hn
    cases ht with
    | length hat harray hvoid => exact .arrayLength (ha.typedOperand hs hat hvoid hD) harray rfl
  | call _ hsite hsub hargs hsubs =>
    obtain ⟨t, ht⟩ := hn
    exact .call (LowersCall.typedCall hs hsite hargs ht (hpart hsub) (hpart hsubs))
  | new =>
    obtain ⟨t, ht⟩ := hn
    cases ht
    exact .new rfl
  | construct hnew =>
    obtain ⟨t, ht⟩ := hn
    cases ht
    have ho : s.TypedOperand D (.temp _) s.symbols.ownTy :=
      .of_temp (hD (mem_definitions hnew rfl)) rfl rfl rfl
    refine .call ⟨?_, ⟨_, rfl, ho⟩, by simp [constructorCall], .constructor rfl rfl rfl, .nil,
      by simp [constructorCall]⟩
    simp [constructorCall, Symbols.internalName, internalName, findImport, hs.symbols.imports]
  | newArray he =>
    obtain ⟨t, ht⟩ := hn
    have hescape := (ht.declared hs).1.isEscape
    cases ht with
    | newArray het hknown =>
      exact .newArray rfl rfl hescape hknown (hV _ _ _ List.mem_cons_self)
        (he.typedOperand hs het rfl hD)
  | gather hgathers =>
    have hholds := hgathers.holds hs hn
    exact .newArray rfl hholds.isElement hholds.isEscape hholds.isKnown
      (fun hv => by simp [hholds.isVoid] at hv) .int
  | @store _ element _ _ array _ _ _ hgathers he harray hnew ho =>
    have hholds := hgathers.holds hs hn
    have hself := hholds.isElement
    have hao : s.TypedOperand D (.temp array) element.array :=
      .of_temp (hD (mem_definitions hnew rfl)) (by rw [harray, ← hself]; rfl) hholds.isEscape
        hholds.isVoid
    have heo := ho.typedOperand hs (hholds.values _ he) hholds.isVoid hD
    rw [← hself] at heo
    exact .assignElement hao rfl .int heo
  | assignVar hb hf he =>
    simp only [Keeps, Accepts] at hn
    obtain ⟨_, t, hvoid, ht, hv⟩ := hn
    cases ht with
    | name hb' _ =>
      cases Option.some.inj (hb.symm.trans hb')
      exact .assignVar hb hf (he.typedOperand hs hv hvoid hD)
  | putField hf he =>
    simp only [Keeps, Accepts] at hn
    obtain ⟨_, t, hvoid, ht, hv⟩ := hn
    cases ht with
    | name hb hstatic =>
      cases Option.some.inj (hf.symm.trans hb)
      exact .putField (Closed.mem_fields hf) (hstatic rfl) (he.typedOperand hs hv hvoid hD)
  | assignElement ha hi he =>
    simp only [Keeps, Accepts] at hn
    obtain ⟨_, t, hvoid, ht, hv⟩ := hn
    cases ht with
    | index hat hit harray hvoid' =>
      exact .assignElement (ha.typedOperand hs hat hvoid' hD) harray (hi.typedOperand hs hit rfl hD)
        (he.typedOperand hs hv hvoid hD)
  | branch hcond hc hl =>
    refine .branch (hc.typedOperand hs ?_ rfl hD) hl
    cases hcond with
    | @cond c t e p =>
      cases e <;> simp only [Keeps, Accepts] at hn <;> exact hn.1
    | loop =>
      simp only [Keeps, Accepts] at hn
      exact hn.1
  | goto hl => exact .goto hl
  | label hl => exact .label hl
  | retNone =>
    simp only [Keeps, Accepts] at hn
    exact .retNone hn
  | retSome he =>
    simp only [Keeps, Accepts] at hn
    exact .retSome hn.1 (he.typedOperand hs hn.2 hn.1 hD)

theorem Closed.concrete {s : Scope} (hs : s.Closed) : s.Concrete := by
  have hvars : ∀ vs : List Symbol, (∀ v ∈ vs, s.symbols.Admits v) → Ty.AllConcrete (vs.map (·.ty)) := by
    intro vs hvs t ht
    obtain ⟨v, hv, rfl⟩ := List.mem_map.1 ht
    exact (hvs v hv).declared.isEscape
  have hmethod : ∀ m, s.symbols.AdmitsMethod m → m.Concrete := fun m hm =>
    ⟨hm.returnTy.isEscape, hvars _ hm.params, hvars _ hm.locals⟩
  exact ⟨hvars _ hs.symbols.fields, fun m hm => hmethod m (hs.symbols.methods m hm),
    hmethod _ hs.method⟩

theorem LowersBody.typed {s : Scope} (hs : s.Closed) {V : Prop} {D : List Temp} {ts : List Stmt}
    {σ σ' : Supply} {code : List Instr} (h : s.LowersBody ts σ code σ') (ha : s.AcceptsAll ts)
    (hV : VoidArrays V (Stmt.nodesOf ts)) (hD : definitions code ⊆ D) : s.TypedCode V D code := by
  intro i hi
  have hnodes : ∀ n ∈ Stmt.nodesOf ts, s.Keeps n ∧ VoidArrays V [n] := by
    intro n hn
    refine ⟨ha.keeps n hn, fun u size p hmem => hV u size p ?_⟩
    rwa [List.mem_singleton.1 hmem]
  obtain ⟨n, ⟨hn, hvoid⟩, hissues⟩ := h.issued hs.concrete (List.Subset.refl _) hnodes i hi
  exact hissues.typed hs hn hvoid hD

theorem typedOperand_zero {s : Scope} {D : List Temp} {t : Ty} (hd : t.Declared)
    (hself : t.asValue = t) (hvoid : t.isVoid = false) : s.TypedOperand D (.zero t) t := by
  unfold Operand.zero
  split
  · rename_i h
    rw [← hself, Ty.asValue_of_isInt h]
    exact .int
  · split
    · rename_i h
      rw [← hself, Ty.asValue_of_isBoolean h]
      exact .bool
    · rename_i hint hbool
      have href : t.isReference = true := by
        obtain ⟨kind, isArray, isVararg⟩ := t
        have := hd.isEscape
        cases kind <;> simp_all [Ty.isReference, Ty.isInt, Ty.isBoolean, Ty.isVoid, Ty.isEscape]
      exact .null href hd.isEscape hvoid hself

theorem typedCode_closing {s : Scope} (hs : s.Closed) {V : Prop} {D : List Temp}
    (code : List Instr) : s.TypedCode V D (closing s.method.returnTy.asValue code) := by
  have hret := hs.method.returnTy
  unfold closing
  cases hvoid : s.method.returnTy.isVoid with
  | true =>
    simp only [Ty.isVoid_asValue, hvoid, if_true]
    split
    · simp [TypedCode]
    · exact List.forall_mem_singleton.2 (.retNone hvoid)
  | false =>
    simp only [Ty.isVoid_asValue, hvoid, Bool.false_eq_true, if_false]
    split
    · simp [TypedCode]
    · have hzero := typedOperand_zero (s := s) (D := D) (Ty.declared_asValue hret.isEscape) rfl hvoid
      exact List.forall_mem_singleton.2 (.retSome hvoid hzero)

theorem definitions_closing (ret : Ty) (code : List Instr) : definitions (closing ret code) = [] := by
  unfold closing
  split <;> split <;> rfl

end Scope

theorem markers_closing (ret : Ty) (code : List Instr) : markers (closing ret code) = [] := by
  unfold closing
  split <;> split <;> rfl

theorem Temp.firstDefinitions_eq {code : List Instr}
    (h : ((definitions code).map (·.id)).Nodup) : Temp.firstDefinitions code = definitions code := by
  have hfold : ∀ ds ts : List Temp, ((ts ++ ds).map (·.id)).Nodup →
      ds.foldl (fun ts t => if ts.any (·.id = t.id) then ts else ts ++ [t]) ts = ts ++ ds := by
    intro ds
    induction ds with
    | nil => simp
    | cons d ds ih =>
      intro ts hts
      have hnew : ts.any (·.id = d.id) = false := by
        rw [List.any_eq_false]
        intro t ht hid
        simp only [List.map_append, List.map_cons, List.nodup_append] at hts
        exact hts.2.2 t.id (List.mem_map_of_mem ht) d.id List.mem_cons_self (by simpa using hid)
      rw [List.foldl_cons, hnew]
      simpa using ih (ts ++ [d]) (by simpa using hts)
  exact hfold (definitions code) [] h

/-- The code of a method of the scope, in order as a whole: its instructions are typed over its own
temporaries, each temporary is defined once, and its labels are apart from each other. -/
structure MethodCode.Typed (m : MethodCode) (s : Scope) (V : Prop) : Prop where
  closed : s.Closed
  name : m.name = s.method.name
  isStatic : m.isStatic = s.method.isStatic
  params : m.params = s.method.params
  locals : m.locals = s.method.locals
  returnTy : m.returnTy = s.method.returnTy
  code : s.TypedCode V m.temps m.instrs
  defined : ∀ i ∈ m.instrs, ∀ d ∈ i.defined?, d ∈ m.temps
  distinct : (m.temps.map (·.id)).Nodup
  markers : (markers m.instrs).Nodup
  kinds : ∀ l ∈ SingleClass.markers m.instrs, l.kind ∈ structureKinds
  labels : m.labels = .ofInstrs m.instrs

theorem Scope.definitions_methodCode (s : Scope) (body : List Instr) :
    definitions (s.methodCode body).instrs = definitions body := by
  unfold Scope.methodCode
  rw [definitions_append, Scope.definitions_closing, List.append_nil]

theorem Scope.markers_methodCode (s : Scope) (body : List Instr) :
    markers (s.methodCode body).instrs = markers body := by
  unfold Scope.methodCode
  rw [markers_append, markers_closing, List.append_nil]

theorem Defines.nodup {a b : Nat} {code : List Instr} (h : Defines a b code) :
    ((definitions code).map (·.id)).Nodup := by
  rw [h.ids]
  exact List.nodup_range'

theorem Scope.LowersBody.temps_methodCode {s : Scope} {ts : List Stmt} {σ σ' : Supply}
    {body : List Instr} (h : s.LowersBody ts σ body σ') :
    (s.methodCode body).temps = definitions body := by
  have hids := h.laid.temps.nodup
  rw [← s.definitions_methodCode] at hids
  rw [MethodCode.temps, Temp.firstDefinitions_eq hids, s.definitions_methodCode]

theorem Scope.Closed.typed_methodCode {s : Scope} {V : Prop} {ts : List Stmt} {σ σ' : Supply}
    {body : List Instr} (hs : s.Closed) (ha : s.AcceptsAll ts) (h : s.LowersBody ts σ body σ')
    (hV : Scope.VoidArrays V (Stmt.nodesOf ts)) : (s.methodCode body).Typed s V := by
  have htemps := h.temps_methodCode
  have hmarkers := s.markers_methodCode body
  refine ⟨hs, rfl, rfl, rfl, rfl, rfl, ?_, ?_, ?_, ?_, ?_, rfl⟩
  · rw [htemps]
    exact List.forall_mem_append.2
      ⟨h.typed hs ha hV (List.Subset.refl _), Scope.typedCode_closing hs _⟩
  · intro i hi d hd
    rw [htemps, ← s.definitions_methodCode]
    exact List.mem_filterMap.2 ⟨i, hi, hd⟩
  · rw [htemps]
    exact h.laid.temps.nodup
  · rw [hmarkers]
    exact h.laid.labels.nodup
  · rw [hmarkers]
    exact h.laid.labels.kind

theorem Symbols.LowersMethods.of_mem {S : Symbols} {ds : List (MethodDecl × Signature)}
    {σ σ' : Supply} {ms : List MethodCode} (h : S.LowersMethods ds σ ms σ') {m : MethodCode}
    (hm : m ∈ ms) :
    ∃ d sig σ₁ σ₂ body, (d, sig) ∈ ds ∧ Scope.LowersBody ⟨S, sig⟩ d.body σ₁ body σ₂ ∧
      Scope.methodCode ⟨S, sig⟩ body = m := by
  induction h with
  | nil => simp at hm
  | cons hd _ ih =>
    rcases List.mem_cons.1 hm with rfl | hm
    · exact ⟨_, _, _, _, _, List.mem_cons_self, hd, rfl⟩
    · obtain ⟨d, sig, σ₁, σ₂, body, hmem, hb, hm⟩ := ih hm
      exact ⟨d, sig, σ₁, σ₂, body, List.mem_cons_of_mem _ hmem, hb, hm⟩

/-- The methods of a program without findings are typed. -/
theorem Program.Closed.typed_of_lower {p : Program} (hp : p.Closed)
    (hd : p.analyze.diagnostics = []) {σ σ' : Supply} {code : ClassCode}
    (hl : (Symbols.ofProgram p).lower p σ = .ok code σ') {V : Prop}
    (hV : ∀ d ∈ p.classDecl.methods, Scope.VoidArrays V (Stmt.nodesOf d.body)) {m : MethodCode}
    (hm : m ∈ code.methods) : ∃ d ∈ p.classDecl.methods, m.Typed (p.scopeOf d) V := by
  obtain ⟨ms, hms, rfl⟩ := Symbols.lower_eq_ok_iff.1 hl
  rw [p.paired_ofProgram] at hms
  obtain ⟨d, sig, σ₁, σ₂, body, hmem, hb, rfl⟩ := hms.of_mem hm
  obtain ⟨d', hd', heq⟩ := List.mem_map.1 hmem
  cases heq
  have hs := hp.sound hd hd'
  exact ⟨d, hd', hs.closed.typed_methodCode hs.accepts hb (hV d hd')⟩

end SingleClass
