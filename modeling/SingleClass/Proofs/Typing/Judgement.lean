import SingleClass.Analysis.Body
import SingleClass.Typing.Expr
set_option autoImplicit false

/-!
The types of a unit that stands alone, as a judgement. Nothing is declared elsewhere there, so no type
is an escape; types are taken up to the vararg mark. The type of an expression is the one that every
stage computes for it (`HasType.typeOf_eq`).
-/

namespace SingleClass

/-- What a written type can be: no escape, and an array where it is a vararg. -/
structure Ty.Declared (t : Ty) : Prop where
  isEscape : t.isEscape = false
  isArray_of_isVararg : t.isVararg = true → t.isArray = true

namespace Ty

theorem isEscape_kindOfName (n : String) : ({ kind := kindOfName n } : Ty).isEscape = false := by
  unfold kindOfName
  split <;> rfl

theorem declared_ofName (t : TypeName) : (Ty.ofName t).Declared := by
  refine ⟨isEscape_kindOfName t.name, ?_⟩
  intro h
  have hv : t.isVararg = true := h
  simp [ofName, hv]

theorem declared_element {t : Ty} (h : t.isEscape = false) : t.element.Declared :=
  ⟨h, fun hv => by simp [element] at hv⟩

theorem declared_asValue {t : Ty} (h : t.isEscape = false) : t.asValue.Declared :=
  ⟨h, fun hv => by simp [asValue] at hv⟩

theorem Declared.asValue_eq {t : Ty} (h : t.Declared) (ha : t.isArray = false) : t.asValue = t := by
  have hv : t.isVararg = false := by
    cases hv : t.isVararg with
    | false => rfl
    | true => simp [h.isArray_of_isVararg hv] at ha
  obtain ⟨kind, isArray, isVararg⟩ := t
  simp_all [asValue]

theorem asValue_of_kind {t : Ty} {k : Kind} (hk : t.kind = k) (ha : t.isArray = false) :
    t.asValue = { kind := k } := by
  obtain ⟨kind, isArray, isVararg⟩ := t
  simp_all [asValue]

theorem asValue_of_isInt {t : Ty} (h : t.isInt = true) : t.asValue = .int := by
  simp only [isInt, Bool.and_eq_true, decide_eq_true_eq, Bool.not_eq_true'] at h
  exact asValue_of_kind h.1 h.2

theorem asValue_of_isBoolean {t : Ty} (h : t.isBoolean = true) : t.asValue = .boolean := by
  simp only [isBoolean, Bool.and_eq_true, decide_eq_true_eq, Bool.not_eq_true'] at h
  exact asValue_of_kind h.1 h.2

@[simp] theorem isVoid_asValue (t : Ty) : t.asValue.isVoid = t.isVoid := rfl
@[simp] theorem isVoid_element (t : Ty) : t.element.isVoid = t.isVoid := rfl
@[simp] theorem isArray_asValue (t : Ty) : t.asValue.isArray = t.isArray := rfl
@[simp] theorem kind_asValue (t : Ty) : t.asValue.kind = t.kind := rfl

end Ty

theorem Ty.declared_of_kind {k : Kind} (h : ({ kind := k } : Ty).isEscape = false) :
    ({ kind := k } : Ty).Declared :=
  ⟨h, fun hv => by simp at hv⟩

theorem Literal.asValue_ty (v : Literal) : v.ty.asValue = v.ty := by
  cases v <;> rfl

theorem Literal.declared_ty (v : Literal) : v.ty.Declared := by
  cases v <;> exact Ty.declared_of_kind rfl

theorem BinaryOp.asValue_resultTy (op : BinaryOp) : op.resultTy.asValue = op.resultTy := by
  unfold BinaryOp.resultTy
  split <;> rfl

theorem BinaryOp.declared_resultTy (op : BinaryOp) : op.resultTy.Declared := by
  unfold BinaryOp.resultTy
  split <;> exact Ty.declared_of_kind rfl

theorem UnaryOp.asValue_ty (op : UnaryOp) : op.ty.asValue = op.ty := by
  cases op <;> rfl

theorem UnaryOp.declared_ty (op : UnaryOp) : op.ty.Declared := by
  cases op <;> exact Ty.declared_of_kind rfl

theorem UnaryOp.scalar_ty (op : UnaryOp) : op.ty.isArray = false ∧ op.ty.isVoid = false := by
  cases op <;> exact ⟨rfl, rfl⟩

structure Symbols.Admits (S : Symbols) (v : Symbol) : Prop where
  declared : v.ty.Declared
  isVoid : v.ty.isVoid = false
  isKnown : S.isKnown v.ty = true

structure Symbols.AdmitsMethod (S : Symbols) (m : Signature) : Prop where
  params : ∀ v ∈ m.params, S.Admits v
  locals : ∀ v ∈ m.locals, S.Admits v
  returnTy : m.returnTy.Declared
  isKnown : S.isKnown m.returnTy = true

/-- A unit without imports and superclass whose declarations are in order. -/
structure Symbols.Closed (S : Symbols) : Prop where
  imports : S.imports = []
  superclass : S.superclass = none
  fields : ∀ v ∈ S.fields, S.Admits v
  methods : ∀ m ∈ S.methods, S.AdmitsMethod m

structure Scope.Closed (s : Scope) : Prop where
  symbols : s.symbols.Closed
  method : s.symbols.AdmitsMethod s.method

namespace Symbols.Closed

variable {S : Symbols}

theorem isExternal_eq (h : S.Closed) (t : Ty) : S.isExternal t = decide (t.kind = .external) := by
  unfold isExternal
  cases t.kind with
  | named c => simp [isImported, import?, findImport, isSuperclass, h.imports, h.superclass]
  | _ => simp

theorem isExternal_of_declared (h : S.Closed) {t : Ty} (ht : t.isEscape = false) :
    S.isExternal t = false := by
  rw [h.isExternal_eq]
  simp only [Ty.isEscape, Bool.or_eq_false_iff] at ht
  exact ht.1

theorem assignable_iff (h : S.Closed) {a b : Ty} (ha : a.isEscape = false)
    (hb : b.isEscape = false) : S.assignable a b = true ↔ a.asValue = b.asValue := by
  simp [assignable, Ty.assignable, h.isExternal_of_declared ha, h.isExternal_of_declared hb, ha, hb]

theorem eq_className_of_isKnown (h : S.Closed) {t : Ty} {c : String} (ht : t.kind = .named c)
    (hk : S.isKnown t = true) : c = S.className := by
  simpa [isKnown, ht, h.isExternal_eq] using hk

theorem method_mem {m : String} {c : Signature} (hm : S.method? m = some c) : c ∈ S.methods :=
  List.mem_of_find?_eq_some hm

end Symbols.Closed

def BinaryOp.Takes (op : BinaryOp) (t : Ty) : Prop :=
  match op.family with
  | .arithmetic | .ordering => t = .int
  | .logical => t = .boolean
  | .equality => t.isArray = false ∧ t.isVoid = false

theorem VarargPassing.of_map_asValue (ts : List Ty) (element : Ty) :
    VarargPassing.of (ts.map Ty.asValue) element = VarargPassing.of ts element := by
  cases ts with
  | nil => rfl
  | cons t ts => cases ts <;> rfl

theorem VarargPassing.of_eq_array_iff {ts : List Ty} (hts : ts.map Ty.asValue = ts) {element : Ty}
    (he : element.element = element) :
    VarargPassing.of ts element = .array ↔ ts = [element.array] := by
  match ts with
  | [] | _ :: _ :: _ => simp [VarargPassing.of]
  | [t] =>
    simp only [List.map_cons, List.map_nil, List.cons.injEq, and_true] at hts
    have heq : t = element.array ↔ t.isArray = true ∧ t.element = element := by
      constructor
      · rintro rfl
        exact ⟨rfl, he⟩
      · rintro ⟨harray, rfl⟩
        rw [← hts]
        simp [Ty.asValue, Ty.array, Ty.element, harray]
    simp [VarargPassing.of, heq]

theorem BinaryOp.Takes.scalar {op : BinaryOp} {t : Ty} (h : op.Takes t) :
    t.isArray = false ∧ t.isVoid = false := by
  unfold BinaryOp.Takes at h
  split at h
  · exact h ▸ ⟨rfl, rfl⟩
  · exact h ▸ ⟨rfl, rfl⟩
  · exact h ▸ ⟨rfl, rfl⟩
  · exact h

structure Signature.Takes (c : Signature) (ts : List Ty) : Prop where
  arity : c.arity.admits ts.length = true
  fixed : ts.take c.fixedArity = (c.params.take c.fixedArity).map (·.ty.asValue)
  trailing : ∀ v ∈ c.vararg?, ts.drop c.fixedArity = [v.ty.element.array] ∨
    ∀ t ∈ ts.drop c.fixedArity, t = v.ty.element

namespace Scope

mutual

inductive HasType (s : Scope) : Expr → Ty → Prop
  | literal {v : Literal} {p : Span} : HasType s (.literal v p) v.ty
  | name {n : String} {p : Span} {b : Binding} (hb : s.lookup n = some b)
      (hf : b.isField = true → s.method.isStatic = false) :
      HasType s (.name n p) b.symbol.ty.asValue
  | this {p : Span} (hs : s.method.isStatic = false) : HasType s (.this p) s.symbols.ownTy
  | binary {op : BinaryOp} {l r : Expr} {p : Span} {t : Ty} (hop : op.Takes t)
      (hl : HasType s l t) (hr : HasType s r t) : HasType s (.binary op l r p) op.resultTy
  | unary {op : UnaryOp} {e : Expr} {p : Span} (he : HasType s e op.ty) :
      HasType s (.unary op e p) op.ty
  | paren {e : Expr} {t : Ty} (he : HasType s e t) : HasType s (.paren e) t
  | index {a i : Expr} {p : Span} {t : Ty} (ha : HasType s a t) (hi : HasType s i .int)
      (harray : t.isArray = true) (hvoid : t.isVoid = false) : HasType s (.index a i p) t.element
  | length {a : Expr} {p : Span} {t : Ty} (ha : HasType s a t) (harray : t.isArray = true)
      (hvoid : t.isVoid = false) : HasType s (.length a p) .int
  | call {t : Option Expr} {m : String} {as : List Expr} {p : Span} {c : Signature} {ts : List Ty}
      (ht : Receives s t) (hm : s.symbols.method? m = some c) (has : HaveTypes s as ts)
      (hts : c.Takes ts) : HasType s (.call t m as p) c.returnTy.asValue
  | newObject {p : Span} : HasType s (.newObject s.symbols.className p) s.symbols.ownTy
  | newArray {t : TypeName} {e : Expr} {p : Span} (he : HasType s e .int)
      (hk : s.symbols.isKnown (Typing.newArray t) = true) :
      HasType s (.newArray t e p) (Typing.newArray t)
  | arrayInit {es : List Expr} {p : Span} {t : Ty} {ts : List Ty} (hes : HaveTypes s es ts)
      (hne : ts ≠ []) (hts : ∀ t' ∈ ts, t' = t) (harray : t.isArray = false) :
      HasType s (.arrayInit es p) t.array

inductive Receives (s : Scope) : Option Expr → Prop
  | implicit (hs : s.method.isStatic = false) : Receives s none
  | explicit {e : Expr} (he : HasType s e s.symbols.ownTy) : Receives s (some e)

inductive HaveTypes (s : Scope) : List Expr → List Ty → Prop
  | nil : HaveTypes s [] []
  | cons {e : Expr} {es : List Expr} {t : Ty} {ts : List Ty} (he : HasType s e t)
      (hvoid : t.isVoid = false) (hes : HaveTypes s es ts) : HaveTypes s (e :: es) (t :: ts)

end

/-- What can be assigned: a variable or an element of an array. -/
def IsPlace : Expr → Prop
  | .name .. | .index .. => True
  | _ => False

mutual

def Accepts (s : Scope) : Stmt → Prop
  | .block b _ => s.AcceptsAll b
  | .cond c t none _ => s.HasType c .boolean ∧ s.Accepts t
  | .cond c t (some e) _ => s.HasType c .boolean ∧ s.Accepts t ∧ s.Accepts e
  | .loop c b _ => s.HasType c .boolean ∧ s.Accepts b
  | .expr e _ => ∃ t, s.HasType e t
  | .assign target value _ => IsPlace target ∧
      ∃ t, t.isVoid = false ∧ s.HasType target t ∧ s.HasType value t
  | .ret none _ => s.method.returnTy.isVoid = true
  | .ret (some e) _ => s.method.returnTy.isVoid = false ∧ s.HasType e s.method.returnTy.asValue

def AcceptsAll (s : Scope) : List Stmt → Prop
  | [] => True
  | t :: ts => s.Accepts t ∧ s.AcceptsAll ts

end

end Scope

namespace Scope

theorem lookup_of_local? {s : Scope} {n : String} {x : Symbol} (h : s.method.local? n = some x) :
    s.lookup n = some (.localVar x) := by
  simp only [lookup, h]

theorem Closed.lookup_admits {s : Scope} (hs : s.Closed) {n : String} {b : Binding}
    (hb : s.lookup n = some b) : s.symbols.Admits b.symbol := by
  unfold lookup at hb
  cases hl : s.method.local? n with
  | some v =>
    simp only [hl, Option.some.injEq] at hb
    subst hb
    exact hs.method.locals v (List.mem_of_find?_eq_some hl)
  | none =>
    cases hp : s.method.param? n with
    | some v =>
      simp only [hl, hp, Option.some.injEq] at hb
      subst hb
      exact hs.method.params v (List.mem_of_find?_eq_some hp)
    | none =>
      simp only [hl, hp, Option.map_eq_some_iff] at hb
      obtain ⟨f, hf, rfl⟩ := hb
      exact hs.symbols.fields f (List.mem_of_find?_eq_some hf)

theorem Closed.staticReceiver?_eq {s : Scope} (hs : s.Closed) (e : Expr) :
    s.staticReceiver? e = none := by
  fun_induction staticReceiver? s e with
  | case1 n _ hn => simp [Symbols.import?, findImport, hs.symbols.imports]
  | case2 => rfl
  | case3 _ ih => exact ih
  | case4 => rfl

theorem Typing.value_eq_ok {e : Expr} {t : Ty} (h : t.isVoid = false) : Typing.value e t = .ok t := by
  simp [Typing.value, h]

theorem typeOf_bind_eq_ok {s : Scope} {A : Type} {e : Expr} {g : Ty → Except TypeError A} {a : A} :
    (s.typeOf e >>= fun t => Typing.value e t >>= g) = .ok a ↔
      ∃ t, s.typeOf e = .ok t ∧ t.isVoid = false ∧ g t = .ok a := by
  cases ht : s.typeOf e with
  | error err => simp [bind, Except.bind]
  | ok t =>
    cases hv : t.isVoid with
    | true => simp [hv, Typing.value, bind, Except.bind]
    | false => simp [hv, Typing.value_eq_ok hv, bind, Except.bind]

theorem Typing.binary_eq_ok {op : BinaryOp} {t : Ty} (ht : t.Declared) (h : op.Takes t) :
    Typing.binary op t t = .ok op.resultTy := by
  have hop : op.accepts t t = true := by
    unfold BinaryOp.Takes at h
    unfold BinaryOp.accepts
    cases hfamily : op.family with
    | arithmetic | ordering =>
      simp only [hfamily] at h
      rw [h]
      rfl
    | logical =>
      simp only [hfamily] at h
      rw [h]
      rfl
    | equality => simp
  simp [Typing.binary, ht.isEscape, h.scalar.1, hop]

theorem Typing.arrayInit_eq_ok {us : List Ty} {t : Ty} (hus : ∀ u ∈ us, u = t) (hne : us ≠ [])
    (ht : t.Declared) (harray : t.isArray = false) : Typing.arrayInit us = .ok t.array := by
  cases us with
  | nil => exact absurd rfl hne
  | cons u us =>
    obtain rfl := hus u (by simp)
    have hfirst : (u :: us).find? (fun v => !v.isEscape) = some u := by simp [ht.isEscape]
    have hother : (u :: us).find? (fun v => !v.isEscape && v ≠ u) = none := by
      rw [List.find?_eq_none]
      intro v hv
      simp [hus v hv]
    simp only [Typing.arrayInit, hfirst, hother, harray, Bool.false_eq_true, if_false]

mutual

theorem HasType.typeOf_eq {s : Scope} (hs : s.Closed) {e : Expr} {t : Ty} (h : s.HasType e t) :
    ∃ t', s.typeOf e = .ok t' ∧ t'.asValue = t ∧ t'.Declared := by
  cases h with
  | @literal v p => exact ⟨v.ty, rfl, v.asValue_ty, v.declared_ty⟩
  | name hb hf =>
    refine ⟨_, ?_, Ty.asValue_asValue _, Ty.declared_asValue (hs.lookup_admits hb).declared.isEscape⟩
    simp [typeOf, nameTy, hb]
  | this hstatic =>
    exact ⟨s.symbols.ownTy, by simp [typeOf, thisTy, hstatic], rfl, Ty.declared_of_kind rfl⟩
  | binary hop hl hr =>
    obtain ⟨lt, hlt, rfl, hld⟩ := hl.typeOf_eq hs
    obtain ⟨rt, hrt, hrv, hrd⟩ := hr.typeOf_eq hs
    obtain ⟨harray, hvoid⟩ : lt.isArray = false ∧ lt.isVoid = false := hop.scalar
    have hl' : lt.asValue = lt := hld.asValue_eq harray
    have hr' : rt = lt := by
      have hra : rt.isArray = false := (congrArg Ty.isArray hrv).trans harray
      rw [← hrd.asValue_eq hra, hrv, hl']
    rw [hl'] at hop
    refine ⟨_, ?_, BinaryOp.asValue_resultTy _, BinaryOp.declared_resultTy _⟩
    simp only [typeOf, hlt, hrt, hr', Typing.value_eq_ok hvoid, bind, Except.bind]
    exact Typing.binary_eq_ok hld hop
  | @unary op _ _ he =>
    obtain ⟨et, het, hev, hed⟩ := he.typeOf_eq hs
    obtain ⟨harray, hvoid⟩ := op.scalar_ty
    have heq : et = op.ty := by
      rw [← hed.asValue_eq ((congrArg Ty.isArray hev).trans harray), hev]
    refine ⟨_, ?_, op.asValue_ty, op.declared_ty⟩
    simp only [typeOf, het, heq, Typing.value_eq_ok hvoid, bind, Except.bind]
    simp [Typing.unary]
  | paren he => exact he.typeOf_eq hs
  | index ha hi harray hvoid =>
    obtain ⟨t, ht, rfl, htd⟩ := ha.typeOf_eq hs
    have harray : t.isArray = true := harray
    have hvoid : t.isVoid = false := hvoid
    refine ⟨t.element, ?_, rfl, Ty.declared_element htd.isEscape⟩
    simp [typeOf, ht, Typing.value_eq_ok hvoid, bind, Except.bind, Typing.element, harray]
  | length ha harray hvoid =>
    obtain ⟨t, ht, rfl, htd⟩ := ha.typeOf_eq hs
    have harray : t.isArray = true := harray
    have hvoid : t.isVoid = false := hvoid
    refine ⟨.int, ?_, rfl, Ty.declared_of_kind rfl⟩
    simp [typeOf, ht, Typing.value_eq_ok hvoid, bind, Except.bind, Typing.length, Typing.element,
      harray, Except.map]
  | @call _ m _ _ c _ ht hm has hts =>
    refine ⟨c.returnTy, ?_, rfl, (hs.symbols.methods c (Symbols.Closed.method_mem hm)).returnTy⟩
    cases ht with
    | implicit hstatic => simp [typeOf, hstatic, Symbols.callTy, Symbols.callee?, hm]
    | explicit he =>
      obtain ⟨t, ht, htv, htd⟩ := he.typeOf_eq hs
      have hkind : t.kind = .named s.symbols.className := congrArg Ty.kind htv
      have harray : t.isArray = false := congrArg Ty.isArray htv
      have hvoid : t.isVoid = false := by simp [Ty.isVoid, hkind]
      simp [typeOf, ht, Typing.value_eq_ok hvoid, bind, Except.bind, pure, Except.pure,
        Symbols.callTy, Symbols.callee?, hkind, harray, hm]
  | newObject => exact ⟨s.symbols.ownTy, rfl, rfl, Ty.declared_of_kind rfl⟩
  | newArray he hk => exact ⟨_, rfl, rfl, ⟨Ty.isEscape_kindOfName _, fun _ => rfl⟩⟩
  | @arrayInit es _ t ts hes hne hts harray =>
    obtain ⟨us, hus, rfl, hud⟩ := hes.valuesOf_eq hs
    have hplain : ∀ u ∈ us, u = t := by
      intro u hu
      have huv := hts u.asValue (List.mem_map.2 ⟨u, hu, rfl⟩)
      rw [← huv, (hud u hu).asValue_eq ((congrArg Ty.isArray huv).trans harray)]
    have hne' : us ≠ [] := by simpa using hne
    obtain ⟨u, hu⟩ := List.exists_mem_of_ne_nil us hne'
    have htd : t.Declared := hplain u hu ▸ hud u hu
    have htv : t.array.asValue = t.array := by
      have : t.asValue.array = t.array := by rw [htd.asValue_eq harray]
      exact this
    refine ⟨t.array, ?_, htv, ⟨htd.isEscape, fun _ => rfl⟩⟩
    simp only [typeOf, hus, bind, Except.bind]
    exact Typing.arrayInit_eq_ok hplain hne' htd harray

theorem HaveTypes.valuesOf_eq {s : Scope} (hs : s.Closed) {es : List Expr} {ts : List Ty}
    (h : s.HaveTypes es ts) :
    ∃ us, s.valuesOf es = .ok us ∧ us.map Ty.asValue = ts ∧ ∀ u ∈ us, u.Declared := by
  cases h with
  | nil => exact ⟨[], rfl, rfl, by simp⟩
  | cons he hvoid hes =>
    obtain ⟨t, ht, rfl, htd⟩ := he.typeOf_eq hs
    obtain ⟨us, hus, rfl, hud⟩ := hes.valuesOf_eq hs
    refine ⟨t :: us, ?_, rfl, ?_⟩
    · have hvoid : t.isVoid = false := hvoid
      simp [valuesOf, ht, hus, Typing.value_eq_ok hvoid, bind, Except.bind, pure, Except.pure]
    · intro u hu
      rcases List.mem_cons.1 hu with rfl | hu
      · exact htd
      · exact hud u hu

end

theorem HasType.unique {s : Scope} (hs : s.Closed) {e : Expr} {t t' : Ty} (h : s.HasType e t)
    (h' : s.HasType e t') : t = t' := by
  obtain ⟨u, hu, rfl, _⟩ := h.typeOf_eq hs
  obtain ⟨u', hu', rfl, _⟩ := h'.typeOf_eq hs
  cases Except.ok.inj (hu.symm.trans hu')
  rfl

theorem HasType.typeHint_eq {s : Scope} (hs : s.Closed) {e : Expr} {t : Ty} (h : s.HasType e t) :
    (s.typeHint e).asValue = t ∧ (s.typeHint e).Declared := by
  obtain ⟨t', ht', hv, hd⟩ := h.typeOf_eq hs
  simp only [typeHint, ht']
  exact ⟨hv, hd⟩

theorem HasType.declared {s : Scope} (hs : s.Closed) {e : Expr} {t : Ty} (h : s.HasType e t) :
    t.Declared ∧ t.asValue = t := by
  obtain ⟨t', _, rfl, hd⟩ := h.typeOf_eq hs
  exact ⟨Ty.declared_asValue hd.isEscape, rfl⟩

theorem HaveTypes.typeHints_eq {s : Scope} (hs : s.Closed) {es : List Expr} {ts : List Ty}
    (h : s.HaveTypes es ts) : (es.map s.typeHint).map Ty.asValue = ts := by
  induction es generalizing ts with
  | nil =>
    cases h
    rfl
  | cons e es ih =>
    cases h with
    | cons he _ hes => simp only [List.map_cons, (he.typeHint_eq hs).1, ih hes]

theorem HaveTypes.length_eq {s : Scope} {es : List Expr} {ts : List Ty} (h : s.HaveTypes es ts) :
    es.length = ts.length := by
  induction es generalizing ts with
  | nil =>
    cases h
    rfl
  | cons e es ih =>
    cases h with
    | cons _ _ hes => simp [ih hes]

theorem HaveTypes.exists_type {s : Scope} {es : List Expr} {ts : List Ty} (h : s.HaveTypes es ts) :
    ∀ e ∈ es, ∃ t, s.HasType e t := by
  induction es generalizing ts with
  | nil => simp
  | cons e es ih =>
    cases h with
    | cons he _ hes =>
      intro e' h'
      rcases List.mem_cons.1 h' with rfl | h'
      · exact ⟨_, he⟩
      · exact ih hes e' h'

theorem HaveTypes.declared {s : Scope} (hs : s.Closed) {es : List Expr} {ts : List Ty}
    (h : s.HaveTypes es ts) : ∀ t ∈ ts, t.Declared := by
  induction es generalizing ts with
  | nil =>
    cases h
    simp
  | cons e es ih =>
    cases h with
    | cons he _ hes => exact List.forall_mem_cons.2 ⟨(he.declared hs).1, ih hes⟩

theorem HaveTypes.hasType {s : Scope} {es : List Expr} {ts : List Ty} (h : s.HaveTypes es ts) {t : Ty}
    (hts : ∀ u ∈ ts, u = t) : ∀ e ∈ es, s.HasType e t := by
  match h with
  | .nil => simp
  | .cons he _ hes =>
    obtain ⟨rfl, hts⟩ := List.forall_mem_cons.1 hts
    exact List.forall_mem_cons.2 ⟨he, hes.hasType hts⟩

theorem HaveTypes.drop {s : Scope} {es : List Expr} {ts : List Ty} (h : s.HaveTypes es ts)
    (k : Nat) : s.HaveTypes (es.drop k) (ts.drop k) := by
  induction k generalizing es ts with
  | zero => exact h
  | succ k ih =>
    cases h with
    | nil => exact .nil
    | cons _ _ hes => exact ih hes

theorem HasType.stripParens {s : Scope} {e : Expr} {t : Ty} (h : s.HasType e t) :
    s.HasType e.stripParens t := by
  induction e using Expr.stripParens.induct with
  | case1 e ih =>
    cases h with
    | paren he => exact ih he
  | case2 e hn =>
    rw [Expr.stripParens]
    · exact h
    · exact hn

theorem HasType.shape_of_isVoid {s : Scope} (hs : s.Closed) {e : Expr} {t : Ty} (h : s.HasType e t)
    (hvoid : t.isVoid = true) :
    (∃ r m as p, e.stripParens = .call r m as p) ∨ ∃ u size p, e.stripParens = .newArray u size p := by
  match h with
  | .paren he => exact he.shape_of_isVoid hs hvoid
  | .call .. => exact .inl ⟨_, _, _, _, rfl⟩
  | .newArray .. => exact .inr ⟨_, _, _, rfl⟩
  | .literal (v := v) => cases v <;> simp [Literal.ty, Ty.isVoid, Ty.int, Ty.boolean] at hvoid
  | .name hb _ => simp [(hs.lookup_admits hb).isVoid] at hvoid
  | .this _ | .newObject => simp [Symbols.ownTy, Ty.isVoid, Ty.named] at hvoid
  | .binary .. =>
    unfold BinaryOp.resultTy at hvoid
    split at hvoid <;> simp [Ty.isVoid, Ty.int, Ty.boolean] at hvoid
  | .unary _ => simp [(UnaryOp.scalar_ty _).2] at hvoid
  | .index _ _ _ hv => simp [hv] at hvoid
  | .length .. => simp [Ty.isVoid, Ty.int] at hvoid
  | .arrayInit hes hne hts _ =>
    cases hes with
    | nil => exact absurd rfl hne
    | cons _ hv _ =>
      rw [← hts _ List.mem_cons_self] at hvoid
      exact absurd (hvoid.symm.trans hv) (by decide)

end Scope

end SingleClass
