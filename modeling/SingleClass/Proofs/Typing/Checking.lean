import SingleClass.Analysis.Program
import SingleClass.Proofs.Typing.Declarations
import SingleClass.Proofs.Typing.Judgement
import SingleClass.Source.Walk
set_option autoImplicit false

/-!
A program without findings is typed: what the review of declarations and the checking of bodies leave
unreported is what the judgement asks.
-/

namespace SingleClass

theorem Symbol.declared_ofDecl (v : VarDecl) : (Symbol.ofDecl v).ty.Declared :=
  Ty.declared_ofName v.type

theorem Symbols.admits_of_review {S : Symbols} {scope : DeclScope} {vs : List VarDecl}
    (h : S.reviewVars scope [] (vs.map .ofDecl) = []) : ∀ v ∈ vs.map .ofDecl, S.Admits v := by
  intro v hv
  have hty := ((S.reviewVars_eq_nil_iff scope [] _).1 h).2 v hv
  obtain ⟨hvoid, hknown⟩ := (S.reviewVarTy_eq_nil_iff v).1 hty
  obtain ⟨d, _, rfl⟩ := List.mem_map.1 hv
  exact ⟨Symbol.declared_ofDecl d, hvoid, hknown⟩

theorem Symbols.admitsMethod_of_review {S : Symbols} {span : Span} {d : MethodDecl}
    (h : S.reviewMethod span (.ofDecl d) = []) : S.AdmitsMethod (.ofDecl d) := by
  simp only [Symbols.reviewMethod, List.append_eq_nil_iff] at h
  obtain ⟨⟨⟨⟨hret, hparams⟩, hlocals⟩, _⟩, _⟩ := h
  refine ⟨admits_of_review hparams, admits_of_review hlocals, Ty.declared_ofName d.returns, ?_⟩
  simpa using hret

theorem Symbols.admitsMethods_of_review {S : Symbols} {seen : List String} {ds : List MethodDecl}
    (h : S.reviewMethods seen (ds.zip (ds.map .ofDecl)) = []) :
    ∀ m ∈ ds.map .ofDecl, S.AdmitsMethod m := by
  intro m hm
  obtain ⟨d, hd, rfl⟩ := List.mem_map.1 hm
  exact admitsMethod_of_review (((S.reviewMethods_eq_nil_iff seen ds).1 h).2 d hd)

/-- A program that stands alone. -/
structure Program.Closed (p : Program) : Prop where
  imports : p.imports = []
  superclass : p.classDecl.superclass = none

theorem Program.Closed.symbols {p : Program} (h : p.Closed)
    (hd : (Symbols.ofProgram p).reviewDeclarations p = []) : (Symbols.ofProgram p).Closed := by
  simp only [Symbols.reviewDeclarations, List.append_eq_nil_iff] at hd
  obtain ⟨⟨_, hfields⟩, hmethods⟩ := hd
  exact ⟨h.imports, h.superclass, Symbols.admits_of_review hfields,
    Symbols.admitsMethods_of_review hmethods⟩

theorem Checked.ofRule_eq {span : Span} {r : Except TypeError Ty}
    (h : (Checked.ofRule span r).found = []) : r = .ok (Checked.ofRule span r).value := by
  cases r with
  | ok t => rfl
  | error e => simp [Checked.ofRule] at h

theorem Checked.asValue_eq {x : Checked Ty} {e : Expr} (h : (x.asValue e).found = []) :
    x.found = [] ∧ x.value.isVoid = false ∧ (x.asValue e).value = x.value := by
  simp only [Checked.asValue, Checked.found_bind, List.append_eq_nil_iff] at h
  obtain ⟨hx, hv⟩ := h
  cases hvoid : x.value.isVoid with
  | true => simp [Typing.value, hvoid, Checked.ofRule] at hv
  | false =>
    refine ⟨hx, rfl, ?_⟩
    simp [Checked.asValue, Typing.value, hvoid, Checked.ofRule]

theorem Scope.found_checkValues_cons {s : Scope} {e : Expr} {es : List Expr} :
    (s.checkValues (e :: es)).found = [] ↔
      (s.checkValue e).found = [] ∧ (s.checkValues es).found = [] := by
  simp only [checkValues, checkValue, Checked.found_bind, Checked.found_pure, List.append_nil,
    List.append_eq_nil_iff]

theorem Scope.value_checkValues_cons (s : Scope) (e : Expr) (es : List Expr) :
    (s.checkValues (e :: es)).value =
      { span := e.span, ty := (s.checkValue e).value } :: (s.checkValues es).value := by
  simp only [checkValues, checkValue, Checked.value_bind, Checked.value_pure]

theorem Checked.eq_false_of_unreported {A : Type} {b : Bool} {span : Span} {problem : Problem}
    {rest : Checked A}
    (h : (if b = true then Checked.report span problem >>= fun _ => rest else rest).found = []) :
    b = false := by
  cases b with
  | false => rfl
  | true => simp [Checked.report] at h

theorem Ty.isInt_of_unreported {t : Ty} (ht : t.Declared) (h : (!(t.isInt || t.isEscape)) = false) :
    t.isInt = true := by
  simpa [ht.isEscape] using h

theorem Typing.takes_of_binary {op : BinaryOp} {l r t : Ty} (hl : l.Declared) (hr : r.Declared)
    (hlv : l.isVoid = false) (h : Typing.binary op l r = .ok t) :
    t = op.resultTy ∧ r.asValue = l.asValue ∧ op.Takes l.asValue := by
  simp only [Typing.binary, hl.isEscape, hr.isEscape, Bool.or_self, Bool.false_eq_true,
    if_false] at h
  split at h
  · simp at h
  · rename_i harray
    simp only [Bool.or_eq_true, not_or, Bool.not_eq_true] at harray
    split at h
    · rename_i hop
      refine ⟨(Except.ok.inj h).symm, ?_⟩
      unfold BinaryOp.accepts at hop
      unfold BinaryOp.Takes
      cases hfamily : op.family with
      | arithmetic | ordering =>
        simp only [hfamily, Bool.and_eq_true] at hop
        simp [Ty.asValue_of_isInt hop.1, Ty.asValue_of_isInt hop.2]
      | logical =>
        simp only [hfamily, Bool.and_eq_true] at hop
        simp [Ty.asValue_of_isBoolean hop.1, Ty.asValue_of_isBoolean hop.2]
      | equality =>
        have heq : l = r := by simpa [hfamily] using hop
        subst heq
        exact ⟨rfl, harray.1, hlv⟩
    · simp at h

theorem Typing.unary_eq {op : UnaryOp} {t t' : Ty} (ht : t.Declared)
    (h : Typing.unary op t = .ok t') : t' = op.ty ∧ t = op.ty := by
  simp only [Typing.unary, ht.isEscape, Bool.false_or, decide_eq_true_eq] at h
  split at h
  · rename_i heq
    exact ⟨(Except.ok.inj h).symm, heq⟩
  · simp at h

theorem Typing.element_eq {t t' : Ty} (ht : t.Declared) (h : Typing.element t = .ok t') :
    t' = t.element ∧ t.isArray = true := by
  unfold Typing.element at h
  split at h
  · rename_i harray
    exact ⟨(Except.ok.inj h).symm, harray⟩
  · simp [ht.isEscape] at h

theorem Typing.length_eq {t t' : Ty} (ht : t.Declared) (h : Typing.length t = .ok t') :
    t' = .int ∧ t.isArray = true := by
  unfold Typing.length at h
  cases he : Typing.element t with
  | error e => simp [he, Except.map] at h
  | ok u =>
    simp only [he, Except.map, Except.ok.injEq] at h
    exact ⟨h.symm, (Typing.element_eq ht he).2⟩

theorem Typing.arrayInit_eq {ts : List Ty} {t : Ty} (hts : ∀ u ∈ ts, u.Declared)
    (h : Typing.arrayInit ts = .ok t) :
    ∃ first, t = first.array ∧ ts ≠ [] ∧ first ∈ ts ∧ first.isArray = false ∧
      ∀ u ∈ ts, u = first := by
  cases ts with
  | nil => simp [Typing.arrayInit] at h
  | cons first rest =>
    have hfirst : (first :: rest).find? (fun u => !u.isEscape) = some first := by
      simp [(hts first (by simp)).isEscape]
    simp only [Typing.arrayInit, hfirst] at h
    split at h
    · simp at h
    · rename_i harray
      split at h
      · simp at h
      · rename_i hnone
        refine ⟨first, (Except.ok.inj h).symm, by simp, by simp, by simpa using harray, ?_⟩
        intro u hu
        have := List.find?_eq_none.1 hnone u hu
        simpa [(hts u hu).isEscape] using this

theorem checkFixed_eq_nil {S : Symbols} (hS : S.Closed) {m : String} {position : Nat}
    {args : List PlacedTy} {params : List Symbol} (hargs : ∀ a ∈ args, a.ty.Declared)
    (hparams : ∀ v ∈ params, S.Admits v) (hlen : params.length ≤ args.length)
    (h : S.checkFixed m position args params = []) :
    (args.map (·.ty.asValue)).take params.length = params.map (·.ty.asValue) := by
  induction params generalizing args position with
  | nil => simp
  | cons v vs ih =>
    cases args with
    | nil => simp at hlen
    | cons a as =>
      simp only [Symbols.checkFixed, List.append_eq_nil_iff] at h
      obtain ⟨ha, has⟩ := h
      have hassign : S.assignable a.ty v.ty.asValue = true := by simpa using ha
      have hv := (hparams v (by simp)).declared
      have heq := (hS.assignable_iff (hargs a (by simp)).isEscape hv.isEscape).1 hassign
      have hrest := ih (fun b hb => hargs b (by simp [hb])) (fun w hw => hparams w (by simp [hw]))
        (by simpa using hlen) has
      simp only [List.map_cons, List.length_cons, List.take_succ_cons, hrest]
      rw [heq]

theorem checkTrailing_eq_nil {S : Symbols} (hS : S.Closed) {m : String} {element : Ty}
    {args : List PlacedTy} (hargs : ∀ a ∈ args, a.ty.Declared) (he : element.isEscape = false)
    (hv : element.element = element) (h : S.checkTrailing m element args = []) :
    args.map (·.ty.asValue) = [element.array] ∨ ∀ t ∈ args.map (·.ty.asValue), t = element := by
  unfold Symbols.checkTrailing at h
  split at h
  · rename_i hp
    left
    rw [← VarargPassing.of_map_asValue, List.map_map] at hp
    exact (VarargPassing.of_eq_array_iff (by simp) hv).1 hp
  · right
    intro t ht
    obtain ⟨a, ha, rfl⟩ := List.mem_map.1 ht
    have hassign : S.assignable a.ty element = true := by
      have := List.filterMap_eq_nil_iff.1 h a ha
      simpa using this
    rw [(hS.assignable_iff (hargs a ha).isEscape he).1 hassign, ← hv]
    rfl

theorem Signature.fixedArity_le_of_admits {c : Signature} {n : Nat}
    (h : c.arity.admits n = true) : c.fixedArity ≤ n := by
  unfold Signature.arity at h
  split at h <;> simp [Arity.admits] at h <;> omega

theorem Signature.takes_of_checkArguments {S : Symbols} (hS : S.Closed) {span : Span} {m : String}
    {c : Signature} (hc : S.AdmitsMethod c) {args : List PlacedTy}
    (hargs : ∀ a ∈ args, a.ty.Declared) (h : S.checkArguments span m c args = []) :
    c.Takes (args.map (·.ty.asValue)) := by
  unfold Symbols.checkArguments at h
  split at h
  · rename_i harity
    obtain ⟨hfixed, htrailing⟩ := List.append_eq_nil_iff.1 h
    have hlen := c.fixedArity_le_of_admits harity
    have htake : (c.params.take c.fixedArity).length = c.fixedArity := by
      simp [c.fixedArity_le]
    refine ⟨by simpa using harity, ?_, ?_⟩
    · have := checkFixed_eq_nil hS hargs
        (fun v hv => hc.params v (List.mem_of_mem_take hv)) (by omega) hfixed
      rwa [htake] at this
    · intro v hv
      have hmem : v ∈ c.params :=
        List.mem_of_getLast? (Option.mem_filter_iff.1 hv).1
      have he : v.ty.element.isEscape = false := (hc.params v hmem).declared.isEscape
      rw [Option.mem_def.1 hv] at htrailing
      have := checkTrailing_eq_nil hS (fun a ha => hargs a (List.mem_of_mem_drop ha)) he rfl
        htrailing
      simpa only [List.map_drop] using this
  · simp at h

namespace Scope

/-! ### An expression without findings has a type -/

def Typed (s : Scope) (e : Expr) : Prop :=
  (s.check e).found = [] → s.HasType e (s.check e).value.asValue ∧ (s.check e).value.Declared

theorem Typed.value {s : Scope} {e : Expr} (h : s.Typed e)
    (hc : ((s.check e).asValue e).found = []) :
    s.HasType e ((s.check e).asValue e).value.asValue ∧
      ((s.check e).asValue e).value.Declared ∧ ((s.check e).asValue e).value.isVoid = false := by
  obtain ⟨hfound, hvoid, hvalue⟩ := Checked.asValue_eq hc
  rw [hvalue]
  exact ⟨(h hfound).1, (h hfound).2, hvoid⟩

theorem typed_name {s : Scope} (hs : s.Closed) (n : String) (p : Span) : s.Typed (.name n p) := by
  intro h
  simp only [check, checkName] at h ⊢
  have himport : s.symbols.isImported n = false := by
    simp [Symbols.isImported, Symbols.import?, findImport, hs.symbols.imports]
  cases hb : s.lookup n with
  | none =>
    simp only [hb] at h
    have := Checked.ofRule_eq h
    simp only [nameTy, hb, himport, Bool.false_eq_true, if_false] at this
    split at this <;> simp at this
  | some b =>
    have hadmits := hs.lookup_admits hb
    have hname : s.nameTy n = .ok b.symbol.ty.asValue := by simp [nameTy, hb]
    have hdeclared := Ty.declared_asValue hadmits.declared.isEscape
    cases b with
    | field f =>
      cases hstatic : s.method.isStatic with
      | true => simp [hb, hstatic, Checked.report] at h
      | false =>
        simp only [Bool.false_eq_true, if_false, hname, Checked.ofRule]
        exact ⟨.name hb fun _ => hstatic, hdeclared⟩
    | localVar v | param v =>
      simp only [hname, Checked.ofRule]
      exact ⟨.name hb (by simp [Binding.isField]), hdeclared⟩

theorem typed_ownCall {s : Scope} (hs : s.Closed) {t : Option Expr} {m : String} {as : List Expr}
    {p : Span} {args : List PlacedTy} (ht : s.Receives t)
    (has : s.HaveTypes as (args.map (·.ty.asValue))) (hargs : ∀ a ∈ args, a.ty.Declared)
    (h : (s.symbols.checkOwnCall p m args).found = []) :
    s.HasType (.call t m as p) (s.symbols.checkOwnCall p m args).value.asValue ∧
      (s.symbols.checkOwnCall p m args).value.Declared := by
  unfold Symbols.checkOwnCall at h ⊢
  cases hm : s.symbols.method? m with
  | none => simp [hm, hs.symbols.superclass, Checked.report] at h
  | some c =>
    have hc := hs.symbols.methods c (Symbols.Closed.method_mem hm)
    simp only [hm, Checked.found_bind, Checked.reportAll, Checked.found_pure,
      List.append_nil] at h
    simp only [Checked.value_bind, Checked.value_pure]
    exact ⟨.call ht hm has (Signature.takes_of_checkArguments hs.symbols hc hargs h), hc.returnTy⟩

theorem typed_arrayInit {s : Scope} {es : List Expr} {p q : Span} {args : List PlacedTy}
    (hes : s.HaveTypes es (args.map (·.ty.asValue))) (hargs : ∀ a ∈ args, a.ty.Declared)
    (h : (Checked.ofRule q (Typing.arrayInit (args.map (·.ty)))).found = []) :
    s.HasType (.arrayInit es p) (Checked.ofRule q (Typing.arrayInit (args.map (·.ty)))).value.asValue ∧
      (Checked.ofRule q (Typing.arrayInit (args.map (·.ty)))).value.Declared := by
  have hall : ∀ u ∈ args.map (·.ty), u.Declared := by
    intro u hu
    obtain ⟨a, ha, rfl⟩ := List.mem_map.1 hu
    exact hargs a ha
  obtain ⟨first, hres, hne, hmem, harray, hsame⟩ := Typing.arrayInit_eq hall (Checked.ofRule_eq h)
  rw [hres]
  have hfirst := hall first hmem
  have hvalue : first.asValue = first := hfirst.asValue_eq harray
  refine ⟨?_, ⟨hfirst.isEscape, fun _ => rfl⟩⟩
  have : first.array.asValue = first.asValue.array := rfl
  rw [this, hvalue]
  refine .arrayInit hes (by simpa using hne) ?_ harray
  intro u hu
  obtain ⟨a, ha, rfl⟩ := List.mem_map.1 hu
  rw [hsame a.ty (List.mem_map.2 ⟨a, ha, rfl⟩), hvalue]

mutual

theorem typed {s : Scope} (hs : s.Closed) : ∀ e : Expr, s.Typed e
  | .literal v p => by
    intro _
    simp only [check, Checked.value_pure]
    rw [v.asValue_ty]
    exact ⟨.literal, v.declared_ty⟩
  | .name n p => typed_name hs n p
  | .this p => by
    intro h
    simp only [check] at h ⊢
    cases hstatic : s.method.isStatic with
    | true => simp [thisTy, hstatic, Checked.ofRule] at h
    | false =>
      simp only [thisTy, hstatic, Bool.false_eq_true, if_false, Checked.ofRule]
      exact ⟨.this hstatic, Ty.declared_of_kind rfl⟩
  | .binary op l r p => by
    intro h
    simp only [check, Checked.found_bind, Checked.value_bind, List.append_eq_nil_iff] at h ⊢
    obtain ⟨hl, hr, hop⟩ := h
    obtain ⟨hlt, hld, hlv⟩ := (typed hs l).value hl
    obtain ⟨hrt, hrd, _⟩ := (typed hs r).value hr
    obtain ⟨hres, heq, htakes⟩ := Typing.takes_of_binary hld hrd hlv (Checked.ofRule_eq hop)
    rw [heq] at hrt
    rw [hres, BinaryOp.asValue_resultTy]
    exact ⟨.binary htakes hlt hrt, BinaryOp.declared_resultTy op⟩
  | .unary op e p => by
    intro h
    simp only [check, Checked.found_bind, Checked.value_bind, List.append_eq_nil_iff] at h ⊢
    obtain ⟨he, hop⟩ := h
    obtain ⟨het, hed, _⟩ := (typed hs e).value he
    obtain ⟨hres, heq⟩ := Typing.unary_eq hed (Checked.ofRule_eq hop)
    rw [heq, UnaryOp.asValue_ty] at het
    rw [hres, UnaryOp.asValue_ty]
    exact ⟨.unary het, UnaryOp.declared_ty op⟩
  | .paren e => by
    intro h
    simp only [check] at h ⊢
    exact ⟨.paren (typed hs e h).1, (typed hs e h).2⟩
  | .index a i p => by
    intro h
    simp only [check, Checked.found_bind, Checked.value_bind, List.append_eq_nil_iff] at h ⊢
    obtain ⟨ha, hi, hrest⟩ := h
    obtain ⟨hat, had, hav⟩ := (typed hs a).value ha
    obtain ⟨hit, hid, _⟩ := (typed hs i).value hi
    have hint := Checked.eq_false_of_unreported hrest
    simp only [hint, Bool.false_eq_true, if_false] at hrest ⊢
    obtain ⟨hres, harray⟩ := Typing.element_eq had (Checked.ofRule_eq hrest)
    rw [hres]
    rw [Ty.asValue_of_isInt (Ty.isInt_of_unreported hid hint)] at hit
    exact ⟨.index (t := ((s.check a).asValue a).value.asValue) hat hit harray hav,
      Ty.declared_element had.isEscape⟩
  | .length a p => by
    intro h
    simp only [check, Checked.found_bind, Checked.value_bind, List.append_eq_nil_iff] at h ⊢
    obtain ⟨ha, hlength⟩ := h
    obtain ⟨hat, had, hav⟩ := (typed hs a).value ha
    obtain ⟨hres, harray⟩ := Typing.length_eq had (Checked.ofRule_eq hlength)
    rw [hres]
    exact ⟨.length hat harray hav, Ty.declared_of_kind rfl⟩
  | .call none m as p => by
    intro h
    simp only [check] at h ⊢
    cases hstatic : s.method.isStatic with
    | true => simp [hstatic, Checked.report] at h
    | false =>
      simp only [hstatic, Bool.false_eq_true, if_false, Checked.found_bind, Checked.value_bind,
        List.append_eq_nil_iff] at h ⊢
      obtain ⟨has, hcall⟩ := h
      obtain ⟨hts, hargs⟩ := typed_all hs as has
      exact typed_ownCall hs (.implicit hstatic) hts hargs hcall
  | .call (some t) m as p => by
    intro h
    simp only [check, hs.staticReceiver?_eq, Option.isSome_none, Bool.false_eq_true, if_false,
      Checked.found_bind, Checked.value_bind, List.append_eq_nil_iff] at h ⊢
    obtain ⟨ht, has, hcall⟩ := h
    obtain ⟨htt, htd, _⟩ := (typed hs t).value ht
    obtain ⟨hts, hargs⟩ := typed_all hs as has
    simp only [Symbols.checkCallOn, htd.isEscape, hs.symbols.isExternal_of_declared htd.isEscape,
      Bool.or_self, Bool.false_eq_true, if_false] at hcall ⊢
    by_cases hown : ((s.check t).asValue t).value.isArray = true ∨
        ((s.check t).asValue t).value.kind ≠ .named s.symbols.className
    · simp [hown, Checked.report] at hcall
    · simp only [Bool.or_eq_true, decide_eq_true_eq, hown, if_false] at hcall ⊢
      simp only [not_or, Bool.not_eq_true, ne_eq, Decidable.not_not] at hown
      rw [Ty.asValue_of_kind hown.2 hown.1] at htt
      exact typed_ownCall hs (.explicit htt) hts hargs hcall
  | .newObject c p => by
    intro h
    simp only [check] at h ⊢
    have hknown := Checked.eq_false_of_unreported h
    simp only [hknown, Bool.false_eq_true, if_false, Checked.value_pure]
    have hc : c = s.symbols.className :=
      hs.symbols.eq_className_of_isKnown (t := .named c) rfl (by simpa using hknown)
    subst hc
    exact ⟨.newObject, Ty.declared_of_kind rfl⟩
  | .newArray t e p => by
    intro h
    simp only [check, Checked.found_bind, Checked.value_bind, List.append_eq_nil_iff] at h ⊢
    obtain ⟨he, hrest⟩ := h
    obtain ⟨het, hed, _⟩ := (typed hs e).value he
    have hint := Checked.eq_false_of_unreported hrest
    simp only [hint, Bool.false_eq_true, if_false] at hrest ⊢
    have hknown := Checked.eq_false_of_unreported hrest
    simp only [hknown, Bool.false_eq_true, if_false, Checked.value_pure]
    rw [Ty.asValue_of_isInt (Ty.isInt_of_unreported hed hint)] at het
    exact ⟨.newArray het (by simpa using hknown), ⟨Ty.isEscape_kindOfName t.name, fun _ => rfl⟩⟩
  | .arrayInit es p => by
    intro h
    simp only [check, Checked.found_bind, Checked.value_bind, List.append_eq_nil_iff] at h ⊢
    obtain ⟨hes, hinit⟩ := h
    obtain ⟨hts, hdeclared⟩ := typed_all hs es hes
    exact typed_arrayInit hts hdeclared hinit

theorem typed_all {s : Scope} (hs : s.Closed) : ∀ es : List Expr, (s.checkValues es).found = [] →
    s.HaveTypes es ((s.checkValues es).value.map (·.ty.asValue)) ∧
      ∀ a ∈ (s.checkValues es).value, a.ty.Declared
  | [], _ => ⟨.nil, by simp [checkValues]⟩
  | e :: es, h => by
    obtain ⟨he, hes⟩ := found_checkValues_cons.1 h
    rw [value_checkValues_cons]
    obtain ⟨het, hed, hev⟩ := (typed hs e).value he
    obtain ⟨hts, hdeclared⟩ := typed_all hs es hes
    refine ⟨.cons het hev hts, ?_⟩
    intro a ha
    rcases List.mem_cons.1 ha with rfl | ha
    · exact hed
    · exact hdeclared a ha

end

theorem hasType_of_checkValue {s : Scope} (hs : s.Closed) {e : Expr}
    (h : (s.checkValue e).found = []) :
    s.HasType e (s.checkValue e).value.asValue ∧ (s.checkValue e).value.Declared ∧
      (s.checkValue e).value.isVoid = false :=
  (typed hs e).value h

theorem hasType_of_checkCondition {s : Scope} (hs : s.Closed) {e : Expr}
    (h : (s.checkCondition e).found = []) : s.HasType e .boolean := by
  simp only [checkCondition, Checked.found_bind, List.append_eq_nil_iff] at h
  obtain ⟨he, hb⟩ := h
  obtain ⟨het, hed, _⟩ := hasType_of_checkValue hs he
  have hbool : (s.checkValue e).value.isBoolean = true := by
    cases hn : (s.checkValue e).value.isBoolean with
    | true => rfl
    | false => simp [hn, hed.isEscape, Checked.report] at hb
  rwa [Ty.asValue_of_isBoolean hbool] at het

theorem hasType_of_checkTarget {s : Scope} (hs : s.Closed) {e : Expr}
    (h : (s.checkTarget e).found = []) :
    IsPlace e ∧ s.HasType e (s.checkTarget e).value.asValue ∧ (s.checkTarget e).value.Declared ∧
      (s.checkTarget e).value.isVoid = false := by
  cases e with
  | name n p =>
    simp only [checkTarget] at h ⊢
    cases hb : s.lookup n with
    | none =>
      simp only [hb] at h
      split at h <;> simp [Checked.report] at h
    | some b =>
      cases hf : b.isField && s.method.isStatic with
      | true => simp [hb, hf, Checked.report] at h
      | false =>
        simp only [hf, Bool.false_eq_true, if_false, Checked.value_pure]
        have hadmits := hs.lookup_admits hb
        refine ⟨trivial, .name hb ?_, Ty.declared_asValue hadmits.declared.isEscape, hadmits.isVoid⟩
        intro hfield
        simpa [hfield] using hf
  | index a i p =>
    obtain ⟨ht, hd, hv⟩ := hasType_of_checkValue hs h
    exact ⟨trivial, ht, hd, hv⟩
  | _ => simp [checkTarget, Checked.report] at h

theorem accepts_of_checkReturn {s : Scope} (hs : s.Closed) {v : Option Expr} {p : Span}
    (h : (s.checkReturn v p).found = []) : s.Accepts (.ret v p) := by
  cases v with
  | none =>
    simp only [checkReturn] at h
    cases hv : s.method.returnTy.isVoid with
    | true => exact hv
    | false => simp [hv, Checked.report] at h
  | some e =>
    simp only [checkReturn] at h
    cases hv : s.method.returnTy.isVoid with
    | true => simp [hv, Checked.report] at h
    | false =>
      simp only [hv, Bool.false_eq_true, if_false, Checked.found_bind,
        List.append_eq_nil_iff] at h
      obtain ⟨he, hassign⟩ := h
      obtain ⟨het, hed, _⟩ := hasType_of_checkValue hs he
      have : s.symbols.assignable (s.checkValue e).value s.method.returnTy = true := by
        cases ha : s.symbols.assignable (s.checkValue e).value s.method.returnTy with
        | true => rfl
        | false => simp [ha, Checked.report] at hassign
      rw [(hs.symbols.assignable_iff hed.isEscape hs.method.returnTy.isEscape).1 this] at het
      exact ⟨hv, het⟩

mutual

theorem accepts_of_checkStmt {s : Scope} (hs : s.Closed) : ∀ t : Stmt,
    (s.checkStmt t).found = [] → s.Accepts t
  | .block b p, h => accepts_of_checkBody hs b h
  | .cond c t none p, h => by
    simp only [checkStmt, Checked.found_bind, List.append_eq_nil_iff] at h
    exact ⟨hasType_of_checkCondition hs h.1, accepts_of_checkStmt hs t h.2⟩
  | .cond c t (some e) p, h => by
    simp only [checkStmt, Checked.found_bind, List.append_eq_nil_iff] at h
    exact ⟨hasType_of_checkCondition hs h.1, accepts_of_checkStmt hs t h.2.1,
      accepts_of_checkStmt hs e h.2.2⟩
  | .loop c b p, h => by
    simp only [checkStmt, Checked.found_bind, List.append_eq_nil_iff] at h
    exact ⟨hasType_of_checkCondition hs h.1, accepts_of_checkStmt hs b h.2⟩
  | .expr e p, h => by
    simp only [checkStmt, Checked.found_bind, Checked.found_pure, List.append_nil] at h
    exact ⟨_, (typed hs e h).1⟩
  | .assign target value p, h => by
    simp only [checkStmt, Checked.found_bind, List.append_eq_nil_iff] at h
    obtain ⟨ht, hv, hassign⟩ := h
    obtain ⟨hplace, htt, htd, htv⟩ := hasType_of_checkTarget hs ht
    obtain ⟨hvt, hvd, _⟩ := hasType_of_checkValue hs hv
    have : s.symbols.assignable (s.checkValue value).value (s.checkTarget target).value = true := by
      cases ha : s.symbols.assignable (s.checkValue value).value (s.checkTarget target).value with
      | true => rfl
      | false => simp [ha, Checked.report] at hassign
    rw [(hs.symbols.assignable_iff hvd.isEscape htd.isEscape).1 this] at hvt
    exact ⟨hplace, (s.checkTarget target).value.asValue, htv, htt, hvt⟩
  | .ret v p, h => accepts_of_checkReturn hs h

theorem accepts_of_checkBody {s : Scope} (hs : s.Closed) : ∀ ts : List Stmt,
    (s.checkBody ts).found = [] → s.AcceptsAll ts
  | [], _ => trivial
  | t :: ts, h => by
    simp only [checkBody, Checked.found_bind, List.append_eq_nil_iff] at h
    exact ⟨accepts_of_checkStmt hs t h.1, accepts_of_checkBody hs ts h.2⟩

end

end Scope

def Program.scopeOf (p : Program) (d : MethodDecl) : Scope :=
  { symbols := .ofProgram p, method := .ofDecl d }

/-- A method without findings: its body is typed, and it returns where it owes a value. -/
structure Scope.Sound (s : Scope) (body : List Stmt) : Prop where
  closed : s.Closed
  accepts : s.AcceptsAll body
  returns : s.method.returnTy.isVoid = true ∨ Stmt.anyReturns body = true

theorem Program.paired_ofProgram (p : Program) :
    p.paired (.ofProgram p) = p.classDecl.methods.map fun d => (d, Signature.ofDecl d) := by
  unfold Program.paired Symbols.ofProgram
  induction p.classDecl.methods with
  | nil => rfl
  | cons d ds ih => simp [ih]

theorem Program.mem_paired_ofProgram {p : Program} {d : MethodDecl}
    (hd : d ∈ p.classDecl.methods) : (d, Signature.ofDecl d) ∈ p.paired (.ofProgram p) := by
  rw [p.paired_ofProgram]
  exact List.mem_map.2 ⟨d, hd, rfl⟩

theorem Program.checkBody_eq_nil {p : Program} (h : p.analyze.diagnostics = []) {d : MethodDecl}
    (hd : d ∈ p.classDecl.methods) : ((p.scopeOf d).checkBody d.body).found = [] := by
  simp only [Program.analyze, Analysis.diagnostics, List.append_eq_nil_iff] at h
  exact List.flatten_eq_nil_iff.1 h.1.2 _ (List.mem_map.2 ⟨_, mem_paired_ofProgram hd, rfl⟩)

theorem Program.Closed.sound {p : Program} (hp : p.Closed) (h : p.analyze.diagnostics = [])
    {d : MethodDecl} (hd : d ∈ p.classDecl.methods) : (p.scopeOf d).Sound d.body := by
  have hbody := Program.checkBody_eq_nil h hd
  simp only [Program.analyze, Analysis.diagnostics, List.append_eq_nil_iff] at h
  obtain ⟨⟨hdecl, _⟩, hreturns⟩ := h
  have hsymbols := hp.symbols hdecl
  have hclosed : (p.scopeOf d).Closed :=
    ⟨hsymbols, hsymbols.methods _ (List.mem_map.2 ⟨d, hd, rfl⟩)⟩
  refine ⟨hclosed, Scope.accepts_of_checkBody hclosed d.body hbody, ?_⟩
  have := List.flatMap_eq_nil_iff.1 hreturns _ (mem_paired_ofProgram hd)
  simp only [MethodDecl.reviewReturns] at this
  split at this
  · rename_i hr
    exact Bool.or_eq_true_iff.1 hr
  · simp at this

/-- Arguments and initial values fit an array, and the elements of an array are not void. -/
def Expr.inLimits : Expr → Bool
  | .call _ _ as _ => as.length < 2147483648
  | .arrayInit es _ => es.length < 2147483648
  | .newArray t _ _ => !(Ty.ofName t).isVoid
  | _ => true

def Node.inLimits : Node → Bool
  | .method d => !((Ty.ofName d.returns).isVoid && (Ty.ofName d.returns).isArray)
  | .expr e => e.inLimits
  | _ => true

theorem Expr.inLimits_call {t : Option Expr} {m : String} {as : List Expr} {p : Span}
    (h : ∀ n ∈ (Expr.call t m as p).nodes, n.inLimits = true) :
    as.length < 2147483648 ∧ (∀ e ∈ t, ∀ n ∈ e.nodes, n.inLimits = true) ∧
      ∀ n ∈ Expr.nodesOf as, n.inLimits = true := by
  have hlen := h (.expr (.call t m as p)) (by cases t <;> simp [Expr.nodes])
  refine ⟨by simpa [Node.inLimits, Expr.inLimits] using hlen, ?_, ?_⟩
  · intro e he n hn
    obtain rfl := Option.mem_def.1 he
    exact h n (by simp [Expr.nodes, hn])
  · intro n hn
    exact h n (by cases t <;> simp [Expr.nodes, hn])

/-- A typed body in its limits: what lowering and assembly can go by. -/
structure Scope.Ready (s : Scope) (body : List Stmt) : Prop where
  closed : s.Closed
  accepts : s.AcceptsAll body
  limits : ∀ n ∈ Stmt.nodesOf body, n.inLimits = true

theorem Program.Closed.ready {p : Program} (hp : p.Closed) (h : p.analyze.diagnostics = [])
    (hn : ∀ n ∈ p.nodes, n.inLimits = true) {d : MethodDecl} (hd : d ∈ p.classDecl.methods) :
    (p.scopeOf d).Ready d.body := by
  have hs := hp.sound h hd
  refine ⟨hs.closed, hs.accepts, fun n hmem => hn n ?_⟩
  refine List.mem_append_right _ (List.mem_flatMap.2 ⟨d, hd, List.mem_cons_of_mem _ hmem⟩)

/-- `class Sum { int total; int add(int... xs) { … } boolean reaches(int limit) { … } }`, where `add`
adds up its arguments in a loop and `reaches` calls it on a fresh object. -/
def Program.sum : Program :=
  let var (n : String) : Expr := .name n {}
  let int (n : Int32) : Expr := .literal (.int n) {}
  let assign (n : String) (e : Expr) : Stmt := .assign (var n) e {}
  { classDecl := {
      name := "Sum"
      fields := [{ type := { name := "int" }, name := "total" }]
      methods := [
        { name := "add", returns := { name := "int" }
          params := [{ type := { name := "int", isArray := true, isVararg := true }, name := "xs" }]
          locals := [{ type := { name := "int" }, name := "i" }]
          body := [
            assign "i" (int 0),
            .loop (.binary .lt (var "i") (.length (var "xs") {}) {}) (.block [
              assign "total" (.binary .add (var "total") (.index (var "xs") (var "i") {}) {}),
              assign "i" (.binary .add (var "i") (int 1) {})] {}) {},
            .ret (some (var "total")) {}] },
        { name := "reaches", returns := { name := "boolean" }
          params := [{ type := { name := "int" }, name := "limit" }]
          locals := [{ type := { name := "Sum" }, name := "sum" }]
          body := [
            assign "sum" (.newObject "Sum" {}),
            .cond (.unary .not (.binary .lt (.call (some (var "sum")) "add" [int 1, var "limit"] {})
              (var "limit") {}) {}) (.ret (some (.literal (.bool true) {})) {}) none {},
            .expr (.call none "add" [.arrayInit [var "limit"] {}] {}) {},
            .ret (some (.literal (.bool false) {})) {}] }] } }

theorem Program.closed_sum : Program.sum.Closed := ⟨rfl, rfl⟩

theorem Program.analyze_sum : Program.sum.analyze.diagnostics = [] := by
  decide +kernel

end SingleClass
