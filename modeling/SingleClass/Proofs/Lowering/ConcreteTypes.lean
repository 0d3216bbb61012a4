import SingleClass.Proofs.Lowering.Emission
import SingleClass.Proofs.Lowering.SingleAssignment
set_option autoImplicit false

/-!
Three-address code knows the types it is about. Escape types take part in the choice of code, as hints,
but an expectation never holds one (`Expectation.Concrete`), and so no type in the code is one
(`Scope.Issues.concrete`).
-/

namespace SingleClass

def Dest.tys : Dest → List Ty
  | .var _ t => [t]
  | .temp t => [t.ty]
  | .element array index => [array.ty, index.ty]

def Call.tys (c : Call) : List Ty :=
  c.dest.toList.map (·.ty) ++ c.receiver.toList.map (·.ty) ++ c.args.map (·.ty) ++ c.params ++ [c.ret]

def Instr.tys : Instr → List Ty
  | .assign d v => d.tys ++ [v.ty]
  | .binary d _ l r => [d.ty, l.ty, r.ty]
  | .unary d _ v => [d.ty, v.ty]
  | .call c => c.tys
  | .new d _ => [d.ty]
  | .newArray d element size => [d.ty, element, size.ty]
  | .arrayLoad d array index => [d.ty, array.ty, index.ty]
  | .arrayLength d array => [d.ty, array.ty]
  | .getField d _ t => [d.ty, t]
  | .putField _ t v => [t, v.ty]
  | .ret v => v.toList.map (·.ty)
  | .branch condition _ => [condition.ty]
  | .goto _ | .label _ => []

def MethodCode.tys (m : MethodCode) : List Ty :=
  m.paramTys ++ m.locals.map (·.ty) ++ m.returnTy :: m.instrs.flatMap Instr.tys

def ClassCode.tys (c : ClassCode) : List Ty := c.fields.map (·.ty) ++ c.methods.flatMap (·.tys)

/-- No instruction names an escape. -/
def ConcreteCode (code : List Instr) : Prop := ∀ i ∈ code, Ty.AllConcrete i.tys

@[simp] theorem Operand.ty_int (v : Int32) : (Operand.int v).ty = .int := rfl
@[simp] theorem Operand.ty_temp (t : Temp) : (Operand.temp t).ty = t.ty := rfl
@[simp] theorem Ty.isEscape_int : Ty.int.isEscape = false := rfl
@[simp] theorem Ty.isEscape_void : Ty.void.isEscape = false := rfl
@[simp] theorem Ty.isEscape_named (c : String) : (Ty.named c).isEscape = false := rfl

theorem BoundCall.isEscape_ret {callee : Option Signature} (hc : ∀ c ∈ callee, c.Concrete)
    {want : Expectation} (hw : want.Concrete) (fs : List Fragment) :
    (BoundCall.of callee want fs).ret.isEscape = false := by
  cases callee with
  | none => exact hw.foreignTy
  | some c => exact (hc c rfl).returnTy

theorem BoundCall.allConcrete_params {callee : Option Signature} (hc : ∀ c ∈ callee, c.Concrete)
    (want : Expectation) {fs : List Fragment} (hfs : ∀ f ∈ fs, f.operand.ty.isEscape = false) :
    Ty.AllConcrete (BoundCall.of callee want fs).params := by
  cases callee with
  | none =>
    intro t ht
    obtain ⟨f, hf, rfl⟩ := List.mem_map.1 ht
    exact hfs f hf
  | some c => exact (hc c rfl).params

namespace Scope

variable {s : Scope}

theorem LowersCall.isEscape_dest (hs : s.Concrete) {t : Option Expr} {m : String} {as : List Expr}
    {p : Span} {want : Expectation} {σ σ' : Supply} {code : List Instr} {dest : Option Temp}
    (h : s.LowersCall t m as p want σ code dest σ') (hw : want.Concrete) :
    ∀ d ∈ dest, d.ty.isEscape = false := by
  cases h with
  | mk hsite _ hbound =>
    intro d hd
    obtain ⟨rfl, _⟩ := Expectation.of_mem_dest hd
    subst hbound
    exact BoundCall.isEscape_ret (hsite.concrete_callee hs) hw _

theorem Packs.isEscape_operand {element : Ty} {es : List Expr} {σ σ' : Supply} {f : Fragment}
    (h : s.Packs element es σ f σ') (he : element.isEscape = false) :
    f.operand.ty.isEscape = false := by
  cases h
  exact he

theorem Lowers.isEscape_operand (hs : s.Concrete) {e : Expr} {want : Expectation} {σ σ' : Supply}
    {f : Fragment} (h : s.Lowers e want σ f σ') (hw : want.Concrete) :
    f.operand.ty.isEscape = false := by
  match h with
  | .literal (v := v) => cases v <;> rfl
  | .var hb _ => exact hs.lookup hb
  | .field hf => exact hs.lookup hf
  | .binary _ _ => exact BinaryOp.isEscape_resultTy _
  | .unary _ => exact UnaryOp.isEscape_ty _
  | .paren he => exact he.isEscape_operand hs hw
  | .index ha _ => exact ha.isEscape_operand hs (concrete_arrayExpectation hw)
  | .call hc => exact hc.isEscape_dest hs hw _ rfl
  | .newArray _ => exact Ty.isEscape_ofName _
  | .arrayInit hp => exact hp.isEscape_operand (isEscape_initElementTy _ hw)
  | .this _ | .length _ | .newObject => rfl

theorem Leaves.isEscape (hs : s.Concrete) {code : List Instr} {want : Expectation} {e : Expr}
    {o : Operand} (h : s.Leaves code want e o) (hw : want.Concrete) : o.ty.isEscape = false := by
  obtain ⟨_, _, _, hl, _, rfl⟩ := h
  exact hl.isEscape_operand hs hw

theorem LowersArgs.isEscape_operand (hs : s.Concrete) {ps : List Passed} {σ σ' : Supply}
    {fs : List Fragment} (h : s.LowersArgs ps σ fs σ') (hps : ∀ p ∈ ps, ConcretePassed p) :
    ∀ f ∈ fs, f.operand.ty.isEscape = false := by
  induction ps generalizing σ fs with
  | nil =>
    cases h
    simp
  | cons p ps ih =>
    obtain ⟨hp, hrest⟩ := List.forall_mem_cons.1 hps
    cases h with
    | direct he hr => exact List.forall_mem_cons.2 ⟨he.isEscape_operand hs hp, ih hr hrest⟩
    | packed hpack hr => exact List.forall_mem_cons.2 ⟨hpack.isEscape_operand hp, ih hr hrest⟩

theorem LowersSite.isEscape_receiver (hs : s.Concrete) {t : Option Expr} {m : String}
    {σ σ' : Supply} {site : CallSite} (h : s.LowersSite t m σ site σ') :
    ∀ o ∈ site.receiver, o.ty.isEscape = false := by
  intro o ho
  cases h with
  | implicit _ =>
    cases ho
    rfl
  | static _ => cases ho
  | receiver _ _ _ ht =>
    cases ho
    exact ht.isEscape_operand hs trivial

theorem Gathers.isEscape (hs : s.Concrete) {n : Node} {element : Ty} {es : List Expr}
    (h : s.Gathers n element es) : element.isEscape = false := by
  cases h with
  | init hw => exact isEscape_initElementTy _ hw
  | vararg hsite hmem => exact concretePassed (hsite.concrete_callee hs) _ _ hmem

theorem Issues.concrete (hs : s.Concrete) {code : List Instr} {n : Node} {i : Instr}
    (h : s.Issues code n i) : Ty.AllConcrete i.tys := by
  cases h with
  | @getField _ _ _ f hf =>
    have hty : f.ty.isEscape = false := hs.lookup hf
    simpa [Ty.AllConcrete, Instr.tys] using hty
  | binary hl hr =>
    have hexpected := s.concrete_operandExpectations
    simp [Ty.AllConcrete, Instr.tys, hl.isEscape hs (hexpected _ _ _).1,
      hr.isEscape hs (hexpected _ _ _).2]
  | unary he => simp [Ty.AllConcrete, Instr.tys, he.isEscape hs (UnaryOp.isEscape_ty _)]
  | arrayLoad hw ha he =>
    have hao := ha.isEscape hs (concrete_arrayExpectation hw)
    simp [Ty.AllConcrete, Instr.tys, hao, he.isEscape hs rfl]
  | arrayLength ha => simp [Ty.AllConcrete, Instr.tys, ha.isEscape hs rfl]
  | @call _ _ as _ _ _ _ _ _ _ fs hw hsite _ hargs _ =>
    have hcallee := hsite.concrete_callee hs
    have hret := BoundCall.isEscape_ret hcallee hw fs
    have hfs := hargs.isEscape_operand hs (concretePassed hcallee as)
    intro t ht
    simp only [Instr.tys, Call.tys, CallSite.instr, BoundCall.args_of, List.map_map, List.mem_append,
      List.mem_map, Option.mem_toList, Function.comp_apply, List.mem_singleton] at ht
    rcases ht with (((⟨d, hd, rfl⟩ | ⟨o, ho, rfl⟩) | ⟨f, hf, rfl⟩) | ht) | rfl
    · obtain ⟨rfl, _⟩ := Expectation.of_mem_dest hd
      exact hret
    · exact hsite.isEscape_receiver hs o ho
    · exact hfs f hf
    · exact BoundCall.allConcrete_params hcallee _ hfs t ht
    · exact hret
  | new => simp [Ty.AllConcrete, Instr.tys]
  | construct _ => simp [Ty.AllConcrete, Instr.tys, Call.tys, constructorCall]
  | @newArray t _ _ _ _ he =>
    simpa [Ty.AllConcrete, Instr.tys, Typing.newArray, he.isEscape hs rfl] using Ty.isEscape_ofName t
  | gather hn => simpa [Ty.AllConcrete, Instr.tys] using hn.isEscape hs
  | store hn _ harray _ ho =>
    have helement := hn.isEscape hs
    simpa [Ty.AllConcrete, Instr.tys, Dest.tys, harray, ho.isEscape hs helement] using helement
  | assignVar hb _ he =>
    simp [Ty.AllConcrete, Instr.tys, Dest.tys, hs.lookup hb,
      he.isEscape hs (Expectation.concrete_of _)]
  | @putField _ _ _ _ f _ hf he =>
    have hty : f.ty.isEscape = false := hs.lookup hf
    simp [Ty.AllConcrete, Instr.tys, hty, he.isEscape hs (Expectation.concrete_of _)]
  | assignElement ha hi he =>
    simp [Ty.AllConcrete, Instr.tys, Dest.tys, ha.isEscape hs trivial, hi.isEscape hs rfl,
      he.isEscape hs (Expectation.concrete_of _)]
  | branch _ hc _ => simpa [Ty.AllConcrete, Instr.tys] using hc.isEscape hs rfl
  | goto _ | label _ | retNone => simp [Ty.AllConcrete, Instr.tys]
  | retSome he =>
    simpa [Ty.AllConcrete, Instr.tys] using he.isEscape hs (Expectation.concrete_of _)

theorem LowersBody.concrete (hs : s.Concrete) {ts : List Stmt} {σ σ' : Supply} {code : List Instr}
    (h : s.LowersBody ts σ code σ') : ConcreteCode code := by
  intro i hi
  obtain ⟨_, _, hissues⟩ := h.issued hs (N := fun _ => True) (List.Subset.refl _) (by simp) i hi
  exact hissues.concrete hs

theorem concrete_closing {ret : Ty} (h : ret.isEscape = false) (code : List Instr) :
    ConcreteCode (closing ret code) := by
  have hzero : (Operand.zero ret).ty.isEscape = false := by
    unfold Operand.zero
    split
    · rfl
    · split
      · rfl
      · exact h
  unfold closing
  split <;> split <;> simp [ConcreteCode, Ty.AllConcrete, Instr.tys, hzero]

theorem LowersBody.allConcrete (hs : s.Concrete) {ts : List Stmt} {σ σ' : Supply} {body : List Instr}
    (h : s.LowersBody ts σ body σ') : Ty.AllConcrete (s.methodCode body).tys := by
  have hret : s.method.returnTy.asValue.isEscape = false := hs.method.returnTy
  have hcode : ConcreteCode (s.methodCode body).instrs :=
    List.forall_mem_append.2 ⟨h.concrete hs, concrete_closing hret body⟩
  refine List.forall_mem_append.2 ⟨List.forall_mem_append.2 ⟨hs.method.params, hs.method.locals⟩, ?_⟩
  refine List.forall_mem_cons.2 ⟨hs.method.returnTy, ?_⟩
  intro t ht
  obtain ⟨i, hi, ht⟩ := List.mem_flatMap.1 ht
  exact hcode i hi t ht

end Scope

/-- No type in the code of a unit, whatever its findings, stands for missing knowledge. The methods may
have other bodies than those that the declarations were read from. -/
theorem Program.kind_of_lower {p q : Program} {σ σ' : Supply} {code : ClassCode}
    (h : (Symbols.ofProgram p).lower q σ = .ok code σ') :
    ∀ t ∈ code.tys, t.kind ≠ .external ∧ t.kind ≠ .indeterminate := by
  obtain ⟨ms, hms, rfl⟩ := Symbols.lower_eq_ok_iff.1 h
  have hconcrete : Ty.AllConcrete ((Symbols.ofProgram p).classCode ms).tys := by
    refine List.forall_mem_append.2 ⟨?_, ?_⟩
    · intro t ht
      simp only [Symbols.classCode, Symbols.ofProgram, List.map_map, List.mem_map,
        Function.comp_apply] at ht
      obtain ⟨v, _, rfl⟩ := ht
      exact Ty.isEscape_ofName _
    · intro t ht
      obtain ⟨m, hm, ht⟩ := List.mem_flatMap.1 ht
      obtain ⟨d, sig, σ₁, σ₂, body, hmem, hb, rfl⟩ := hms.of_mem hm
      exact hb.allConcrete (p.concrete_scope (List.of_mem_zip hmem).2) t ht
  intro t ht
  have hescape := hconcrete t ht
  simp only [Ty.isEscape, Bool.or_eq_false_iff, decide_eq_false_iff_not] at hescape
  exact hescape

/-- A class with a finding that asks another class wherever a value can stand: among elements, for an
array, on both sides of an equality, and where nothing is expected of it. -/
def Program.relay : Program :=
  let var (n : String) : Expr := .name n {}
  let int (n : Int32) : Expr := .literal (.int n) {}
  let ask : Expr := .call (some (var "Gauge")) "read" [var "n"] {}
  { imports := [{ path := "lib.Gauge" }]
    classDecl := {
      name := "Relay"
      methods := [{
        name := "poll", returns := { name := "int" }
        params := [{ type := { name := "int" }, name := "n" }]
        locals := [{ type := { name := "Gauge", isArray := true }, name := "gs" }]
        body := [
          .assign (var "gs") (.arrayInit [ask, ask] {}) {},
          .assign (var "n") (.index ask (int 0) {}) {},
          .cond (.binary .eq ask ask {}) (.ret (some ask) {}) none {},
          .expr (.index (.arrayInit [ask] {}) ask {}) {},
          .ret (some (.literal (.bool true) {})) {}] }] } }

theorem Program.kind_relay :
    relay.analyze.diagnostics ≠ [] ∧
      ∃ code σ', (Symbols.ofProgram relay).lower relay {} = .ok code σ' ∧ code.tys.length = 66 ∧
        (Ty.named "Gauge").array ∈ code.tys ∧
        ∀ t ∈ code.tys, t.kind ≠ .external ∧ t.kind ≠ .indeterminate := by
  have h : (((Symbols.ofProgram relay).lower relay).run' {}).any fun code =>
      code.tys.length = 66 && (Ty.named "Gauge").array ∈ code.tys := by
    decide +kernel
  obtain ⟨code, σ', hl, h⟩ := Lower.exists_of_any h
  simp only [Bool.and_eq_true, decide_eq_true_eq] at h
  exact ⟨by decide +kernel, code, σ', hl, h.1, h.2, kind_of_lower hl⟩

end SingleClass
