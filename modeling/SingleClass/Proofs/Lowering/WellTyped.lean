import SingleClass.Proofs.Lowering.Preservation
set_option autoImplicit false

/-!
Lowering keeps types. In a program that stands alone and has no findings, the operand of every
expression has the type of the expression, and every instruction reads operands of the types it works
on (`MethodCode.WellTyped`).
-/

namespace SingleClass

/-- The operands have the types that the instruction works on, in a method that returns `ret`. -/
def Instr.WellTyped (ret : Ty) : Instr → Prop
  | .assign (.var _ t) v => v.ty.asValue = t.asValue
  | .assign (.temp d) v => v.ty.asValue = d.ty.asValue
  | .assign (.element a i) v => a.ty.isArray = true ∧ i.ty = .int ∧ v.ty.asValue = a.ty.element
  | .binary _ op l r =>
    match op.family with
    | .arithmetic | .ordering => l.ty = .int ∧ r.ty = .int
    | .logical => l.ty = .boolean ∧ r.ty = .boolean
    | .equality => l.ty = r.ty
  | .unary _ op o => o.ty = op.ty
  | .call c => List.Forall₂ (fun o t => o.ty.asValue = t.asValue) c.args c.params
  | .newArray _ _ size => size.ty = .int
  | .arrayLoad _ a i => a.ty.isArray = true ∧ i.ty = .int
  | .arrayLength _ a => a.ty.isArray = true
  | .putField _ t v => v.ty.asValue = t.asValue
  | .ret none => ret.isVoid = true
  | .ret (some v) => ret.isVoid = false ∧ v.ty.asValue = ret.asValue
  | .branch c _ => c.ty = .boolean
  | .new .. | .getField .. | .goto _ | .label _ => True

namespace Scope

theorem TypedInstr.declared_defined {s : Scope} (hs : s.Closed) {V : Prop} {D : List Temp} {i : Instr}
    (h : s.TypedInstr V D i) {d : Temp} (hd : i.defined? = some d) : d.ty.Declared := by
  cases h with
  | binary _ _ _ hty =>
    cases hd
    exact hty ▸ BinaryOp.declared_resultTy _
  | unary _ hty =>
    cases hd
    exact hty ▸ UnaryOp.declared_ty _
  | call hc =>
    rw [(hc.dest d hd).1]
    rcases hc.ret with hvoid | ⟨m, hm, hret⟩
    · exact hvoid ▸ Ty.declared_of_kind rfl
    · exact hret ▸ (hs.symbols.methods m hm).returnTy
  | new hty =>
    cases hd
    exact hty ▸ Ty.declared_of_kind rfl
  | newArray hty _ hescape =>
    cases hd
    exact hty ▸ ⟨hescape, fun _ => rfl⟩
  | arrayLoad ha _ _ hty =>
    cases hd
    exact hty ▸ Ty.declared_element (ha.scalar hs).2.1
  | arrayLength _ _ hty =>
    cases hd
    exact hty ▸ Ty.declared_of_kind rfl
  | getField hf _ hty =>
    cases hd
    exact hty ▸ Ty.declared_asValue (hs.symbols.fields _ hf).declared.isEscape
  | _ => cases hd

theorem TypedOperand.ty_eq {s : Scope} {D : List Temp} (hD : ∀ d ∈ D, d.ty.Declared) {o : Operand}
    {t : Ty} (h : s.TypedOperand D o t) (ha : t.isArray = false) : o.ty = t := by
  cases h with
  | int | bool | var | this | null => rfl
  | temp hd => exact ((hD _ hd).asValue_eq ha).symm

theorem TypedInstr.wellTyped {s : Scope} (hs : s.Closed) {V : Prop} {D : List Temp}
    (hD : ∀ d ∈ D, d.ty.Declared) {i : Instr} (h : s.TypedInstr V D i) :
    i.WellTyped s.method.returnTy := by
  cases h with
  | assignVar hb hf hv => exact (hv.scalar hs).1
  | assignElement ha harray hi hv =>
    have hat := (ha.scalar hs).1
    exact ⟨(congrArg Ty.isArray hat).trans harray, hi.ty_eq hD rfl,
      (hv.scalar hs).1.trans (congrArg Ty.element hat).symm⟩
  | @binary d op l r t hop hl hr hty =>
    have hlt := hl.ty_eq hD hop.scalar.1
    have hrt := hr.ty_eq hD hop.scalar.1
    unfold BinaryOp.Takes at hop
    simp only [Instr.WellTyped]
    cases hfamily : op.family with
    | arithmetic | ordering | logical =>
      simp only [hfamily] at hop ⊢
      exact ⟨hlt.trans hop, hrt.trans hop⟩
    | equality => exact hlt.trans hrt.symm
  | unary ho _ => exact ho.ty_eq hD (UnaryOp.scalar_ty _).1
  | call hc =>
    refine (List.forall₂_map_right_iff.1 hc.args).imp fun o t ho => ?_
    exact (ho.scalar hs).1
  | newArray _ _ _ _ _ hsize => exact hsize.ty_eq hD rfl
  | arrayLoad ha harray hi _ =>
    exact ⟨(congrArg Ty.isArray (ha.scalar hs).1).trans harray, hi.ty_eq hD rfl⟩
  | arrayLength ha harray _ => exact (congrArg Ty.isArray (ha.scalar hs).1).trans harray
  | putField _ _ hv => exact (hv.scalar hs).1
  | retNone hvoid => exact hvoid
  | retSome hvoid hv => exact ⟨hvoid, (hv.scalar hs).1⟩
  | branch hc => exact hc.ty_eq hD rfl
  | _ => trivial

theorem Lowers.stripParens {s : Scope} {e : Expr} {want : Expectation} {σ σ' : Supply} {f : Fragment}
    (h : s.Lowers e want σ f σ') : s.Lowers e.stripParens want σ f σ' := by
  induction e using Expr.stripParens.induct with
  | case1 e ih =>
    cases h with
    | paren he => exact ih he
  | case2 e hn =>
    rw [Expr.stripParens]
    · exact h
    · exact hn

theorem Lowers.ty_operand {s : Scope} (hs : s.Closed) {e : Expr} {want : Expectation} {σ σ' : Supply}
    {f : Fragment} (h : s.Lowers e want σ f σ') {t : Ty} (ht : s.HasType e t) :
    f.operand.ty.asValue = t := by
  cases hvoid : t.isVoid with
  | false => exact ((h.typedOperand hs ht hvoid (List.Subset.refl _)).scalar hs).1
  | true =>
    have hl := h.stripParens
    have htype := ht.stripParens
    rcases ht.shape_of_isVoid hs hvoid with ⟨r, m, as, p, he⟩ | ⟨u, size, p, he⟩
    · rw [he] at hl htype
      cases htype with
      | call hrecv hm has hts =>
        cases hl with
        | call hc =>
          exact congrArg Ty.asValue (hc.dest_eq hs hrecv hm _ rfl).2
    · rw [he] at hl htype
      cases htype
      cases hl
      rfl

end Scope

theorem Temp.firstDefinitions_subset (code : List Instr) :
    Temp.firstDefinitions code ⊆ definitions code := by
  have hfold : ∀ ds ts : List Temp,
      ds.foldl (fun ts t => if ts.any (·.id = t.id) then ts else ts ++ [t]) ts ⊆ ts ++ ds := by
    intro ds
    induction ds with
    | nil => simp
    | cons d ds ih =>
      intro ts
      rw [List.foldl_cons]
      refine List.Subset.trans (ih _) (List.append_subset.2 ⟨?_, by simp⟩)
      split <;> simp
  exact hfold (definitions code) []

/-- The code of a body keeps its types: those of its expressions in their operands, and those that
its instructions work on. -/
structure MethodCode.WellTyped (m : MethodCode) (s : Scope) (body : List Stmt) : Prop where
  operands : ∀ e, .expr e ∈ Stmt.nodesOf body → ∀ want σ f σ', s.lower e want σ = .ok f σ' →
    ∃ t, s.typeOf e = .ok t ∧ f.operand.ty.asValue = t.asValue
  instrs : ∀ i ∈ m.instrs, i.WellTyped s.method.returnTy

theorem MethodCode.Typed.wellTyped {m : MethodCode} {s : Scope} {V : Prop} (h : m.Typed s V)
    {body : List Stmt} (ha : s.AcceptsAll body) : m.WellTyped s body := by
  refine ⟨?_, ?_⟩
  · intro e he want σ f σ' hl
    obtain ⟨t, ht⟩ := ha.keeps _ he
    obtain ⟨t', ht', rfl, _⟩ := ht.typeOf_eq h.closed
    exact ⟨t', ht', (Scope.lower_eq_ok_iff.1 hl).ty_operand h.closed ht⟩
  · have htemps : ∀ d ∈ m.temps, d.ty.Declared := by
      intro d hd
      obtain ⟨i, hi, hdef⟩ := List.mem_filterMap.1 (Temp.firstDefinitions_subset m.instrs hd)
      exact (h.code i hi).declared_defined h.closed hdef
    intro i hi
    exact (h.code i hi).wellTyped h.closed htemps

/-- Lowering a program that stands alone and has no findings keeps types in every method. -/
theorem Program.Closed.wellTyped_of_lower {p : Program} (hp : p.Closed)
    (hd : p.analyze.diagnostics = []) {σ σ' : Supply} {code : ClassCode}
    (hl : (Symbols.ofProgram p).lower p σ = .ok code σ') :
    List.Forall₂ (fun d m => m.WellTyped (p.scopeOf d) d.body) p.classDecl.methods code.methods := by
  obtain ⟨ms, hms, rfl⟩ := Symbols.lower_eq_ok_iff.1 hl
  rw [p.paired_ofProgram] at hms
  have hsound : ∀ d ∈ p.classDecl.methods, (p.scopeOf d).Sound d.body := fun d => hp.sound hd
  refine ((List.forall₂_and_left _ _).2 ⟨hsound, hms.forall₂⟩).imp fun d m h => ?_
  obtain ⟨hs, σ₁, σ₂, body, hb, rfl⟩ := h
  have hV : Scope.VoidArrays True (Stmt.nodesOf d.body) := fun _ _ _ _ _ => trivial
  exact (hs.closed.typed_methodCode hs.accepts hb hV).wellTyped hs.accepts

theorem Program.wellTyped_sum :
    Program.sum.Closed ∧ Program.sum.analyze.diagnostics = [] ∧
      ∃ code σ', (Symbols.ofProgram Program.sum).lower Program.sum {} = .ok code σ' ∧
        List.Forall₂ (fun d m => m.WellTyped (Program.sum.scopeOf d) d.body)
          Program.sum.classDecl.methods code.methods := by
  have h : (((Symbols.ofProgram Program.sum).lower Program.sum).run' {}).any fun _ => true := by
    decide +kernel
  obtain ⟨code, σ', hl, _⟩ := Lower.exists_of_any h
  exact ⟨closed_sum, analyze_sum, code, σ', hl, closed_sum.wellTyped_of_lower analyze_sum hl⟩

end SingleClass
