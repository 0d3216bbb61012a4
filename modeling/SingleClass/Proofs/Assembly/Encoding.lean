import SingleClass.Compilation
import SingleClass.Proofs.Assembly.Progress
set_option autoImplicit false

/-!
Encodings of declared types. What the review of declarations accepts as the type of a variable can
be encoded, in every class. Of a return type the review asks less: an array of void passes it and has
no encoding, and so the method has none (`ClassCode.methodType_of_void_array`).
-/

namespace SingleClass

theorem ClassCode.fieldType_of_void_array (c : ClassCode) {t : Ty} (hvoid : t.isVoid = true)
    (harray : t.isArray = true) : c.fieldType t = .error (.noDescriptor t) := by
  have hkind : t.kind = .void := by simpa [Ty.isVoid] using hvoid
  simp only [fieldType, hkind, harray, if_true]

theorem ClassCode.methodType_of_void_array (c : ClassCode) {params : List Ty} {ret : Ty}
    (hparams : ∀ t ∈ params, t.isEscape = false ∧ t.isVoid = false) (hvoid : ret.isVoid = true)
    (harray : ret.isArray = true) : c.methodType params ret = .error (.noDescriptor ret) := by
  obtain ⟨ps, hps⟩ := c.exists_fieldTypes hparams
  simp only [methodType, hps, c.fieldType_of_void_array hvoid harray, bind, Except.bind]

namespace Program

/-- In a program whose declarations are accepted, the types of all fields can be encoded, and so can
every method with its parameters and its return type, unless that is an array of void. -/
theorem encoding_of_review {p : Program} (h : (Symbols.ofProgram p).reviewDeclarations p = [])
    (c : ClassCode) :
    (∀ v ∈ (Symbols.ofProgram p).fields, ∃ d, c.fieldType v.ty = .ok d) ∧
      ∀ m ∈ (Symbols.ofProgram p).methods,
        if m.returnTy.isVoid = true ∧ m.returnTy.isArray = true then
          c.methodType m.paramTys m.returnTy = .error (.noDescriptor m.returnTy)
        else ∃ d, c.methodType m.paramTys m.returnTy = .ok d := by
  simp only [Symbols.reviewDeclarations, List.append_eq_nil_iff] at h
  obtain ⟨⟨_, hfields⟩, hmethods⟩ := h
  refine ⟨fun v hv => ?_, fun m hm => ?_⟩
  · have hadmits := Symbols.admits_of_review hfields v hv
    exact c.exists_fieldType hadmits.declared.isEscape (by simp [hadmits.isVoid])
  · have hadmits := Symbols.admitsMethods_of_review hmethods m hm
    have hparams : ∀ t ∈ m.paramTys, t.isEscape = false ∧ t.isVoid = false := by
      intro t ht
      obtain ⟨v, hv, rfl⟩ := List.mem_map.1 ht
      exact ⟨(hadmits.params v hv).declared.isEscape, (hadmits.params v hv).isVoid⟩
    split
    · next hret => exact c.methodType_of_void_array hparams hret.1 hret.2
    · next hret =>
      exact c.exists_methodType hparams hadmits.returnTy.isEscape fun hvoid =>
        Bool.eq_false_iff.2 fun harray => hret ⟨hvoid, harray⟩

/-- `class Hollow { int depth; int level(int... marks) { return depth; } void[] drain() { } }` -/
def hollow : Program where
  classDecl := {
    name := "Hollow"
    fields := [{ type := { name := "int" }, name := "depth" }]
    methods := [
      { name := "level", returns := { name := "int" }
        params := [{ type := { name := "int", isArray := true, isVararg := true }, name := "marks" }]
        body := [.ret (some (.name "depth" {})) {}] },
      { name := "drain", returns := { name := "void", isArray := true } }] }

theorem encoding_hollow :
    (Symbols.ofProgram hollow).reviewDeclarations hollow = [] ∧
      let c : ClassCode := { name := "Hollow" }
      let marks : Ty := { kind := .int, isArray := true, isVararg := true }
      (∃ d, c.fieldType .int = .ok d) ∧ (∃ d, c.methodType [marks] .int = .ok d) ∧
        c.methodType [] (.array .void) = .error (.noDescriptor (.array .void)) := by
  have hreview : (Symbols.ofProgram hollow).reviewDeclarations hollow = [] := rfl
  obtain ⟨hfields, hmethods⟩ := encoding_of_review hreview { name := "Hollow" }
  exact ⟨hreview, hfields _ List.mem_cons_self, hmethods _ List.mem_cons_self,
    hmethods _ (List.mem_cons_of_mem _ List.mem_cons_self)⟩

/-- Nothing is found in the program, and there is no code for it. -/
theorem compile_hollow :
    hollow.analyze.diagnostics = [] ∧
      (∃ m ∈ (Symbols.ofProgram hollow).methods, ∀ d : MethodType,
        ({ name := "Hollow" } : ClassCode).methodType m.paramTys m.returnTy ≠ .ok d) ∧
      hollow.compile { optimize := false } = .error (.noDescriptor (.array .void)) := by
  refine ⟨rfl, ⟨_, List.mem_cons_of_mem _ List.mem_cons_self, fun d h => ?_⟩, rfl⟩
  cases h

end Program

end SingleClass
