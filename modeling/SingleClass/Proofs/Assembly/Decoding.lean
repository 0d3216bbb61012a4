import SingleClass.Proofs.Assembly.Selection
import SingleClass.Proofs.Behaviour.Reader
set_option autoImplicit false

/-!
Types in descriptors. What is read back from the descriptor of a method are its types as they are encoded,
all of them and in order (`ClassCode.methodType_eq_ok_iff`).
-/

namespace SingleClass

def MethodType.tys (t : MethodType) : List Ty × Ty := (t.params.map FieldType.ty, t.result.ty)

/-- The names of which a path is made, the class being the last of them. -/
def Import.parts (i : Import) : List String := (i.path.toList.splitOn '.').map .ofList

/-- A class that is imported with all names of its path, slashes between them; any other as it is. -/
def ClassCode.slashed (c : ClassCode) (n : String) : String :=
  match findImport c.imports n with
  | some i => "/".intercalate i.parts
  | none => n

/-- What a descriptor tells of a type: classes go by their paths, strings are objects of a class like
any other, and the vararg mark is lost. -/
def ClassCode.encoded (c : ClassCode) (t : Ty) : Ty where
  kind :=
    match t.kind with
    | .string => .named "java/lang/String"
    | .named n => .named (c.slashed n)
    | k => k
  isArray := t.isArray

/-- Types that stand for missing knowledge, and arrays of void. -/
def Ty.Unencodable (t : Ty) : Prop :=
  t.kind = .external ∨ t.kind = .indeterminate ∨ t.kind = .void ∧ t.isArray = true

theorem Import.internalName_eq (i : Import) : i.internalName = "/".intercalate i.parts := by
  have hparts : i.parts.map String.toList = i.path.toList.splitOn '.' := by
    simp [parts, Function.comp_def]
  rw [← String.toList_inj, String.toList_intercalate, hparts, internalName, String.toList_ofList]
  induction i.path.toList with
  | nil => rfl
  | cons x cs ih =>
    obtain ⟨part, parts, hsplit⟩ := List.exists_cons_of_ne_nil (List.splitOnP_ne_nil (· == '.') cs)
    rw [List.splitOn, hsplit] at ih
    rw [List.map_cons, ih, List.splitOn, List.splitOnP_cons_eq_if_modifyHead, hsplit]
    by_cases hx : x = '.'
    · simp [hx]
    · cases parts <;> simp [hx]

namespace ClassCode

variable {c : ClassCode}

theorem internalName_eq_slashed (c : ClassCode) (n : String) : c.internalName n = c.slashed n := by
  rw [internalName, SingleClass.internalName, slashed]
  cases findImport c.imports n with
  | none => rfl
  | some i => exact i.internalName_eq

theorem fieldType_eq_ok_iff {t : Ty} {d : FieldType} :
    c.fieldType t = .ok d ↔ d.ty = c.encoded t ∧ (d.isArray = true → d.base ≠ .void) := by
  obtain ⟨kind, isArray, isVararg⟩ := t
  obtain ⟨isArray', base⟩ := d
  cases kind <;> cases base <;> cases isArray <;> cases isArray' <;>
    simp [fieldType, encoded, FieldType.ty, internalName_eq_slashed, eq_comm]

theorem exists_fieldType_iff {t : Ty} : (∃ d, c.fieldType t = .ok d) ↔ ¬t.Unencodable := by
  obtain ⟨kind, isArray, isVararg⟩ := t
  cases kind <;> cases isArray <;> simp [fieldType, Ty.Unencodable]

theorem exists_fieldTypes_iff {ts : List Ty} :
    (∃ ds, c.fieldTypes ts = .ok ds) ↔ ∀ t ∈ ts, ¬t.Unencodable := by
  induction ts with
  | nil => simp [fieldTypes]
  | cons t ts ih =>
    rw [List.forall_mem_cons, ← ih, ← exists_fieldType_iff (c := c)]
    simp only [fieldTypes, bind_eq_ok_iff, pure_eq_ok_iff]
    constructor
    · rintro ⟨_, d, hd, ds, hds, _⟩
      exact ⟨⟨d, hd⟩, ds, hds⟩
    · rintro ⟨⟨d, hd⟩, ds, hds⟩
      exact ⟨_, d, hd, ds, hds, rfl⟩

theorem exists_methodType_iff {params : List Ty} {ret : Ty} :
    (∃ d, c.methodType params ret = .ok d) ↔ ∀ t ∈ params ++ [ret], ¬t.Unencodable := by
  rw [List.forall_mem_append, List.forall_mem_singleton, ← exists_fieldType_iff (c := c),
    ← exists_fieldTypes_iff (c := c)]
  simp only [methodType, bind_eq_ok_iff, pure_eq_ok_iff]
  constructor
  · rintro ⟨_, ps, hps, r, hr, _⟩
    exact ⟨⟨ps, hps⟩, r, hr⟩
  · rintro ⟨⟨ps, hps⟩, r, hr⟩
    exact ⟨_, ps, hps, r, hr, rfl⟩

end ClassCode

theorem Import.semicolon_notMem_internalName {i : Import} (h : ';' ∉ i.path.toList) :
    ';' ∉ i.internalName.toList := by
  simp only [internalName, String.toList_ofList, List.mem_map, not_exists, not_and]
  intro a ha hslash
  split at hslash
  · cases hslash
  · exact h (hslash ▸ ha)

namespace ClassCode

variable {c : ClassCode} (himports : ∀ i ∈ c.imports, ';' ∉ i.path.toList)
include himports

theorem semicolon_notMem_internalName {n : String} (h : ';' ∉ n.toList) :
    ';' ∉ (c.internalName n).toList := by
  rw [internalName, SingleClass.internalName]
  split
  · next i hi => exact Import.semicolon_notMem_internalName (himports i (List.mem_of_find?_eq_some hi))
  · exact h

theorem plain_of_ty_eq {t : Ty} {d : FieldType} (hname : ∀ n, t.kind = .named n → ';' ∉ n.toList)
    (h : d.ty = c.encoded t) : d.base.Plain := by
  obtain ⟨kind, isArray, isVararg⟩ := t
  obtain ⟨isArray', base⟩ := d
  cases base with
  | int | boolean | void => trivial
  | object n =>
    cases kind with
    | int | boolean | void | external | indeterminate => simp [FieldType.ty, encoded] at h
    | string =>
      cases h
      exact (by decide : ';' ∉ "java/lang/String".toList)
    | named m =>
      cases h
      exact c.internalName_eq_slashed m ▸ semicolon_notMem_internalName himports (hname m rfl)

theorem fieldType_eq_ok_iff_plain {t : Ty} {d : FieldType}
    (hname : ∀ n, t.kind = .named n → ';' ∉ n.toList) :
    c.fieldType t = .ok d ↔ d.Plain ∧ d.ty = c.encoded t := by
  rw [fieldType_eq_ok_iff]
  constructor
  · rintro ⟨hty, harray⟩
    exact ⟨⟨plain_of_ty_eq himports hname hty, harray⟩, hty⟩
  · rintro ⟨hplain, hty⟩
    exact ⟨hty, hplain.array⟩

theorem fieldTypes_eq_ok_iff {ts : List Ty} {ds : List FieldType}
    (hnames : ∀ t ∈ ts, ∀ n, t.kind = .named n → ';' ∉ n.toList) :
    c.fieldTypes ts = .ok ds ↔ (∀ d ∈ ds, d.Plain) ∧ ds.map FieldType.ty = ts.map c.encoded := by
  induction ts generalizing ds with
  | nil => cases ds <;> simp [fieldTypes]
  | cons t ts ih =>
    obtain ⟨ht, hts⟩ := List.forall_mem_cons.1 hnames
    simp only [fieldTypes, bind_eq_ok_iff, pure_eq_ok_iff, fieldType_eq_ok_iff_plain himports ht, ih hts]
    constructor
    · rintro ⟨d, ⟨hd, hty⟩, ds, ⟨hds, htys⟩, rfl⟩
      exact ⟨List.forall_mem_cons.2 ⟨hd, hds⟩, by rw [List.map_cons, List.map_cons, hty, htys]⟩
    · rintro ⟨hplain, htys⟩
      cases ds with
      | nil => cases htys
      | cons d ds =>
        obtain ⟨hd, hds⟩ := List.forall_mem_cons.1 hplain
        obtain ⟨hty, htys⟩ := List.cons.inj htys
        exact ⟨d, ⟨hd, hty⟩, ds, ⟨hds, htys⟩, rfl⟩

theorem methodType_eq_ok_iff {params : List Ty} {ret : Ty} {d : MethodType}
    (hnames : ∀ t ∈ params ++ [ret], ∀ n, t.kind = .named n → ';' ∉ n.toList) :
    c.methodType params ret = .ok d ↔ d.Plain ∧ d.tys = (params.map c.encoded, c.encoded ret) := by
  obtain ⟨hparams, hret⟩ := List.forall_mem_append.1 hnames
  have hret := List.forall_mem_singleton.1 hret
  simp only [methodType, bind_eq_ok_iff, pure_eq_ok_iff, fieldTypes_eq_ok_iff himports hparams,
    fieldType_eq_ok_iff_plain himports hret]
  constructor
  · rintro ⟨ps, ⟨hps, htys⟩, r, ⟨hr, hty⟩, rfl⟩
    exact ⟨⟨hps, hr⟩, Prod.ext htys hty⟩
  · rintro ⟨hplain, htys⟩
    obtain ⟨htys, hty⟩ := Prod.ext_iff.1 htys
    exact ⟨d.params, ⟨hplain.params, htys⟩, d.result, ⟨hplain.result, hty⟩, rfl⟩

end ClassCode

/-- Names without semicolons given, the text for a method is the one from which its types can be read
back, each as it is encoded. There is none exactly if one of the types cannot be encoded. -/
theorem ClassCode.decodes_methodType (c : ClassCode) (params : List Ty) (ret : Ty) :
    ((∀ i ∈ c.imports, ';' ∉ i.path.toList) →
      (∀ t ∈ params ++ [ret], ∀ n, t.kind = .named n → ';' ∉ n.toList) →
      ∀ text, (c.methodType params ret).map MethodType.text = .ok text ↔
        (MethodType.read? text).map MethodType.tys = some (params.map c.encoded, c.encoded ret)) ∧
    ((∃ e, c.methodType params ret = .error e) ↔ ∃ t ∈ params ++ [ret], t.Unencodable) := by
  refine ⟨fun himports hnames text => ?_, ?_⟩
  · rw [map_eq_ok_iff, Option.map_eq_some_iff]
    refine exists_congr fun d => ?_
    rw [methodType_eq_ok_iff himports hnames, MethodType.read?_eq_some_iff]
    tauto
  · rw [exists_error_iff, exists_methodType_iff]
    simp

/-- A method of a class in front of which `import util.Stack;` stands. -/
theorem ClassCode.decodes_stack :
    let c : ClassCode := { name := "Shelf", imports := [{ path := "util.Stack" }] }
    let args : Ty := { kind := .string, isArray := true, isVararg := true }
    (∀ i ∈ c.imports, ';' ∉ i.path.toList) ∧
      (∀ t ∈ [args, .named "Stack", .int, .array .boolean] ++ [.named "Shelf"],
        ∀ n, t.kind = .named n → ';' ∉ n.toList) ∧
      (MethodType.read? "([Ljava/lang/String;Lutil/Stack;I[Z)LShelf;").map MethodType.tys =
        some ([.array (.named "java/lang/String"), .named "util/Stack", .int, .array .boolean],
          .named "Shelf") ∧
      ∃ e, c.methodType [.named "Stack"] (.array .void) = .error e := by
  intro c args
  have himports : ∀ i ∈ c.imports, ';' ∉ i.path.toList := by decide
  have hnames : ∀ t ∈ [args, .named "Stack", .int, .array .boolean] ++ [.named "Shelf"],
      ∀ n, t.kind = .named n → ';' ∉ n.toList := by
    simp [args, Ty.named, Ty.int, Ty.boolean, Ty.array]
  refine ⟨himports, hnames, ((c.decodes_methodType _ _).1 himports hnames _).1 rfl, ?_⟩
  exact (c.decodes_methodType _ _).2.2 ⟨.array .void, by simp, .inr (.inr ⟨rfl, rfl⟩)⟩

end SingleClass
