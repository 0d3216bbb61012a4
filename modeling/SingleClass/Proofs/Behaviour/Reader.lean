import Mathlib.Tactic.Tauto
import SingleClass.Proofs.Behaviour.Machine
set_option autoImplicit false

/-!
Assembly as a machine reads it. The words of a line name an instruction and its operands: a byte or a
short is extended by its sign, a register up to 3 has forms of its own, and one letter stands for ints and
booleans. No mark stands between the parts of a descriptor, yet each part shows where it ends, so a
descriptor can be read in one way only (`MethodType.read?_eq_some_iff`).
-/

namespace SingleClass

def BaseType.readName : List Char → Option (List Char × List Char)
  | [] => none
  | c :: cs => if c = ';' then some ([], cs) else (readName cs).map fun r => (c :: r.1, r.2)

def BaseType.read : List Char → Option (BaseType × List Char)
  | 'I' :: cs => some (.int, cs)
  | 'Z' :: cs => some (.boolean, cs)
  | 'V' :: cs => some (.void, cs)
  | 'L' :: cs => (readName cs).map fun r => (.object (.ofList r.1), r.2)
  | _ => none

/-- A base type, or an array of one other than void. -/
def FieldType.read : List Char → Option (FieldType × List Char)
  | [] => none
  | c :: cs =>
    if c = '[' then do
      let r ← BaseType.read cs
      if r.1 = .void then none else some ({ isArray := true, base := r.1 }, r.2)
    else (BaseType.read (c :: cs)).map fun r => ({ base := r.1 }, r.2)

/-- The name of a class can be told from what follows it. -/
def BaseType.Plain : BaseType → Prop
  | .object c => ';' ∉ c.toList
  | .int | .boolean | .void => True

structure FieldType.Plain (t : FieldType) : Prop where
  base : t.base.Plain
  array : t.isArray = true → t.base ≠ .void

theorem BaseType.readName_eq_some_iff {cs n rest : List Char} :
    readName cs = some (n, rest) ↔ ';' ∉ n ∧ cs = n ++ ';' :: rest := by
  induction cs generalizing n with
  | nil => simp [readName]
  | cons c cs ih =>
    unfold readName
    split
    · next hc =>
      subst hc
      cases n with
      | nil => simp [eq_comm]
      | cons d n => simp; tauto
    · next hc =>
      rw [Option.map_eq_some_iff]
      constructor
      · rintro ⟨⟨m, rest'⟩, hr, heq⟩
        cases heq
        obtain ⟨hm, rfl⟩ := ih.1 hr
        exact ⟨by simp [hm, Ne.symm hc], rfl⟩
      · rintro ⟨hn, heq⟩
        cases n with
        | nil =>
          cases heq
          exact absurd rfl hc
        | cons d n =>
          cases heq
          exact ⟨(n, rest), ih.2 ⟨fun h => hn (List.mem_cons_of_mem _ h), rfl⟩, rfl⟩

theorem BaseType.read_eq_some_iff {cs rest : List Char} {t : BaseType} :
    read cs = some (t, rest) ↔ t.Plain ∧ cs = t.text.toList ++ rest := by
  constructor
  · intro h
    unfold read at h
    split at h
    · cases h
      exact ⟨trivial, rfl⟩
    · cases h
      exact ⟨trivial, rfl⟩
    · cases h
      exact ⟨trivial, rfl⟩
    · obtain ⟨⟨n, rest'⟩, hr, heq⟩ := Option.map_eq_some_iff.1 h
      cases heq
      obtain ⟨hn, rfl⟩ := readName_eq_some_iff.1 hr
      refine ⟨?_, ?_⟩
      · simpa [Plain] using hn
      · simp [text]
    · cases h
  · rintro ⟨hplain, rfl⟩
    cases t with
    | int | boolean | void => rfl
    | object c =>
      have hname : readName (c.toList ++ ';' :: rest) = some (c.toList, rest) :=
        readName_eq_some_iff.2 ⟨hplain, rfl⟩
      simp [text, read, hname]

theorem BaseType.exists_text_eq_cons (t : BaseType) :
    ∃ c cs, t.text.toList = c :: cs ∧ c ≠ '[' := by
  cases t <;> simp [text]

theorem FieldType.read_eq_some_iff {cs rest : List Char} {t : FieldType} :
    read cs = some (t, rest) ↔ t.Plain ∧ cs = t.text.toList ++ rest := by
  constructor
  · intro h
    cases cs with
    | nil => cases h
    | cons c cs =>
      rw [read] at h
      split at h
      · next hc =>
        obtain ⟨⟨b, rest'⟩, hr, harray⟩ := Option.bind_eq_some_iff.1 h
        obtain ⟨hb, rfl⟩ := BaseType.read_eq_some_iff.1 hr
        split at harray
        · cases harray
        · next hvoid =>
          cases harray
          exact ⟨⟨hb, fun _ => hvoid⟩, by simp [text, hc]⟩
      · obtain ⟨⟨b, rest'⟩, hr, heq⟩ := Option.map_eq_some_iff.1 h
        cases heq
        obtain ⟨hb, hcs⟩ := BaseType.read_eq_some_iff.1 hr
        exact ⟨⟨hb, fun harray => by cases harray⟩, by simp [text, hcs]⟩
  · rintro ⟨⟨hbase, harray⟩, rfl⟩
    obtain ⟨isArray, base⟩ := t
    have hread : BaseType.read (base.text.toList ++ rest) = some (base, rest) :=
      BaseType.read_eq_some_iff.2 ⟨hbase, rfl⟩
    cases isArray with
    | true => simp [text, read, hread, harray rfl]
    | false =>
      obtain ⟨c, cs, hcs, hc⟩ := base.exists_text_eq_cons
      rw [hcs, List.cons_append] at hread
      simp [text, read, hcs, hc, hread]

theorem FieldType.length_text_pos (t : FieldType) : 0 < t.text.toList.length := by
  obtain ⟨c, cs, hcs, _⟩ := t.base.exists_text_eq_cons
  rw [text, String.toList_append, hcs]
  exact List.length_pos_of_mem (List.mem_append_right _ List.mem_cons_self)

theorem FieldType.length_read {cs : List Char} {r : FieldType × List Char} (h : read cs = some r) :
    r.2.length < cs.length := by
  obtain ⟨_, rfl⟩ := read_eq_some_iff.1 h
  have hpos := r.1.length_text_pos
  rw [List.length_append]
  omega

def FieldType.readAll : List Char → Option (List FieldType × List Char)
  | [] => none
  | c :: cs =>
    if c = ')' then some ([], cs)
    else
      match _h : read (c :: cs) with
      | none => none
      | some r => (readAll r.2).map fun q => (r.1 :: q.1, q.2)
termination_by cs => cs.length
decreasing_by exact length_read _h

def MethodType.read? (text : String) : Option MethodType :=
  match text.toList with
  | [] => none
  | c :: cs =>
    if c = '(' then do
      let params ← FieldType.readAll cs
      let result ← FieldType.read params.2
      if result.2 = [] then some { params := params.1, result := result.1 } else none
    else none

structure MethodType.Plain (t : MethodType) : Prop where
  params : ∀ p ∈ t.params, p.Plain
  result : t.result.Plain

theorem FieldType.readAll_of_read {cs rest : List Char} {t : FieldType} (h : read cs = some (t, rest)) :
    readAll cs = (readAll rest).map fun q => (t :: q.1, q.2) := by
  cases cs with
  | nil => cases h
  | cons c cs =>
    have hc : c ≠ ')' := by
      rintro rfl
      cases h
    rw [readAll, if_neg hc]
    split
    · next hnone => cases h.symm.trans hnone
    · next r hr =>
      cases h.symm.trans hr
      rfl

theorem FieldType.readAll_eq_some_iff {cs rest : List Char} {ts : List FieldType} :
    readAll cs = some (ts, rest) ↔
      (∀ t ∈ ts, t.Plain) ∧ cs = ts.flatMap (·.text.toList) ++ ')' :: rest := by
  constructor
  · intro h
    fun_induction readAll cs generalizing ts with
    | case1 => cases h
    | case2 cs =>
      cases h
      simp
    | case3 => cases h
    | case4 c cs hc r hr ih =>
      obtain ⟨⟨us, rest'⟩, hrest, heq⟩ := Option.map_eq_some_iff.1 h
      cases heq
      obtain ⟨hus, hrest⟩ := ih hrest
      obtain ⟨ht, hcs⟩ := read_eq_some_iff.1 hr
      exact ⟨List.forall_mem_cons.2 ⟨ht, hus⟩, by simp [hcs, hrest]⟩
  · rintro ⟨hplain, rfl⟩
    -- no text of a type begins with the parenthesis, so nothing is taken for the end too early
    induction ts with
    | nil => simp [readAll]
    | cons t ts ih =>
      obtain ⟨ht, hts⟩ := List.forall_mem_cons.1 hplain
      rw [List.flatMap_cons, List.append_assoc, readAll_of_read (read_eq_some_iff.2 ⟨ht, rfl⟩),
        ih hts]
      rfl

/-- A text is read as a descriptor exactly if it is the text of the descriptor. -/
theorem MethodType.read?_eq_some_iff {s : String} {t : MethodType} :
    read? s = some t ↔ t.Plain ∧ s = t.text := by
  have htext : t.text.toList =
      '(' :: (t.params.flatMap (·.text.toList) ++ ')' :: (t.result.text.toList ++ [])) := by
    simp [text, String.toList_join, List.flatMap_map]
  rw [← String.toList_inj, htext, read?]
  constructor
  · intro h
    split at h
    · cases h
    · next c cs hs =>
      split at h
      · next hc =>
        obtain ⟨params, hparams, h⟩ := Option.bind_eq_some_iff.1 h
        obtain ⟨result, hresult, h⟩ := Option.bind_eq_some_iff.1 h
        split at h
        · next hrest =>
          cases h
          obtain ⟨hps, hcs⟩ := FieldType.readAll_eq_some_iff.1 hparams
          obtain ⟨hr, htail⟩ := FieldType.read_eq_some_iff.1 hresult
          exact ⟨⟨hps, hr⟩, by rw [hs, hc, hcs, htail, hrest]⟩
        · cases h
      · cases h
  · rintro ⟨hplain, hs⟩
    have hresult : FieldType.read (t.result.text.toList ++ []) = some (t.result, []) :=
      FieldType.read_eq_some_iff.2 ⟨hplain.result, rfl⟩
    simp only [hs, if_true, FieldType.readAll_eq_some_iff.2 ⟨hplain.params, rfl⟩, hresult,
      Option.bind_eq_bind, Option.bind_some]

def FieldType.read? (w : String) : Option FieldType := do
  let r ← FieldType.read w.toList
  if r.2 = [] then some r.1 else none

/-- What is before the last mark, and what is behind it. -/
def splitLast (mark : Char) : List Char → Option (List Char × List Char)
  | [] => none
  | c :: cs =>
    match splitLast mark cs with
    | some r => some (c :: r.1, r.2)
    | none => if c = mark then some ([], cs) else none

def readNat (digits : List Char) : Option Nat :=
  if !digits.isEmpty && digits.all Char.isDigit then some (.ofDigitChars 10 digits 0) else none

def readInt : List Char → Option Int
  | '-' :: digits => (readNat digits).map fun n => -n
  | digits => (readNat digits).map fun n => n

def Label.read? (w : String) : Option Label := do
  let r ← splitLast '_' w.toList
  let n ← readNat r.2
  if Label.text ⟨.ofList r.1, n⟩ = w then some ⟨.ofList r.1, n⟩ else none

/-- A number that so many bits hold with its sign. -/
def readSigned (bits : Nat) (w : String) : Option (BitVec bits) := do
  let v ← readInt w.toList
  if (BitVec.ofInt bits v).toInt = v then some (.ofInt bits v) else none

def readTyped (w : String) : Option (List Char × MethodType) := do
  let t ← MethodType.read? (.ofList (w.toList.dropWhile (· ≠ '(')))
  return (w.toList.takeWhile (· ≠ '('), t)

namespace Line

def bare : List (String × Line) :=
  [("aconst_null", .pushNull), ("iconst_m1", .push (-1)), ("iconst_0", .push 0), ("iconst_1", .push 1),
    ("iconst_2", .push 2), ("iconst_3", .push 3), ("iconst_4", .push 4), ("iconst_5", .push 5),
    ("iload_0", .load .int 0), ("iload_1", .load .int 1), ("iload_2", .load .int 2),
    ("iload_3", .load .int 3), ("aload_0", .load .object 0), ("aload_1", .load .object 1),
    ("aload_2", .load .object 2), ("aload_3", .load .object 3), ("istore_0", .store .int 0),
    ("istore_1", .store .int 1), ("istore_2", .store .int 2), ("istore_3", .store .int 3),
    ("astore_0", .store .object 0), ("astore_1", .store .object 1), ("astore_2", .store .object 2),
    ("astore_3", .store .object 3), ("iadd", .word .add), ("isub", .word .sub), ("imul", .word .mul),
    ("idiv", .word .div), ("iand", .word .and), ("ior", .word .or), ("ixor", .word .xor),
    ("ineg", .negate), ("pop", .pop), ("iaload", .arrayLoad .int), ("baload", .arrayLoad .bool),
    ("aaload", .arrayLoad .object), ("iastore", .arrayStore .int), ("bastore", .arrayStore .bool),
    ("aastore", .arrayStore .object), ("arraylength", .arrayLength), ("return", .ret none),
    ("ireturn", .ret (some .int)), ("areturn", .ret (some .object))]

def readPush (bits : Nat) (w : String) : Option Line :=
  (readSigned bits w).map fun v => .push (.ofBitVec (v.signExtend 32))

def readInvoke (dispatch : Dispatch) (w : String) : Option Line := do
  let r ← readTyped w
  let path ← splitLast '/' r.1
  return .invoke dispatch (.ofList path.1) (.ofList path.2) r.2

def readOperand : String → String → Option Line
  | "bipush", w => readPush 8 w
  | "sipush", w => readPush 16 w
  | "ldc", w => readPush 32 w
  | "iload", w => (readNat w.toList).map (.load .int)
  | "aload", w => (readNat w.toList).map (.load .object)
  | "istore", w => (readNat w.toList).map (.store .int)
  | "astore", w => (readNat w.toList).map (.store .object)
  | "goto", w => (Label.read? w).map .goto
  | "ifne", w => (Label.read? w).map .ifTrue
  | "if_icmpeq", w => (Label.read? w).map (.jumpIf (.words .eq))
  | "if_icmpne", w => (Label.read? w).map (.jumpIf (.words .ne))
  | "if_icmplt", w => (Label.read? w).map (.jumpIf (.words .lt))
  | "if_icmple", w => (Label.read? w).map (.jumpIf (.words .le))
  | "if_icmpgt", w => (Label.read? w).map (.jumpIf (.words .gt))
  | "if_icmpge", w => (Label.read? w).map (.jumpIf (.words .ge))
  | "if_acmpeq", w => (Label.read? w).map (.jumpIf .sameReference)
  | "if_acmpne", w => (Label.read? w).map (.jumpIf .otherReference)
  | "new", w => some (.new w)
  | "newarray", "int" => some .newIntArray
  | "newarray", "boolean" => some .newBoolArray
  | "anewarray", w => some (.newObjectArray w)
  | "invokevirtual", w => readInvoke .virtual w
  | "invokespecial", w => readInvoke .constructor w
  | "invokestatic", w => readInvoke .static w
  | _, _ => none

/-- An access to a field: what to do, the path of the field, and its type. -/
def readField (access : String → String → FieldType → Line) (path type : String) : Option Line := do
  let r ← splitLast '/' path.toList
  let t ← FieldType.read? type
  return access (.ofList r.1) (.ofList r.2) t

/-- The instruction, or the label, that a line is. -/
def read? : List String → Option Line
  | [w] =>
    if w.toList.getLast? = some ':' then (Label.read? (.ofList w.toList.dropLast)).map .label
    else bare.lookup w
  | [mnemonic, operand] => readOperand mnemonic operand
  | ["getfield", path, type] => readField .getField path type
  | ["putfield", path, type] => readField .putField path type
  | _ => none

/-- The lines up to the end of a method; its limits are none. -/
def readAll : List (List String) → Option (List Line)
  | [] => none
  | [".end", "method"] :: _ => some []
  | [".limit", _, _] :: rows => readAll rows
  | row :: rows => do
    let l ← read? row
    let ls ← readAll rows
    return l :: ls

end Line

def words (line : List Char) : List String :=
  ((line.splitOnP Char.isWhitespace).filter fun w => !w.isEmpty).map .ofList

def rows (text : String) : List (List String) := (text.toList.splitOn '\n').map words

def MethodAssembly.readHeader : List String → Option (Bool × String)
  | [".method", "public", w] => some (false, w)
  | [".method", "public", "static", w] => some (true, w)
  | _ => none

/-- A method from its text, each line by itself. -/
def MethodAssembly.read? (text : String) : Option MethodAssembly :=
  match rows text with
  | [] => none
  | row :: rows => do
    let header ← readHeader row
    let r ← readTyped header.2
    let ls ← Line.readAll rows
    return { name := .ofList r.1, isStatic := header.1, type := r.2, blocks := ls.map ([·]) }

end SingleClass
