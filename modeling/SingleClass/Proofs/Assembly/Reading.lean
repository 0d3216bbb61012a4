import SingleClass.Proofs.Behaviour.Reader
set_option autoImplicit false

/-!
Assembly that is written can be read. Where the names in its lines can be told from what stands around
them, the text of a method is read as the lines that were written, up to the letters of registers
(`MethodAssembly.read?_text`), and the machine does not depend on these (`MethodAssembly.step_lettered`).
-/

namespace SingleClass

theorem splitLast_append {mark : Char} {a b : List Char} (h : mark ∉ b) :
    splitLast mark (a ++ mark :: b) = some (a, b) := by
  have hnone : ∀ cs, mark ∉ cs → splitLast mark cs = none := by
    intro cs hcs
    induction cs with
    | nil => rfl
    | cons c cs ih =>
      rw [List.mem_cons, not_or] at hcs
      simp [splitLast, ih hcs.2, Ne.symm hcs.1]
  induction a with
  | nil => simp [splitLast, hnone b h]
  | cons c a ih => simp [splitLast, ih]

theorem readNat_repr (n : Nat) : readNat n.repr.toList = some n := by
  have hdigits : (n.repr.toList).all Char.isDigit = true := by
    rw [Nat.toList_repr, List.all_eq_true]
    intro c hc
    exact Nat.isDigit_of_mem_toDigits (by omega) (by omega) hc
  have hne : n.repr.toList.isEmpty = false := by
    rw [Nat.toList_repr, List.isEmpty_eq_false_iff]
    exact Nat.toDigits_ne_nil
  rw [readNat, hdigits, hne]
  simp

theorem readInt_repr (v : Int) : readInt v.repr.toList = some v := by
  cases v with
  | ofNat n =>
    have hhead : ∀ cs, n.repr.toList ≠ '-' :: cs := by
      intro cs hcs
      have hmem : '-' ∈ Nat.toDigits 10 n := by
        rw [← Nat.toList_repr, hcs]
        exact List.mem_cons_self
      cases Nat.isDigit_of_mem_toDigits (by omega) (by omega) hmem
    show readInt n.repr.toList = _
    unfold readInt
    split
    · next cs hcs => exact absurd hcs (hhead cs)
    · rw [readNat_repr]
      rfl
  | negSucc n =>
    have hsign : (Int.negSucc n).repr.toList = '-' :: (n + 1).repr.toList := by
      simp [Int.repr]
    rw [hsign, readInt, readNat_repr]
    rfl

theorem Label.read?_text (l : Label) : read? l.text = some l := by
  obtain ⟨kind, n⟩ := l
  have hdigits : '_' ∉ n.repr.toList := by
    intro hmem
    rw [Nat.toList_repr] at hmem
    cases Nat.isDigit_of_mem_toDigits (by omega) (by omega) hmem
  have hsplit : splitLast '_' (Label.text ⟨kind, n⟩).toList = some (kind.toList, n.repr.toList) := by
    have htext : (Label.text ⟨kind, n⟩).toList = kind.toList ++ '_' :: n.repr.toList := by
      simp [text, Nat.toString_eq_repr]
    rw [htext, splitLast_append hdigits]
  simp only [read?, hsplit, readNat_repr, Option.bind_eq_bind, Option.bind_some,
    String.ofList_toList, if_true]

theorem FieldType.read?_text {t : FieldType} (h : t.Plain) : read? t.text = some t := by
  have hread : read t.text.toList = some (t, []) := read_eq_some_iff.2 ⟨h, (List.append_nil _).symm⟩
  simp [read?, hread]

theorem readTyped_append {n : String} {t : MethodType} (hn : '(' ∉ n.toList) (ht : t.Plain) :
    readTyped (n ++ t.text) = some (n.toList, t) := by
  have hname : ∀ c ∈ n.toList, decide (c ≠ '(') = true := by
    intro c hc
    refine decide_eq_true ?_
    rintro rfl
    exact hn hc
  obtain ⟨cs, hcs⟩ : ∃ cs, t.text.toList = '(' :: cs := by simp [MethodType.text]
  have htext : MethodType.read? (.ofList ('(' :: cs)) = some t := by
    rw [← hcs, String.ofList_toList]
    exact MethodType.read?_eq_some_iff.2 ⟨ht, rfl⟩
  rw [readTyped, String.toList_append, hcs, List.takeWhile_append_of_pos hname,
    List.dropWhile_append_of_pos hname]
  simp only [ne_eq, not_true_eq_false, decide_false, Bool.false_eq_true, not_false_eq_true,
    List.dropWhile_cons_of_neg, List.takeWhile_cons_of_neg, List.append_nil, htext]
  rfl

theorem Line.readPush_toString {bits : Nat} (hle : bits ≤ 32) {v : Int32}
    (hv : (BitVec.ofInt bits v.toInt).toInt = v.toInt) :
    readPush bits (toString v.toInt) = some (.push v) := by
  have hsigned : readSigned bits (toString v.toInt) = some (.ofInt bits v.toInt) := by
    simp [readSigned, Int.toString_eq_repr, readInt_repr, hv, -BitVec.toInt_ofInt]
  have hextend : Int32.ofBitVec ((BitVec.ofInt bits v.toInt).signExtend 32) = v := by
    rw [← Int32.toInt_inj, Int32.toInt_ofBitVec, BitVec.toInt_signExtend_of_le hle, hv]
  rw [readPush, hsigned, Option.map_some, hextend]

structure IsWord (w : String) : Prop where
  ne : w ≠ ""
  solid : ∀ c ∈ w.toList, c.isWhitespace = false

theorem solid_of_all {w : String} (h : (w.toList.all fun c => !c.isWhitespace) = true) :
    ∀ c ∈ w.toList, c.isWhitespace = false := by
  simpa using h

instance : DecidablePred IsWord := fun w =>
  decidable_of_iff (w ≠ "" ∧ (w.toList.all fun c => !c.isWhitespace) = true)
    ⟨fun h => ⟨h.1, solid_of_all h.2⟩, fun h => ⟨h.ne, by simpa using h.solid⟩⟩

theorem words_append_blank {c : Char} (hc : c.isWhitespace = true) (cs ds : List Char) :
    words (cs ++ c :: ds) = words cs ++ words ds := by
  rw [words, List.splitOnP_append_cons _ _ hc, List.filter_append, List.map_append]
  rfl

theorem IsWord.words_eq {w : String} (h : IsWord w) : words w.toList = [w] := by
  have hne : w.toList ≠ [] := by simpa using h.ne
  rw [words, List.splitOnP_eq_singleton h.solid]
  simp [hne]

theorem words_two {v w : String} (hv : IsWord v) (hw : IsWord w) :
    words (v ++ " " ++ w).toList = [v, w] := by
  have hlist : (v ++ " " ++ w).toList = v.toList ++ ' ' :: w.toList := by simp
  rw [hlist, words_append_blank rfl, hv.words_eq, hw.words_eq]
  rfl

theorem IsWord.newline_notMem {w : String} (h : IsWord w) : '\n' ∉ w.toList := by
  intro hmem
  cases h.solid _ hmem

theorem IsWord.append {v w : String} (hv : IsWord v) (hw : ∀ c ∈ w.toList, c.isWhitespace = false) :
    IsWord (v ++ w) :=
  ⟨by simp [hv.ne], by
    rw [String.toList_append, List.forall_mem_append]
    exact ⟨hv.solid, hw⟩⟩

structure Line.ReadsAs (text : String) (l : Line) : Prop where
  read : Line.read? (words text.toList) = some l
  newline : '\n' ∉ text.toList

theorem Line.ReadsAs.one {w : String} {l : Line} (hw : IsWord w) (h : Line.read? [w] = some l) :
    ReadsAs w l :=
  ⟨by rw [hw.words_eq, h], hw.newline_notMem⟩

theorem Line.ReadsAs.two {v w : String} {l : Line} (hv : IsWord v) (hw : IsWord w)
    (h : readOperand v w = some l) : ReadsAs (v ++ " " ++ w) l :=
  ⟨by rw [words_two hv hw]; exact h, by
    simp [hv.newline_notMem, hw.newline_notMem]⟩

theorem Line.ReadsAs.three {u v w : String} {l : Line} (hu : IsWord u) (hv : IsWord v) (hw : IsWord w)
    (h : Line.read? [u, v, w] = some l) : ReadsAs (u ++ " " ++ v ++ " " ++ w) l := by
  have hlist : (u ++ " " ++ v ++ " " ++ w).toList = (u ++ " " ++ v).toList ++ ' ' :: w.toList := by simp
  refine ⟨?_, ?_⟩
  · rw [hlist, words_append_blank rfl, words_two hu hv, hw.words_eq]
    exact h
  · simp [hu.newline_notMem, hv.newline_notMem, hw.newline_notMem]

def Cell.lettered : Cell → Cell
  | .int | .bool => .int
  | .object => .object

/-- The line that is read where this one was written. -/
def Line.lettered : Line → Line
  | .load c n => .load c.lettered n
  | .store c n => .store c.lettered n
  | .ret c => .ret (c.map Cell.lettered)
  | l => l

structure FieldType.Legible (t : FieldType) : Prop extends t.Plain where
  word : ∀ c, t.base = .object c → IsWord c

theorem FieldType.Legible.isWord {t : FieldType} (h : t.Legible) : IsWord t.text := by
  refine ⟨?_, ?_⟩
  · intro hempty
    have hpos := t.length_text_pos
    simp [hempty] at hpos
  · have hmark : ∀ c ∈ (if t.isArray then "[" else "").toList, c.isWhitespace = false := by
      cases t.isArray <;> exact solid_of_all (by decide)
    rw [text, String.toList_append, List.forall_mem_append]
    refine ⟨hmark, ?_⟩
    cases hb : t.base with
    | int | boolean | void => exact solid_of_all (by decide)
    | object c =>
      simp only [BaseType.text, String.toList_append, List.forall_mem_append]
      exact ⟨⟨solid_of_all (by decide), (h.word c hb).solid⟩, solid_of_all (by decide)⟩

structure MethodType.Legible (t : MethodType) : Prop where
  params : ∀ p ∈ t.params, p.Legible
  result : t.result.Legible

/-- The names in a line can be told from each other. -/
def Line.Legible : Line → Prop
  | .label l | .goto l | .ifTrue l | .jumpIf _ l => IsWord l.kind
  | .new c | .newObjectArray c => IsWord c
  | .getField o f t | .putField o f t => IsWord o ∧ IsWord f ∧ '/' ∉ f.toList ∧ t.Legible
  | .invoke _ o m t => IsWord o ∧ '(' ∉ o.toList ∧ IsWord m ∧ '(' ∉ m.toList ∧ '/' ∉ m.toList ∧ t.Legible
  | _ => True

theorem isWhitespace_of_isDigit {c : Char} (h : c.isDigit = true) : c.isWhitespace = false := by
  rw [Bool.eq_false_iff]
  intro hw
  simp only [Char.isWhitespace, Bool.or_eq_true, decide_eq_true_eq] at hw
  rcases hw with ((hw | hw) | hw) | hw <;> subst hw <;> cases h

theorem isWord_repr (n : Nat) : IsWord n.repr := by
  refine ⟨?_, ?_⟩
  · intro h
    have hnil := congrArg String.toList h
    rw [Nat.toList_repr] at hnil
    exact Nat.toDigits_ne_nil hnil
  · intro c hc
    rw [Nat.toList_repr] at hc
    exact isWhitespace_of_isDigit (Nat.isDigit_of_mem_toDigits (by omega) (by omega) hc)

theorem isWord_toString (v : Int) : IsWord (toString v) := by
  rw [Int.toString_eq_repr]
  cases v with
  | ofNat n => exact isWord_repr n
  | negSucc n => exact IsWord.append (v := "-") (by decide) (isWord_repr _).solid

theorem Label.isWord_text {l : Label} (h : IsWord l.kind) : IsWord l.text := by
  rw [Label.text, String.append_assoc, Nat.toString_eq_repr]
  refine h.append ?_
  rw [String.toList_append, List.forall_mem_append]
  exact ⟨solid_of_all (by decide), (isWord_repr _).solid⟩

theorem MethodType.Legible.plain {t : MethodType} (h : t.Legible) : t.Plain :=
  ⟨fun p hp => (h.params p hp).toPlain, h.result.toPlain⟩

theorem MethodType.Legible.solid {t : MethodType} (h : t.Legible) :
    ∀ c ∈ t.text.toList, c.isWhitespace = false := by
  simp only [MethodType.text, String.toList_append, List.forall_mem_append, String.toList_join]
  refine ⟨⟨⟨solid_of_all (by decide), ?_⟩, solid_of_all (by decide)⟩, h.result.isWord.solid⟩
  intro c hc
  simp only [List.mem_flatMap, List.mem_map] at hc
  obtain ⟨_, ⟨p, hp, rfl⟩, hc⟩ := hc
  exact (h.params p hp).isWord.solid c hc

theorem Line.readsAs_push (v : Int32) : ReadsAs (pushText v) (.push v) := by
  have hconst : ∀ n : Int, 0 ≤ n → n ≤ 5 → ReadsAs ("iconst_" ++ toString n) (.push (.ofInt n)) := by
    intro n hlow hhigh
    obtain rfl | rfl | rfl | rfl | rfl | rfl : n = 0 ∨ n = 1 ∨ n = 2 ∨ n = 3 ∨ n = 4 ∨ n = 5 := by
      omega
    all_goals exact .one (by decide) (by decide)
  unfold pushText
  dsimp only
  split
  · next hv =>
    have hminus : v = -1 := Int32.toInt_inj.1 hv
    subst hminus
    exact .one (by decide) (by decide)
  · split
    · next hv =>
      have := hconst v.toInt hv.1 hv.2
      rwa [Int32.ofInt_toInt] at this
    · split
      · next hv =>
        refine .two (v := "bipush") (by decide) (isWord_toString _) (readPush_toString (by omega) ?_)
        rw [BitVec.toInt_ofInt]
        exact Int.bmod_eq_of_le (by omega) (by omega)
      · split
        · next hv =>
          refine .two (v := "sipush") (by decide) (isWord_toString _)
            (readPush_toString (by omega) ?_)
          rw [BitVec.toInt_ofInt]
          exact Int.bmod_eq_of_le (by omega) (by omega)
        · refine .two (v := "ldc") (by decide) (isWord_toString _) (readPush_toString (by omega) ?_)
          exact congrArg BitVec.toInt v.toBitVec.ofInt_toInt

theorem Line.readsAs_register (line : Nat → Line) {mnemonic : String} (hm : IsWord mnemonic)
    (hshort : ∀ n ∈ List.range 4, read? [mnemonic ++ "_" ++ toString n] = some (line n))
    (hlong : ∀ w, readOperand mnemonic w = (readNat w.toList).map line) (n : Nat) :
    ReadsAs (registerText mnemonic n) (line n) := by
  unfold registerText
  split
  · next hn =>
    rw [String.append_assoc] at *
    refine .one (hm.append ?_) ?_
    · rw [String.toList_append, List.forall_mem_append]
      exact ⟨solid_of_all (by decide), (isWord_repr n).solid⟩
    · rw [← String.append_assoc]
      exact hshort n (List.mem_range.2 (by omega))
  · refine .two hm (isWord_repr n) ?_
    rw [hlong, Nat.toString_eq_repr, readNat_repr, Option.map_some]

theorem Line.readsAs_load (c : Cell) (n : Nat) :
    ReadsAs (registerText (c.letter ++ "load") n) (.load c.lettered n) := by
  cases c with
  | int | bool => exact readsAs_register (.load .int) (by decide) (by decide) (fun _ => rfl) n
  | object => exact readsAs_register (.load .object) (by decide) (by decide) (fun _ => rfl) n

theorem Line.readsAs_store (c : Cell) (n : Nat) :
    ReadsAs (registerText (c.letter ++ "store") n) (.store c.lettered n) := by
  cases c with
  | int | bool => exact readsAs_register (.store .int) (by decide) (by decide) (fun _ => rfl) n
  | object => exact readsAs_register (.store .object) (by decide) (by decide) (fun _ => rfl) n

theorem Line.readsAs_label {l : Label} (h : IsWord l.kind) : ReadsAs (l.text ++ ":") (.label l) := by
  refine .one ((Label.isWord_text h).append (solid_of_all (by decide))) ?_
  have hlist : (l.text ++ ":").toList = l.text.toList ++ [':'] := by simp
  simp only [read?, hlist, List.getLast?_concat, List.dropLast_concat, String.ofList_toList,
    Label.read?_text, if_true, Option.map_some]

theorem Line.readsAs_jump (mnemonic : String) (line : Label → Line) {l : Label} (hm : IsWord mnemonic)
    (h : IsWord l.kind) (hread : ∀ w, readOperand mnemonic w = (Label.read? w).map line) :
    ReadsAs (mnemonic ++ " " ++ l.text) (line l) := by
  refine .two hm (Label.isWord_text h) ?_
  rw [hread, Label.read?_text, Option.map_some]

theorem IsWord.path {o m : String} (ho : IsWord o) (hm : IsWord m) : IsWord (o ++ "/" ++ m) := by
  rw [String.append_assoc]
  refine ho.append ?_
  rw [String.toList_append, List.forall_mem_append]
  exact ⟨solid_of_all (by decide), hm.solid⟩

theorem splitLast_path {o m : String} (h : '/' ∉ m.toList) :
    splitLast '/' (o ++ "/" ++ m).toList = some (o.toList, m.toList) := by
  have hlist : (o ++ "/" ++ m).toList = o.toList ++ '/' :: m.toList := by simp
  rw [hlist, splitLast_append h]

theorem Line.readsAs_field (mnemonic : String) (access : String → String → FieldType → Line)
    {o f : String} {t : FieldType} (hm : IsWord mnemonic) (ho : IsWord o) (hf : IsWord f)
    (hslash : '/' ∉ f.toList) (ht : t.Legible)
    (hread : ∀ path type, read? [mnemonic, path, type] = readField access path type) :
    ReadsAs (mnemonic ++ " " ++ o ++ "/" ++ f ++ " " ++ t.text) (access o f t) := by
  have htext : mnemonic ++ " " ++ o ++ "/" ++ f = mnemonic ++ " " ++ (o ++ "/" ++ f) := by
    simp only [String.append_assoc]
  rw [htext]
  refine .three hm (ho.path hf) ht.isWord ?_
  simp only [hread, readField, splitLast_path hslash, FieldType.read?_text ht.toPlain,
    Option.bind_eq_bind, Option.bind_some, String.ofList_toList]
  rfl

theorem Line.readsAs_invoke {mnemonic o m : String} {dispatch : Dispatch} {t : MethodType}
    (hmnemonic : IsWord mnemonic) (ho : IsWord o) (hpo : '(' ∉ o.toList) (hm : IsWord m)
    (hpm : '(' ∉ m.toList) (hslash : '/' ∉ m.toList) (ht : t.Legible)
    (hread : ∀ w, readOperand mnemonic w = readInvoke dispatch w) :
    ReadsAs (mnemonic ++ " " ++ o ++ "/" ++ m ++ t.text) (.invoke dispatch o m t) := by
  have htext : mnemonic ++ " " ++ o ++ "/" ++ m ++ t.text =
      mnemonic ++ " " ++ (o ++ "/" ++ m ++ t.text) := by
    simp only [String.append_assoc]
  rw [htext]
  have hpath : '(' ∉ (o ++ "/" ++ m).toList := by simp [hpo, hpm]
  refine .two hmnemonic ((ho.path hm).append ht.solid) ?_
  simp only [hread, readInvoke, readTyped_append hpath ht.plain, splitLast_path hslash,
    Option.bind_eq_bind, Option.bind_some, String.ofList_toList]
  rfl

/-- A line is read as it was written, up to the letter of a register. -/
theorem Line.readsAs_text {l : Line} (h : l.Legible) : ReadsAs l.text l.lettered := by
  cases l with
  | push v => exact readsAs_push v
  | load c n => exact readsAs_load c n
  | store c n => exact readsAs_store c n
  | label l => exact readsAs_label h
  | goto l => exact readsAs_jump "goto" .goto (by decide) h fun _ => rfl
  | ifTrue l => exact readsAs_jump "ifne" .ifTrue (by decide) h fun _ => rfl
  | jumpIf t l =>
    have ht : IsWord t.text ∧ ∀ w, readOperand t.text w = (Label.read? w).map (.jumpIf t) := by
      cases t with
      | words r => cases r <;> exact ⟨by decide, fun _ => rfl⟩
      | sameReference | otherReference => exact ⟨by decide, fun _ => rfl⟩
    exact readsAs_jump t.text (.jumpIf t) ht.1 h ht.2
  | new c => exact .two (v := "new") (by decide) h rfl
  | newObjectArray c => exact .two (v := "anewarray") (by decide) h rfl
  | newIntArray =>
    exact .two (v := "newarray") (w := "int") (by decide) (by decide) rfl
  | newBoolArray =>
    exact .two (v := "newarray") (w := "boolean") (by decide) (by decide) rfl
  | getField o f t =>
    obtain ⟨ho, hf, hslash, ht⟩ := h
    exact readsAs_field "getfield" .getField (by decide) ho hf hslash ht fun _ _ => rfl
  | putField o f t =>
    obtain ⟨ho, hf, hslash, ht⟩ := h
    exact readsAs_field "putfield" .putField (by decide) ho hf hslash ht fun _ _ => rfl
  | invoke d o m t =>
    obtain ⟨ho, hpo, hm, hpm, hslash, ht⟩ := h
    have hd : IsWord d.text ∧ ∀ w, readOperand d.text w = readInvoke d w := by
      cases d <;> exact ⟨by decide, fun _ => rfl⟩
    exact readsAs_invoke hd.1 ho hpo hm hpm hslash ht hd.2
  | word op => cases op <;> exact .one (by decide) (by decide)
  | arrayLoad c | arrayStore c => cases c <;> exact .one (by decide) (by decide)
  | pushNull | negate | pop | arrayLength => exact .one (by decide) (by decide)
  | ret c =>
    cases c with
    | none => exact .one (by decide) (by decide)
    | some c => cases c <;> exact .one (by decide) (by decide)

theorem rows_cons {line : String} (h : '\n' ∉ line.toList) (rest : String) :
    rows (line ++ "\n" ++ rest) = words line.toList :: rows rest := by
  have hlist : (line ++ "\n" ++ rest).toList = line.toList ++ '\n' :: rest.toList := by simp
  have hsolid : ∀ c ∈ line.toList, (c == '\n') = false := by
    intro c hc
    rw [beq_eq_false_iff_ne]
    rintro rfl
    exact h hc
  rw [rows, hlist, List.splitOn, List.splitOnP_append_cons_of_forall_mem hsolid _ (by decide)]
  rfl

theorem words_indentation (cs : List Char) : words (indentation.toList ++ cs) = words cs := by
  have hblank : ∀ c cs, c.isWhitespace = true → words (c :: cs) = words cs := by
    intro c cs hc
    exact words_append_blank hc [] cs
  have hlist : indentation.toList ++ cs = ' ' :: ' ' :: ' ' :: ' ' :: cs := rfl
  rw [hlist, hblank _ _ rfl, hblank _ _ rfl, hblank _ _ rfl, hblank _ _ rfl]

theorem rows_indented {line : String} (h : '\n' ∉ line.toList) (rest : String) :
    rows (indentation ++ line ++ "\n" ++ rest) = words line.toList :: rows rest := by
  have hline : '\n' ∉ (indentation ++ line).toList := by simp [h, indentation]
  rw [rows_cons hline, String.toList_append, words_indentation]

theorem rows_render {l : Line} (h : '\n' ∉ l.text.toList) (rest : String) :
    rows (l.render ++ rest) = words l.text.toList :: rows rest := by
  unfold Line.render
  split
  · rw [String.empty_append, rows_cons h]
  · rw [rows_indented h]

namespace Line

theorem readAll_cons {row : List String} {l : Line} (h : read? row = some l)
    (rows : List (List String)) : readAll (row :: rows) = (readAll rows).map (l :: ·) := by
  have hend : row = [".end", "method"] → False := by
    rintro rfl
    cases h
  have hlimit : ∀ v w, row = [".limit", v, w] → False := by
    rintro v w rfl
    cases h
  rw [readAll.eq_4 _ _ hend hlimit, h]
  cases readAll rows <;> rfl

theorem readAll_rows {ls : List Line} (h : ∀ l ∈ ls, l.Legible) :
    readAll (rows (String.join (ls.map render) ++ ".end method\n")) = some (ls.map lettered) := by
  induction ls with
  | nil => decide +kernel
  | cons l ls ih =>
    obtain ⟨hl, hls⟩ := List.forall_mem_cons.1 h
    have hread := readsAs_text hl
    rw [List.map_cons, String.join_cons, String.append_assoc, rows_render hread.newline,
      readAll_cons hread.read, ih hls]
    rfl

end Line

def MethodAssembly.lettered (a : MethodAssembly) : MethodAssembly :=
  { a with blocks := a.lines.map fun l => [l.lettered] }

theorem words_after {opening : String} {ws : List String} {w : String}
    (h : ∃ front, opening.toList = front ++ [' '] ∧ words front = ws) (hw : IsWord w) :
    words (opening ++ w).toList = ws ++ [w] := by
  obtain ⟨front, hfront, rfl⟩ := h
  rw [String.toList_append, hfront, List.append_assoc, List.singleton_append, words_append_blank rfl,
    hw.words_eq]

theorem MethodAssembly.rows_text {a : MethodAssembly} (h : IsWord (a.name ++ a.type.text)) :
    ∃ row, readHeader row = some (a.isStatic, a.name ++ a.type.text) ∧
      rows a.text = row :: [".limit", "stack", "99"] :: [".limit", "locals", "99"] ::
        rows (String.join (a.lines.map Line.render) ++ ".end method\n") := by
  have hsplit : a.text = ".method public " ++ (if a.isStatic then "static " else "") ++
      (a.name ++ a.type.text) ++ "\n" ++
      (indentation ++ (".limit stack " ++ toString methodLimit) ++ "\n" ++
        (indentation ++ (".limit locals " ++ toString methodLimit) ++ "\n" ++
          (String.join (a.lines.map Line.render) ++ ".end method\n"))) := by
    unfold text
    simp only [String.append_assoc]
  have hopening : ∃ front, (".method public " ++ (if a.isStatic then "static " else "")).toList =
      front ++ [' '] ∧ words front = [".method", "public"] ++ if a.isStatic then ["static"] else [] := by
    cases a.isStatic with
    | false => exact ⟨".method public".toList, by decide +kernel, by decide +kernel⟩
    | true => exact ⟨".method public static".toList, by decide +kernel, by decide +kernel⟩
  have hline : '\n' ∉ (".method public " ++ (if a.isStatic then "static " else "") ++
      (a.name ++ a.type.text)).toList := by
    rw [String.toList_append, List.mem_append, not_or]
    refine ⟨?_, h.newline_notMem⟩
    cases a.isStatic <;> decide +kernel
  have hstack : words (".limit stack " ++ toString methodLimit).toList = [".limit", "stack", "99"] := by
    decide +kernel
  have hlocals :
      words (".limit locals " ++ toString methodLimit).toList = [".limit", "locals", "99"] := by
    decide +kernel
  refine ⟨words (".method public " ++ (if a.isStatic then "static " else "") ++
    (a.name ++ a.type.text)).toList, ?_, ?_⟩
  · rw [words_after hopening h]
    cases a.isStatic <;> rfl
  · rw [hsplit, rows_cons hline, rows_indented (by decide +kernel), rows_indented (by decide +kernel),
      hstack, hlocals]

theorem MethodAssembly.read?_text {a : MethodAssembly} (hn : IsWord a.name) (hname : '(' ∉ a.name.toList)
    (ht : a.type.Legible) (hl : ∀ l ∈ a.lines, l.Legible) : read? a.text = some a.lettered := by
  obtain ⟨row, hrow, htext⟩ := rows_text (hn.append ht.solid)
  simp only [read?, htext, hrow, readTyped_append hname ht.plain, Line.readAll,
    Line.readAll_rows hl, Option.bind_eq_bind, Option.bind_some]
  simp [lettered]

theorem Cell.admits_lettered (c : Cell) (x : Word) : c.lettered.admits x = c.admits x := by
  cases c <;> cases x <;> rfl

theorem Line.lettered_eq_label_iff {l : Line} {k : Label} : l.lettered = .label k ↔ l = .label k := by
  cases l <;> simp [lettered]

namespace MethodAssembly

variable {a : MethodAssembly}

@[simp] theorem lines_lettered : a.lettered.lines = a.lines.map Line.lettered := by
  rw [lines, lettered, ← List.flatMap_def, ← List.map_eq_flatMap]

theorem jump_lettered (s : MachineState) (l : Label) (stack : List Word) :
    a.lettered.jump s l stack = a.jump s l stack := by
  have hidx : (a.lines.map Line.lettered).idxOf? (.label l) = a.lines.idxOf? (.label l) := by
    induction a.lines with
    | nil => rfl
    | cons line ls ih =>
      rw [List.map_cons, List.idxOf?_cons, List.idxOf?_cons, ih]
      simp only [beq_iff_eq, Line.lettered_eq_label_iff]
  rw [jump, jump, lines_lettered, hidx]

theorem step_lettered (w : World) (s : MachineState) : a.lettered.step w s = a.step w s := by
  unfold step
  rw [lines_lettered, List.getElem?_map]
  cases a.lines[s.pc]? with
  | none => rfl
  | some line =>
    cases line with
    | ret c => cases c <;> simp [Line.lettered, Cell.admits_lettered]
    | load c n | store c n =>
      simp only [Option.map_some, Line.lettered, Line.effect, Cell.admits_lettered]
    | _ => simp only [Option.map_some, Line.lettered, jump_lettered]

theorem reaches_lettered {w : World} {s s' : MachineState} :
    a.lettered.Reaches w s s' ↔ a.Reaches w s s' := by
  simp only [Reaches, step_lettered]

theorem ends_lettered {w : World} {s : MachineState} {e : Ending} :
    a.lettered.Ends w s e ↔ a.Ends w s e := by
  simp only [Ends, reaches_lettered, step_lettered]

end MethodAssembly

end SingleClass
