import SingleClass.Proofs.Assembly.Selection
import SingleClass.Proofs.Lowering.Execution
set_option autoImplicit false

/-!
Assembly keeps the meaning of three-address code. Every label of a method stands on one line, so each
step of the code is a run of the machine from the first line of one instruction to the first line of
another (`Frame.Matches.step`).
-/

namespace SingleClass

def comparisonLabels (k : Nat) : List Label := [⟨"cmp_true", k⟩, ⟨"cmp_end", k⟩]

def comparisonCount : List Instr → Nat
  | [] => 0
  | i :: is => Frame.comparisons i + comparisonCount is

theorem Line.labels_of_plain {ls : List Line} (h : ∀ l ∈ ls, l.isControl = false) :
    Line.labels ls = [] :=
  List.filterMap_eq_nil_iff.2 fun l hl => (Line.passes_of_plain (h l hl)).2.1

namespace Frame

variable {f : Frame} {k : Nat} {i : Instr} {ls : List Line}

theorem Selects.plain (h : f.Selects k i ls) (hi : i.isControl = false) (hk : comparisons i = 0) :
    ∀ l ∈ ls, l.isControl = false := by
  cases h with
  | assignVar hl hs => simp [(moves_load hl).plain, (moves_storeVar hs).plain]
  | assignTemp hl hs => simp [(moves_load hl).plain, (moves_storeTemp hs).plain]
  | assignElement hls _ =>
    exact List.forall_mem_append.2 ⟨plain_loadAll hls, List.forall_mem_singleton.2 rfl⟩
  | binary hls hos hs =>
    rcases operator_cases hos with ⟨w, _, rfl⟩ | ⟨hw, _⟩
    · simp only [List.forall_mem_append, List.forall_mem_singleton]
      exact ⟨plain_loadAll hls, rfl, (moves_storeTemp hs).plain⟩
    · simp [comparisons, hw] at hk
  | unary hl hs =>
    rw [List.forall_mem_cons, List.forall_mem_append, List.forall_mem_singleton]
    exact ⟨(moves_load hl).plain, plain_unaryLines _, (moves_storeTemp hs).plain⟩
  | call hls _ hrs =>
    rw [List.forall_mem_append, List.forall_mem_cons]
    exact ⟨plain_loadAll hls, rfl, (plain_result hrs).2⟩
  | new hs =>
    rw [List.forall_mem_cons, List.forall_mem_singleton]
    exact ⟨rfl, (moves_storeTemp hs).plain⟩
  | newArray hl ha hs =>
    simp [(moves_load hl).plain, (moves_allocate ha).plain, (moves_storeTemp hs).plain]
  | arrayLoad hls _ hs =>
    rw [List.forall_mem_append, List.forall_mem_cons, List.forall_mem_singleton]
    exact ⟨plain_loadAll hls, rfl, (moves_storeTemp hs).plain⟩
  | arrayLength hl hs =>
    rw [List.forall_mem_cons, List.forall_mem_cons, List.forall_mem_singleton]
    exact ⟨(moves_load hl).plain, rfl, (moves_storeTemp hs).plain⟩
  | getField _ hs =>
    rw [List.forall_mem_cons, List.forall_mem_cons, List.forall_mem_singleton]
    exact ⟨rfl, rfl, (moves_storeTemp hs).plain⟩
  | putField hl _ =>
    rw [List.forall_mem_cons, List.forall_mem_cons, List.forall_mem_singleton]
    exact ⟨rfl, (moves_load hl).plain, rfl⟩
  | ret _ _ | goto | branch _ | label _ => cases hi

/-- The labels on the lines of an instruction, comparisons before it numbering `k`. -/
def ownLabels (k : Nat) (i : Instr) : List Label :=
  i.label?.toList ++ if comparisons i = 0 then [] else [⟨"cmp_true", k⟩, ⟨"cmp_end", k⟩]

theorem labels_operator {op : BinaryOp} {lt rt : Ty} (h : operator k op lt rt = .ok ls) (d : Temp)
    (l r : Operand) : Line.labels ls = ownLabels k (.binary d op l r) := by
  rcases operator_cases h with ⟨w, hw, rfl⟩ | ⟨hw, c, t, _, _, rfl⟩
  · have hcount : comparisons (.binary d op l r) = 0 := by simp [comparisons, hw]
    rw [ownLabels, hcount]
    rfl
  · have hcount : comparisons (.binary d op l r) = 1 := by simp [comparisons, hw]
    rw [ownLabels, hcount]
    rfl

theorem Selects.labels (h : f.Selects k i ls) : Line.labels ls = ownLabels k i := by
  by_cases hplain : i.isControl = false ∧ comparisons i = 0
  · have hlabel : i.label? = none := by
      cases i with
      | label _ => cases hplain.1
      | _ => rfl
    rw [Line.labels_of_plain (h.plain hplain.1 hplain.2), ownLabels, hlabel, if_pos hplain.2]
    rfl
  · cases h with
    | @binary d _ l r _ _ _ hls hos hs =>
      have hstore := Line.labels_of_plain (List.forall_mem_singleton.2 (moves_storeTemp hs).plain)
      rw [Line.labels_append, Line.labels_append, Line.labels_of_plain (plain_loadAll hls), hstore,
        List.append_nil, List.nil_append, labels_operator hos d l r]
    | ret hls hl =>
      obtain ⟨c, rfl⟩ := Line.eq_ret_of_leave hl
      rw [Line.labels_append, Line.labels_of_plain (plain_loadAll hls)]
      rfl
    | branch hc =>
      rw [Line.labels_cons, (Line.passes_of_plain (moves_load hc).plain).2.1]
      rfl
    | goto | label _ => rfl
    | assignVar _ _ | assignTemp _ _ | assignElement _ _ | unary _ _ | call _ _ _ | new _
    | newArray _ _ _ | arrayLoad _ _ _ | arrayLength _ _ | getField _ _ | putField _ _ =>
      exact absurd ⟨rfl, rfl⟩ hplain

theorem comparisons_cases (i : Instr) : comparisons i = 0 ∨ comparisons i = 1 ∧ i.label? = none := by
  cases i with
  | binary d op l r =>
    cases hw : op.word? with
    | none => exact .inr ⟨by simp [comparisons, hw], rfl⟩
    | some w => exact .inl (by simp [comparisons, hw])
  | _ => exact .inl rfl

theorem nodup_ownLabels (k : Nat) (i : Instr) : (ownLabels k i).Nodup := by
  unfold ownLabels
  rcases comparisons_cases i with hcount | ⟨hcount, hlabel⟩
  · rw [hcount, if_pos rfl, List.append_nil]
    cases i.label? <;> simp
  · rw [hcount, hlabel]
    simp

theorem mem_ownLabels {l : Label} :
    l ∈ ownLabels k i ↔ l ∈ i.label? ∨ ∃ j, k ≤ j ∧ j < k + comparisons i ∧ l ∈ comparisonLabels j := by
  unfold ownLabels
  rw [List.mem_append, Option.mem_toList]
  rcases comparisons_cases i with hcount | ⟨hcount, _⟩
  · rw [hcount, if_pos rfl]
    refine or_congr_right ⟨by simp, ?_⟩
    rintro ⟨j, hle, hlt, _⟩
    omega
  · rw [hcount, if_neg (by omega)]
    refine or_congr_right ⟨fun hl => ⟨k, by omega, by omega, hl⟩, ?_⟩
    rintro ⟨j, hle, hlt, hl⟩
    rwa [show j = k by omega] at hl

theorem mem_labels_selectAll {is : List Instr} {blocks : List (List Line)}
    (h : f.selectAll k is = .ok blocks) {l : Label} :
    l ∈ Line.labels blocks.flatten ↔
      l ∈ markers is ∨ ∃ j, k ≤ j ∧ j < k + comparisonCount is ∧ l ∈ comparisonLabels j := by
  induction is generalizing k blocks with
  | nil =>
    cases h
    simp [comparisonCount]
    omega
  | cons i is ih =>
    obtain ⟨ls, rest, hls, hrest, rfl⟩ := selectAll_cons_eq_ok.1 h
    have hcount : comparisonCount (i :: is) = comparisons i + comparisonCount is := rfl
    rw [List.flatten_cons, Line.labels_append, List.mem_append, hls.labels,
      mem_ownLabels, ih hrest, markers_cons, List.mem_append, Option.mem_toList, hcount]
    constructor
    · rintro ((hl | ⟨j, hle, hlt, hl⟩) | (hl | ⟨j, hle, hlt, hl⟩))
      · exact .inl (.inl hl)
      · exact .inr ⟨j, hle, by omega, hl⟩
      · exact .inl (.inr hl)
      · exact .inr ⟨j, by omega, by omega, hl⟩
    · rintro ((hl | hl) | ⟨j, hle, hlt, hl⟩)
      · exact .inl (.inl hl)
      · exact .inr (.inl hl)
      · by_cases hj : j < k + comparisons i
        · exact .inl (.inr ⟨j, hle, hj, hl⟩)
        · exact .inr (.inr ⟨j, by omega, by omega, hl⟩)

theorem of_mem_comparisonLabels {l : Label} (h : l ∈ comparisonLabels k) :
    l.kind ∉ structureKinds ∧ l.number = k := by
  simp only [comparisonLabels, List.mem_cons, List.not_mem_nil, or_false] at h
  rcases h with rfl | rfl
  · exact ⟨(by decide : "cmp_true" ∉ structureKinds), rfl⟩
  · exact ⟨(by decide : "cmp_end" ∉ structureKinds), rfl⟩

theorem nodup_labels_selectAll {is : List Instr} {blocks : List (List Line)}
    (h : f.selectAll k is = .ok blocks) (hm : (markers is).Nodup)
    (hkind : ∀ l ∈ markers is, l.kind ∈ structureKinds) : (Line.labels blocks.flatten).Nodup := by
  induction is generalizing k blocks with
  | nil =>
    cases h
    simp
  | cons i is ih =>
    obtain ⟨ls, rest, hls, hrest, rfl⟩ := selectAll_cons_eq_ok.1 h
    rw [markers_cons] at hm hkind
    rw [List.nodup_append] at hm
    obtain ⟨hown, hothers⟩ := List.forall_mem_append.1 hkind
    rw [List.flatten_cons, Line.labels_append, hls.labels]
    refine List.nodup_append.2 ⟨nodup_ownLabels k i, ih hrest hm.2.1 hothers, ?_⟩
    intro l hl l' hl' heq
    subst heq
    rw [mem_labels_selectAll hrest] at hl'
    rcases mem_ownLabels.1 hl with hl | ⟨j, hle, hlt, hl⟩ <;> rcases hl' with hl' | ⟨j', hle', hlt', hl'⟩
    · exact hm.2.2 l (Option.mem_toList.2 hl) l hl' rfl
    · exact (of_mem_comparisonLabels hl').1 (hown l (Option.mem_toList.2 hl))
    · exact (of_mem_comparisonLabels hl).1 (hothers l hl')
    · -- the comparisons behind an instruction have greater numbers
      have hj := (of_mem_comparisonLabels hl).2
      have hj' := (of_mem_comparisonLabels hl').2
      omega

theorem exists_selects {is : List Instr} {blocks : List (List Line)}
    (h : f.selectAll k is = .ok blocks) {j : Nat} (hi : is[j]? = some i) :
    ∃ n ls, blocks[j]? = some ls ∧ f.Selects n i ls := by
  induction is generalizing k blocks j with
  | nil => simp at hi
  | cons i' is ih =>
    obtain ⟨ls, rest, hls, hrest, rfl⟩ := selectAll_cons_eq_ok.1 h
    cases j with
    | zero =>
      cases hi
      exact ⟨k, ls, rfl, hls⟩
    | succ j => exact ih hrest hi

theorem length_selectAll {is : List Instr} {blocks : List (List Line)}
    (h : f.selectAll k is = .ok blocks) : blocks.length = is.length := by
  induction is generalizing k blocks with
  | nil =>
    cases h
    rfl
  | cons i is ih =>
    obtain ⟨ls, rest, _, hrest, rfl⟩ := selectAll_cons_eq_ok.1 h
    simp [ih hrest]

theorem exists_instr {is : List Instr} {blocks : List (List Line)}
    (h : f.selectAll k is = .ok blocks) {j : Nat} (hj : blocks[j]? = some ls) :
    ∃ n i, is[j]? = some i ∧ f.Selects n i ls := by
  obtain ⟨hlt, _⟩ := List.getElem?_eq_some_iff.1 hj
  rw [length_selectAll h] at hlt
  have hi := List.getElem?_eq_getElem hlt
  obtain ⟨n, ls', hblock, hselect⟩ := exists_selects h hi
  rw [hj] at hblock
  cases hblock
  exact ⟨n, _, hi, hselect⟩

end Frame

theorem flatten_split {blocks : List (List Line)} {j : Nat} {ls : List Line}
    (h : blocks[j]? = some ls) :
    blocks.flatten = (blocks.take j).flatten ++ (ls ++ (blocks.drop (j + 1)).flatten) := by
  obtain ⟨hj, hls⟩ := List.getElem?_eq_some_iff.1 h
  rw [← List.flatten_cons, ← hls, ← List.drop_eq_getElem_cons hj, ← List.flatten_append,
    List.take_append_drop]

theorem MethodAssembly.located_block {a : MethodAssembly} {j : Nat} {ls : List Line}
    (h : a.blocks[j]? = some ls) :
    Located a.lines (a.start j) ls ∧ a.start (j + 1) = a.start j + ls.length := by
  constructor
  · unfold Located MethodAssembly.start MethodAssembly.lines
    rw [flatten_split h, List.drop_left]
    exact List.prefix_append _ _
  · unfold MethodAssembly.start
    rw [List.take_add_one, h]
    simp

namespace Frame

/-- The lines of a method that can be assembled as a whole. -/
structure Assembles (f : Frame) (a : MethodAssembly) : Prop where
  blocks : f.selectAll 0 f.method.instrs = .ok a.blocks
  returnTy : ∃ d, f.unit.fieldType f.method.returnTy = .ok d

theorem Assembles.forall_lines {f : Frame} {a : MethodAssembly} (ha : f.Assembles a)
    {P : Line → Prop} (h : ∀ n i ls, i ∈ f.method.instrs → f.Selects n i ls → ∀ l ∈ ls, P l) :
    ∀ l ∈ a.lines, P l := by
  intro l hl
  obtain ⟨ls, hls, hl⟩ := List.mem_flatten.1 hl
  obtain ⟨j, hj⟩ := List.getElem?_of_mem hls
  obtain ⟨n, i, hi, hselects⟩ := exists_instr ha.blocks hj
  exact h n i ls (List.mem_of_getElem? hi) hselects l hl

/-- The machine is about to do what the code is about to do: it is at the first line of the
instruction, its stack is empty, and its registers represent the environment. -/
structure Matches (f : Frame) (a : MethodAssembly) (w : World) (c : Config) (s : MachineState) :
    Prop where
  pc : s.pc = a.start c.pc
  stack : s.activation.stack = []
  registers : f.Represents w c.env s.activation.registers
  memory : s.memory = c.memory

section

variable {f : Frame} {s : Scope} {V : Prop} {w : World} {a : MethodAssembly} {env : Env}
  {registers : Nat → Option Word} {μ : Memory} {pc : Nat}

theorem Assembles.labels_nodup (ha : f.Assembles a) (hf : f.InOrder s V) :
    (Line.labels a.lines).Nodup :=
  nodup_labels_selectAll ha.blocks hf.typed.markers hf.typed.kinds

theorem Assembles.idxOf?_label (ha : f.Assembles a) (hf : f.InOrder s V) {l : Label} {position : Nat}
    (hl : f.method.labels.position? l = some position) :
    a.lines.idxOf? (.label l) = some (a.start position) := by
  rw [hf.typed.labels] at hl
  have hmarker := LabelTable.marker_of_position? hf.typed.markers hl
  obtain ⟨n, ls, hblock, hls⟩ := exists_selects ha.blocks hmarker
  cases hls with
  | label _ => exact Line.idxOf?_label (ha.labels_nodup hf) (MethodAssembly.located_block hblock).1.head

def Follows (f : Frame) (a : MethodAssembly) (w : World) (s : MachineState) : Progress → Prop
  | .running c => ∃ s', a.Reaches w s s' ∧ f.Matches a w c s'
  | .finished e => a.Ends w s e.ending

theorem Follows.jump (ha : f.Assembles a) (hf : f.InOrder s V) {l : Label} {p : Progress}
    {start : MachineState} (h : f.Represents w env registers)
    (hp : f.method.jump ⟨pc, env, μ⟩ l = some p)
    (hreach : ∀ position, a.lines.idxOf? (.label l) = some position →
      a.Reaches w start ⟨position, ⟨registers, []⟩, μ⟩) : f.Follows a w start p := by
  unfold MethodCode.jump at hp
  obtain ⟨position, hl, rfl⟩ := Option.map_eq_some_iff.1 hp
  exact ⟨_, hreach _ (ha.idxOf?_label hf hl), rfl, rfl, h, rfl⟩

theorem Follows.plain (hf : f.InOrder s V) (ha : f.Assembles a) {i : Instr}
    (hi : f.method.instrs[pc]? = some i) (hcontrol : i.isControl = false) {p : Progress}
    (h : f.Represents w env registers)
    (hp : (match i.effect w env μ with
      | .returns env memory => some (.running { pc := pc + 1, env, memory })
      | .fails memory => some (.finished (.failed memory))
      | .diverges => none) = some p) :
    f.Follows a w ⟨a.start pc, ⟨registers, []⟩, μ⟩ p := by
  obtain ⟨n, ls, hblock, hls⟩ := exists_selects ha.blocks hi
  obtain ⟨hat, hnext⟩ := MethodAssembly.located_block hblock
  have hem := h.emulates hf (List.mem_of_getElem? hi) hcontrol hls hat (ha.labels_nodup hf) μ
  cases he : i.effect w env μ with
  | returns env' μ' =>
    rw [he] at hem hp
    obtain ⟨s', hreach, hstack, h'⟩ := hem
    cases hp
    exact ⟨_, hreach, hnext.symm, hstack, h', rfl⟩
  | fails μ' =>
    rw [he] at hem hp
    cases hp
    exact hem
  | diverges =>
    rw [he] at hp
    cases hp

theorem Follows.branch (hf : f.InOrder s V) (ha : f.Assembles a) {o : Operand} {l : Label}
    (hi : f.method.instrs[pc]? = some (.branch o l)) {p : Progress} (h : f.Represents w env registers)
    (hp : f.method.step w ⟨pc, env, μ⟩ = some p) :
    f.Follows a w ⟨a.start pc, ⟨registers, []⟩, μ⟩ p := by
  obtain ⟨n, ls, hblock, hls⟩ := exists_selects ha.blocks hi
  obtain ⟨hat, hnext⟩ := MethodAssembly.located_block hblock
  cases hls with
  | branch hld =>
    cases hf.typed.code _ (List.mem_of_getElem? hi) with
    | branch ho =>
      have hload := h.emulates_load hf ho hld hat.head [] μ
      have htest := hat.tail.head
      simp only [MethodCode.step, hi] at hp
      cases hread : o.read w env with
      | none =>
        rw [hread] at hload hp
        cases hp
        exact hload
      | some v =>
        rw [hread] at hload hp
        obtain ⟨_, hreach, rfl, hv⟩ := hload
        obtain ⟨b, rfl⟩ := Ty.fits_boolean hv
        cases b with
        | true =>
          refine Follows.jump ha hf h hp fun position hl => hreach.trans (.single ?_)
          simp only [MethodAssembly.step, htest, MethodAssembly.jump, hl]
          rfl
        | false =>
          cases hp
          refine ⟨⟨a.start pc + 2, ⟨registers, []⟩, μ⟩, hreach.trans (.single ?_), hnext.symm, rfl, h,
            rfl⟩
          simp only [MethodAssembly.step, htest]
          rfl

theorem leave_eq_ok {t : Ty} {l : Line} (h : Line.leave t = .ok l)
    (harray : t.isVoid = true → t.isArray = false) :
    t.isVoid = true ∧ l = .ret none ∨
      t.isVoid = false ∧ ∃ c, Cell.of t = .ok c ∧ l = .ret (some c) := by
  unfold Line.leave at h
  cases hv : t.isVoid with
  | true =>
    rw [hv, harray hv] at h
    cases h
    exact .inl ⟨rfl, rfl⟩
  | false =>
    rw [hv] at h
    simp only [Bool.false_and, Bool.false_eq_true, if_false] at h
    obtain ⟨c, hc, rfl⟩ := map_eq_ok_iff.1 h
    exact .inr ⟨rfl, c, hc, rfl⟩

theorem Follows.ret (hf : f.InOrder s V) (ha : f.Assembles a) {v : Option Operand}
    (hi : f.method.instrs[pc]? = some (.ret v)) {p : Progress} (h : f.Represents w env registers)
    (hp : f.method.step w ⟨pc, env, μ⟩ = some p) :
    f.Follows a w ⟨a.start pc, ⟨registers, []⟩, μ⟩ p := by
  obtain ⟨n, ls, hblock, hls⟩ := exists_selects ha.blocks hi
  obtain ⟨hat, _⟩ := MethodAssembly.located_block hblock
  obtain ⟨d, hd⟩ := ha.returnTy
  cases hls with
  | ret hms hl =>
    have hleave := leave_eq_ok hl (ClassCode.encodes_of_fieldType hd).array
    rw [hf.typed.returnTy] at hleave
    cases hf.typed.code _ (List.mem_of_getElem? hi) with
    | retNone hvoid =>
      cases loadAll_nil_eq_ok.1 hms
      simp only [hvoid, true_and, Bool.true_eq_false, false_and, or_false] at hleave
      subst hleave
      simp only [MethodCode.step, hi, Option.some.injEq] at hp
      subst hp
      exact ⟨_, .refl, by simp only [MethodAssembly.step, hat.head]; rfl⟩
    | retSome hvoid ho =>
      simp only [hvoid, Bool.false_eq_true, false_and, false_or, true_and] at hleave
      obtain ⟨c, hc, rfl⟩ := hleave
      obtain ⟨ld, _, hld, hnil, rfl⟩ := loadAll_cons_eq_ok.1 hms
      cases loadAll_nil_eq_ok.1 hnil
      have hload := h.emulates_load hf ho hld hat.head [] μ
      simp only [MethodCode.step, hi] at hp
      rename_i o _
      cases hread : o.read w env with
      | none =>
        rw [hread] at hload hp
        cases hp
        exact hload
      | some x =>
        rw [hread] at hload hp
        obtain ⟨_, hreach, rfl, hx⟩ := hload
        cases hp
        have hcell := Ty.cell_of_fits hc (Ty.fits_of_asValue (Ty.asValue_asValue _) hx)
        refine ⟨_, hreach, ?_⟩
        simp only [MethodAssembly.step, hat.tail.head, Value.admits_word hcell, if_true]
        rfl

/-- One step of the code is a run of the machine. -/
theorem Matches.step (hf : f.InOrder s V) (ha : f.Assembles a) {c : Config} {k : MachineState}
    (hk : f.Matches a w c k) {p : Progress} (hp : f.method.step w c = some p) :
    f.Follows a w k p := by
  obtain ⟨pc, env, μ⟩ := c
  obtain ⟨pc', ⟨registers, stack⟩, μ'⟩ := k
  obtain ⟨hpc, hstack, h, hμ⟩ := hk
  simp only at hpc hstack h hμ
  subst hpc hstack hμ
  cases hi : f.method.instrs[pc]? with
  | none => simp [MethodCode.step, hi] at hp
  | some i =>
    cases hcontrol : i.isControl with
    | false =>
      rw [MethodCode.step_plain hi hcontrol] at hp
      exact .plain hf ha hi hcontrol h hp
    | true =>
      cases i with
      | ret v => exact .ret hf ha hi h hp
      | branch o l => exact .branch hf ha hi h hp
      | goto l =>
        obtain ⟨n, ls, hblock, hls⟩ := exists_selects ha.blocks hi
        cases hls
        have hat := (MethodAssembly.located_block hblock).1
        simp only [MethodCode.step, hi] at hp
        exact Follows.jump ha hf h hp fun position hl =>
          MethodAssembly.reaches_goto hat.head hl _ _
      | label l =>
        obtain ⟨n, ls, hblock, hls⟩ := exists_selects ha.blocks hi
        cases hls
        obtain ⟨hat, hnext⟩ := MethodAssembly.located_block hblock
        rw [MethodCode.step_label hi] at hp
        cases hp
        exact ⟨_, MethodAssembly.reaches_label hat.head _ _, hnext.symm, rfl, h, rfl⟩
      | _ => simp [Instr.isControl] at hcontrol

/-- A run of the code to its end is a run of the machine. -/
theorem Matches.terminates (hf : f.InOrder s V) (ha : f.Assembles a) {c : Config} {k : MachineState}
    (hk : f.Matches a w c k) {e : Final} (he : f.method.terminates w c e) :
    a.Ends w k e.ending := by
  obtain ⟨n, hn⟩ := he
  induction n generalizing c k with
  | zero => cases hn
  | succ n ih =>
    rw [MethodCode.run] at hn
    cases hp : f.method.step w c with
    | none => simp [hp] at hn
    | some p =>
      have hfollows := hk.step hf ha hp
      rw [hp] at hn
      cases p with
      | finished e' =>
        cases hn
        exact hfollows
      | running c' =>
        obtain ⟨k', hreach, hk'⟩ := hfollows
        exact hreach.ends (ih hk' hn)

theorem InOrder.exists_represents (hf : f.InOrder s V)
    (hthis : f.method.isStatic = false → ∃ r, w.this = .ref r)
    (hvars : ∀ name v, f.method.var? name = some v → ∀ x, env (.var name) = some x →
      x.fits v.ty = true)
    (htemps : ∀ t ∈ f.method.temps, ∀ x, env (.temp t.id) = some x → x.fits t.ty = true) :
    ∃ registers, f.Represents w env registers := by
  classical
  obtain ⟨hdistinct, _, _⟩ := MethodCode.registers_spec hf.registers
  refine ⟨fun n => if h : ∃ slot, f.registers.get? slot = some n then (env h.choose).map Value.word
    else some w.this.word, ?_, ?_, hvars, htemps⟩
  · intro slot n hn
    have h : ∃ slot, f.registers.get? slot = some n := ⟨slot, hn⟩
    rw [dif_pos h, hdistinct.injective _ _ _ h.choose_spec hn]
  · intro hstatic
    obtain ⟨r, hr⟩ := hthis hstatic
    have hfree : ¬ ∃ slot, f.registers.get? slot = some 0 := by
      intro h
      have := (hdistinct.bounds _ _ h.choose_spec).1
      simp [hstatic] at this
    exact ⟨r, hr, by rw [dif_neg hfree, hr]; rfl⟩

end

end Frame

theorem ClassCode.frame_eq_ok {code : ClassCode} {m : MethodCode} {f : Frame}
    (h : code.frame m = .ok f) : f.unit = code ∧ f.method = m ∧ m.registers = .ok f.registers := by
  simp only [ClassCode.frame, bind_eq_ok_iff, pure_eq_ok_iff] at h
  obtain ⟨r, hr, rfl⟩ := h
  exact ⟨rfl, rfl, hr⟩

theorem ClassCode.assembles_of_assembleMethod {code : ClassCode} {m : MethodCode} {f : Frame}
    {a : MethodAssembly} (hf : code.frame m = .ok f) (h : code.assembleMethod m = .ok a) :
    f.Assembles a := by
  obtain ⟨hunit, hmethod, _⟩ := ClassCode.frame_eq_ok hf
  simp only [ClassCode.assembleMethod, hf, bind_eq_ok_iff, pure_eq_ok_iff] at h
  obtain ⟨_, hf', t, ht, blocks, hblocks, rfl⟩ := h
  obtain ⟨ps, r, _, hr, rfl⟩ := ClassCode.methodType_eq_ok ht
  cases hf'
  exact ⟨hmethod ▸ hblocks, r, by rw [hunit, hmethod]; exact hr⟩

theorem Program.Closed.inOrder {p : Program} (hp : p.Closed) (hd : p.analyze.diagnostics = [])
    {σ σ' : Supply} {code : ClassCode} (hl : (Symbols.ofProgram p).lower p σ = .ok code σ')
    {m : MethodCode} (hm : m ∈ code.methods) {f : Frame} (hf : code.frame m = .ok f) :
    ∃ d ∈ p.classDecl.methods, f.InOrder (p.scopeOf d) True := by
  obtain ⟨hunit, hmethod, hregisters⟩ := ClassCode.frame_eq_ok hf
  obtain ⟨d, hmem, htyped⟩ := hp.typed_of_lower hd hl (V := True) (fun _ _ _ _ _ _ _ => trivial) hm
  refine ⟨d, hmem, hmethod ▸ htyped, hmethod ▸ hregisters, ?_⟩
  obtain ⟨ms, _, rfl⟩ := Symbols.lower_eq_ok_iff.1 hl
  rw [hunit]
  exact hp.imports

end SingleClass
