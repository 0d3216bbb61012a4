import SingleClass.Code.Printer
import SingleClass.Proofs.Assembly.Reading
import SingleClass.Proofs.Assembly.Stack
import SingleClass.Proofs.Lowering.ControlFlow
set_option autoImplicit false

/-!
Labels of emitted assembly. The text of a label tells its kind and number apart (`Label.text_injective`),
the lines of a method carry the labels of its markers and two more for each comparison, and a jump is
to one of them (`ClassCode.linked_of_assembleMethod`).
-/

namespace SingleClass

theorem Label.text_injective : Function.Injective Label.text := by
  intro l l' h
  have hread := read?_text l
  rw [h, read?_text] at hread
  exact (Option.some.inj hread).symm

namespace Frame

variable {f : Frame}

def JumpsWithin (ls : List Line) (others : List Label) : Prop :=
  ∀ line ∈ ls, ∀ l ∈ line.target?, l ∈ Line.labels ls ∨ l ∈ others

theorem JumpsWithin.of_plain {ls : List Line} {others : List Label}
    (h : ∀ l ∈ ls, l.isControl = false) : JumpsWithin ls others := by
  intro line hline l hl
  rw [(Line.passes_of_plain (h line hline)).2.2] at hl
  cases hl

theorem JumpsWithin.append {ls ms : List Line} {others : List Label} (h : JumpsWithin ls others)
    (h' : JumpsWithin ms others) : JumpsWithin (ls ++ ms) others := by
  intro line hline l hl
  rw [Line.labels_append, List.mem_append]
  rcases List.mem_append.1 hline with hline | hline
  · exact (h line hline l hl).imp_left .inl
  · exact (h' line hline l hl).imp_left .inr

theorem jumpsWithin_operator {k : Nat} {op : BinaryOp} {l r : Ty} {ls : List Line}
    {others : List Label} (h : operator k op l r = .ok ls) : JumpsWithin ls others := by
  rcases operator_cases h with ⟨w, _, rfl⟩ | ⟨_, c, t, _, _, rfl⟩
  · exact .of_plain (List.forall_mem_singleton.2 rfl)
  · simp [JumpsWithin, compareLines, Line.target?, Line.labels_cons, Line.label?]

theorem Selects.jumpsWithin {k : Nat} {i : Instr} {ls : List Line} (h : f.Selects k i ls) :
    JumpsWithin ls i.target?.toList := by
  by_cases hplain : i.isControl = false ∧ comparisons i = 0
  · exact .of_plain (h.plain hplain.1 hplain.2)
  · cases h with
    | binary hls hos hs =>
      have hstore := (moves_storeTemp hs).plain
      exact .append (.of_plain (plain_loadAll hls))
        (.append (jumpsWithin_operator hos) (.of_plain (List.forall_mem_singleton.2 hstore)))
    | ret hls hl =>
      obtain ⟨c, rfl⟩ := Line.eq_ret_of_leave hl
      exact .append (.of_plain (plain_loadAll hls)) (by simp [JumpsWithin, Line.target?])
    | @branch _ l c hc =>
      have hload : JumpsWithin [c] [l] := .of_plain (List.forall_mem_singleton.2 (moves_load hc).plain)
      exact hload.append (by simp [JumpsWithin, Line.target?])
    | goto | label _ => simp [JumpsWithin, Line.target?, Instr.target?]
    | assignVar _ _ | assignTemp _ _ | assignElement _ _ | unary _ _ | call _ _ _ | new _
    | newArray _ _ _ | arrayLoad _ _ _ | arrayLength _ _ | getField _ _ | putField _ _ =>
      exact absurd ⟨rfl, rfl⟩ hplain

theorem jumpsWithin_selectAll {is : List Instr} {k : Nat} {blocks : List (List Line)}
    (h : f.selectAll k is = .ok blocks) : JumpsWithin blocks.flatten (targets is) := by
  induction is generalizing k blocks with
  | nil =>
    cases h
    simp [JumpsWithin]
  | cons i is ih =>
    obtain ⟨ls, rest, hls, hrest, rfl⟩ := selectAll_cons_eq_ok.1 h
    rw [List.flatten_cons, targets_cons]
    refine JumpsWithin.append ?_ ?_
    · intro line hline l hl
      exact (hls.jumpsWithin line hline l hl).imp_right (List.mem_append_left _)
    · intro line hline l hl
      exact (ih hrest line hline l hl).imp_right (List.mem_append_right _)

end Frame

/-- The lines of a method carry the labels of its markers and of its comparisons, each on one line, and
jump to no others. -/
structure MethodAssembly.Linked (a : MethodAssembly) (m : MethodCode) : Prop where
  /-- No two labels read the same. -/
  nodup : ((Line.labels a.lines).map Label.text).Nodup
  labels : ∀ l, l ∈ Line.labels a.lines ↔
    l ∈ markers m.instrs ∨ ∃ k < comparisonCount m.instrs, l ∈ comparisonLabels k
  jumps : ∀ line ∈ a.lines, ∀ l ∈ line.target?, l ∈ Line.labels a.lines

theorem ClassCode.linked_of_assembleMethod {c : ClassCode} {m : MethodCode} {a : MethodAssembly}
    (h : c.assembleMethod m = .ok a) (hm : m.Controlled) {n k : Nat} (hmarks : Marks n k m.instrs) :
    a.Linked m := by
  obtain ⟨f, hf, _⟩ := bind_eq_ok_iff.1 h
  obtain ⟨_, hmethod, _⟩ := frame_eq_ok hf
  have hblocks := (assembles_of_assembleMethod hf h).blocks
  rw [hmethod] at hblocks
  have hlabels : ∀ l, l ∈ Line.labels a.lines ↔
      l ∈ markers m.instrs ∨ ∃ k < comparisonCount m.instrs, l ∈ comparisonLabels k := by
    intro l
    rw [MethodAssembly.lines, Frame.mem_labels_selectAll hblocks]
    simp
  refine ⟨?_, hlabels, ?_⟩
  · exact (Frame.nodup_labels_selectAll hblocks hmarks.nodup hmarks.kind).map Label.text_injective
  · intro line hline l hl
    rcases Frame.jumpsWithin_selectAll hblocks line hline l hl with hown | htarget
    · exact hown
    · obtain ⟨i, hi, hl⟩ := List.mem_filterMap.1 htarget
      exact (hlabels l).2 (.inl (mem_markers.2 (hm.jumps i hi l hl)))

/-- Whatever lowering accepts, control stays in its method, in three-address code and in assembly. -/
theorem Symbols.controlled_of_lower {S : Symbols} {p : Program} {σ σ' : Supply} {code : ClassCode}
    (h : S.lower p σ = .ok code σ') :
    (markers code.instrs).Nodup ∧ ∀ m ∈ code.methods, m.Controlled ∧ m.KeepsRuns ∧
      ∀ a, code.assembleMethod m = .ok a → a.Linked m := by
  obtain ⟨ms, hms, rfl⟩ := lower_eq_ok_iff.1 h
  refine ⟨hms.marks.nodup, ?_⟩
  intro m hm
  obtain ⟨d, sig, σ₁, σ₂, body, _, hb, rfl⟩ := hms.of_mem hm
  have hcontrolled := hb.controlled
  exact ⟨hcontrolled, hcontrolled.keepsRuns, fun a ha =>
    ClassCode.linked_of_assembleMethod ha hcontrolled hb.marks⟩

/-- A class with findings, of two methods: one whose text ends in a loop around a loop, one with a
comparison in a branch behind a return. -/
def Program.maze : Program :=
  let var (n : String) : Expr := .name n {}
  let int (n : Int32) : Expr := .literal (.int n) {}
  { classDecl := {
      name := "Maze"
      methods := [
        { name := "walk", returns := { name := "int" }
          params := [{ type := { name := "int" }, name := "n" }]
          body := [.loop (.binary .lt (var "n") (int 9) {})
            (.cond (.binary .eq (var "n") (int 3) {}) (.ret (some (var "n")) {})
              (some (.loop (.binary .lt (var "n") (int 5) {})
                (.assign (var "n") (.binary .add (var "n") (int 1) {}) {}) {})) {}) {}] },
        { name := "rest", returns := { name := "void" }
          params := [{ type := { name := "boolean" }, name := "tired" }]
          body := [.cond (var "tired")
            (.block [.ret none {}, .expr (.binary .ge (int 1) (int 2) {}) {}] {}) none {}] }] } }

theorem Program.controlled_maze :
    maze.analyze.diagnostics ≠ [] ∧
      ∃ code σ', (Symbols.ofProgram maze).lower maze {} = .ok code σ' ∧
        (markers code.instrs).length = 10 ∧ (markers code.instrs).Nodup ∧
        ∀ m ∈ code.methods, m.Controlled ∧ m.KeepsRuns ∧
          ∃ a, code.assembleMethod m = .ok a ∧ a.Linked m := by
  have h : (((Symbols.ofProgram maze).lower maze).run' {}).any fun code =>
      (markers code.instrs).length = 10 && code.methods.all fun m => (code.assembleMethod m).isOk := by
    decide +kernel
  obtain ⟨code, σ', hl, h⟩ := Lower.exists_of_any h
  simp only [Bool.and_eq_true, decide_eq_true_eq, List.all_eq_true] at h
  obtain ⟨hnodup, hmethods⟩ := Symbols.controlled_of_lower hl
  refine ⟨by decide +kernel, code, σ', hl, h.1, hnodup, ?_⟩
  intro m hm
  obtain ⟨hcontrolled, hruns, hlinked⟩ := hmethods m hm
  obtain ⟨a, ha⟩ := exists_of_isOk (h.2 m hm)
  exact ⟨hcontrolled, hruns, a, ha, hlinked a ha⟩

end SingleClass
