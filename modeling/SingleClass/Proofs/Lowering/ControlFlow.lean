import SingleClass.Proofs.Lowering.Preservation
import SingleClass.Proofs.Lowering.Regularity
import SingleClass.Proofs.Lowering.SingleAssignment
set_option autoImplicit false

/-!
Control in three-address code. A unit marks each label once (`Symbols.LowersMethods.marks`), a jump has
its target in the same method, and a method ends in a return (`Scope.LowersBody.controlled`). Then a
run is at an instruction after every step, and only a call that does not come back leaves it without a
next one (`MethodCode.Controlled.keepsRuns`).
-/

namespace SingleClass

def Instr.target? : Instr → Option Label
  | .goto l | .branch _ l => some l
  | _ => none

def targets (code : List Instr) : List Label := code.filterMap Instr.target?

@[simp] theorem targets_nil : targets [] = [] := rfl

@[simp] theorem targets_append (c d : List Instr) : targets (c ++ d) = targets c ++ targets d :=
  List.filterMap_append

theorem targets_cons (i : Instr) (c : List Instr) : targets (i :: c) = i.target?.toList ++ targets c := by
  unfold targets
  rw [List.filterMap_cons]
  cases i.target? <;> rfl

theorem mem_markers {code : List Instr} {l : Label} : l ∈ markers code ↔ .label l ∈ code := by
  unfold markers
  rw [List.mem_filterMap]
  constructor
  · rintro ⟨i, hi, hl⟩
    cases i with
    | label l' =>
      cases hl
      exact hi
    | _ => cases hl
  · intro h
    exact ⟨_, h, rfl⟩

/-- Every jump has its target in the code, and the code does not end in a jump. -/
structure Enclosed (code : List Instr) : Prop where
  jumps : targets code ⊆ markers code
  last : ∀ i ∈ code.getLast?, i.endsBlock = true → i.isReturn = true

namespace Enclosed

theorem nil : Enclosed [] := ⟨List.nil_subset _, by simp⟩

theorem append {code rest : List Instr} (h : Enclosed code) (hr : Enclosed rest) :
    Enclosed (code ++ rest) := by
  constructor
  · rw [targets_append, markers_append]
    intro l hl
    rcases List.mem_append.1 hl with hl | hl
    · exact List.mem_append_left _ (h.jumps hl)
    · exact List.mem_append_right _ (hr.jumps hl)
  · intro i hi
    cases hrest : rest.getLast? with
    | none =>
      rw [List.getLast?_eq_none_iff.1 hrest, List.append_nil] at hi
      exact h.last i hi
    | some j =>
      rw [List.getLast?_append, hrest, Option.some_or] at hi
      exact hr.last i (hrest ▸ hi)

theorem single {i : Instr} (ht : i.target? = none) (hi : i.endsBlock = true → i.isReturn = true) :
    Enclosed [i] := by
  constructor
  · simp [targets, ht]
  · intro j hj
    cases hj
    exact hi

end Enclosed

theorem targets_of_plain {code : List Instr} (h : ∀ i ∈ code, i.isControl = false) :
    targets code = [] := by
  unfold targets
  rw [List.filterMap_eq_nil_iff]
  intro i hi
  have hplain := h i hi
  cases i <;> simp_all [Instr.isControl, Instr.target?]

theorem Straight.enclosed {σ σ' : Supply} {code : List Instr} (h : Straight σ σ' code) :
    Enclosed code := by
  constructor
  · rw [targets_of_plain h.plain]
    exact List.nil_subset _
  · intro i hi
    have hplain := h.plain i (List.mem_of_getLast? hi)
    cases i <;> simp_all [Instr.isControl, Instr.endsBlock]

theorem Enclosed.cond {σ σ' : Supply} {n : Nat} {cf : Fragment} {tc ec : List Instr}
    (hc : Straight σ σ' cf.code) (ht : Enclosed tc) (he : Enclosed ec) :
    Enclosed (condCode n cf tc ec) := by
  constructor
  · have htargets : targets (condCode n cf tc ec) =
        ⟨"then", n⟩ :: (targets ec ++ ⟨"endif", n⟩ :: targets tc) := by
      simp [condCode, targets_cons, targets_of_plain hc.plain, Instr.target?]
    have hmarkers : markers (condCode n cf tc ec) =
        markers ec ++ ⟨"then", n⟩ :: (markers tc ++ [⟨"endif", n⟩]) := by
      simp [condCode, markers_cons, hc.markers_eq, Instr.label?]
    rw [htargets, hmarkers]
    intro l hl
    have hthen := @ht.jumps l
    have helse := @he.jumps l
    simp only [List.mem_cons, List.mem_append, List.not_mem_nil, or_false] at hl ⊢
    tauto
  · intro i hi
    rw [Scope.getLast?_condCode] at hi
    cases hi
    simp [Instr.endsBlock]

theorem Enclosed.loop {σ σ' : Supply} {n : Nat} {cf : Fragment} {bc : List Instr}
    (hc : Straight σ σ' cf.code) (hb : Enclosed bc) : Enclosed (loopCode n cf bc) := by
  constructor
  · have htargets : targets (loopCode n cf bc) =
        ⟨"whilebody", n⟩ :: ⟨"whileend", n⟩ :: (targets bc ++ [⟨"whilecond", n⟩]) := by
      simp [loopCode, targets_cons, targets_of_plain hc.plain, Instr.target?]
    have hmarkers : markers (loopCode n cf bc) =
        ⟨"whilecond", n⟩ :: ⟨"whilebody", n⟩ :: (markers bc ++ [⟨"whileend", n⟩]) := by
      simp [loopCode, markers_cons, hc.markers_eq, Instr.label?]
    rw [htargets, hmarkers]
    intro l hl
    have hbody := @hb.jumps l
    simp only [List.mem_cons, List.mem_append, List.not_mem_nil, or_false] at hl ⊢
    tauto
  · intro i hi
    rw [Scope.getLast?_loopCode] at hi
    cases hi
    simp [Instr.endsBlock]

namespace Scope

mutual

theorem LowersStmt.enclosed {s : Scope} {t : Stmt} {σ σ' : Supply} {code : List Instr}
    (h : s.LowersStmt t σ code σ') : Enclosed code :=
  match h with
  | .block h => h.enclosed
  | .condThen hc ht => .cond hc.straight.1 ht.enclosed .nil
  | .condElse hc he ht => .cond hc.straight.1 ht.enclosed he.enclosed
  | .loop hc hb => .loop hc.straight.1 hb.enclosed
  | .expr h => h.straight.enclosed
  | .assign h => h.straight.enclosed
  | .retNone => .single rfl fun _ => rfl
  | .retSome h => h.straight.1.enclosed.append (.single rfl fun _ => rfl)

theorem LowersBody.enclosed {s : Scope} {ts : List Stmt} {σ σ' : Supply} {code : List Instr}
    (h : s.LowersBody ts σ code σ') : Enclosed code :=
  match h with
  | .nil => .nil
  | .cons ht hs => ht.enclosed.append hs.enclosed

end

theorem enclosed_closing (ret : Ty) (code : List Instr) : Enclosed (closing ret code) := by
  unfold closing
  split <;> split
  · exact .nil
  · exact .single rfl fun _ => rfl
  · exact .nil
  · exact .single rfl fun _ => rfl

end Scope

/-- Control stays in the code: the table has the places of the markers, jumps go to markers, and the
code ends in a return. -/
structure MethodCode.Controlled (m : MethodCode) : Prop where
  table : ∀ l k, m.labels.position? l = some k ↔ m.instrs[k]? = some (.label l)
  jumps : ∀ i ∈ m.instrs, ∀ l ∈ i.target?, .label l ∈ m.instrs
  ends : ∃ v, m.instrs.getLast? = some (.ret v)

theorem Scope.LowersBody.marks {s : Scope} {ts : List Stmt} {σ σ' : Supply} {body : List Instr}
    (h : s.LowersBody ts σ body σ') : Marks σ.labels σ'.labels (s.methodCode body).instrs :=
  h.laid.labels.append (.none (markers_closing _ _) _)

theorem Scope.LowersBody.controlled {s : Scope} {ts : List Stmt} {σ σ' : Supply} {body : List Instr}
    (h : s.LowersBody ts σ body σ') : (s.methodCode body).Controlled := by
  have hall := h.enclosed.append (enclosed_closing s.method.returnTy.asValue body)
  have hnodup := h.marks.nodup
  refine ⟨?_, ?_, ?_⟩
  · intro l k
    exact ⟨LabelTable.marker_of_position? hnodup, LabelTable.position?_ofInstrs hnodup⟩
  · intro i hi l hl
    exact mem_markers.1 (hall.jumps (List.mem_filterMap.2 ⟨i, hi, hl⟩))
  · obtain ⟨i, hi, hends⟩ := endsBlock_closing s.method.returnTy.asValue body
    have hreturn := hall.last i hi hends
    cases i with
    | ret v => exact ⟨v, hi⟩
    | _ => cases hreturn

/-- A run from the first instruction is always at an instruction, and it lacks a next step only in a
call that does not come back. -/
def MethodCode.KeepsRuns (m : MethodCode) : Prop :=
  ∀ (w : World) (n : Nat) (c c' : Config), c.pc = 0 → m.Reaches w n c c' →
    ∃ i, m.instrs[c'.pc]? = some i ∧ (m.step w c' = none → i.effect w c'.env c'.memory = .diverges)

namespace MethodCode.Controlled

variable {m : MethodCode} (hm : m.Controlled) {w : World}

include hm

theorem length_pos : 0 < m.instrs.length := by
  obtain ⟨v, hv⟩ := hm.ends
  exact List.length_pos_iff.2 (List.ne_nil_of_mem (List.mem_of_getLast? hv))

theorem lt_of_not_isReturn {k : Nat} {i : Instr} (hi : m.instrs[k]? = some i)
    (hreturn : i.isReturn = false) : k + 1 < m.instrs.length := by
  obtain ⟨v, hv⟩ := hm.ends
  rw [List.getLast?_eq_getElem?] at hv
  have hk := (List.getElem?_eq_some_iff.1 hi).1
  by_contra hge
  have hlast : m.instrs.length - 1 = k := by omega
  rw [hlast, hi] at hv
  cases hv
  cases hreturn

theorem exists_position {k : Nat} {i : Instr} (hi : m.instrs[k]? = some i) {l : Label}
    (hl : i.target? = some l) :
    ∃ position, m.labels.position? l = some position ∧ position < m.instrs.length := by
  have hmem := hm.jumps i (List.mem_of_getElem? hi) l hl
  obtain ⟨position, hlt, heq⟩ := List.mem_iff_getElem.1 hmem
  exact ⟨position, (hm.table l position).2 (List.getElem?_eq_some_iff.2 ⟨hlt, heq⟩), hlt⟩

theorem step_cases {c : Config} {i : Instr} (hi : m.instrs[c.pc]? = some i) :
    (∃ c', m.step w c = some (.running c') ∧ c'.pc < m.instrs.length) ∨
      (∃ f, m.step w c = some (.finished f)) ∨
      m.step w c = none ∧ i.effect w c.env c.memory = .diverges := by
  obtain ⟨pc, env, μ⟩ := c
  dsimp only at hi ⊢
  cases hcontrol : i.isControl with
  | false =>
    have hreturn : i.isReturn = false := by
      cases i <;> simp_all [Instr.isControl, Instr.isReturn]
    rw [m.step_plain hi hcontrol]
    cases i.effect w env μ with
    | returns env' μ' => exact .inl ⟨_, rfl, hm.lt_of_not_isReturn hi hreturn⟩
    | fails μ' => exact .inr (.inl ⟨_, rfl⟩)
    | diverges => exact .inr (.inr ⟨rfl, rfl⟩)
  | true =>
    cases i with
    | label l => exact .inl ⟨_, m.step_label hi env μ, hm.lt_of_not_isReturn hi rfl⟩
    | goto l =>
      obtain ⟨position, hl, hlt⟩ := hm.exists_position hi rfl
      exact .inl ⟨_, m.step_goto hi hl env μ, hlt⟩
    | branch o l =>
      obtain ⟨position, hl, hlt⟩ := hm.exists_position hi rfl
      simp only [MethodCode.step, hi, MethodCode.jump, hl, Option.map_some]
      split
      · exact .inl ⟨_, rfl, hlt⟩
      · exact .inl ⟨_, rfl, hm.lt_of_not_isReturn hi rfl⟩
      · exact .inr (.inl ⟨_, rfl⟩)
    | ret v =>
      refine .inr (.inl ?_)
      cases v with
      | none => exact ⟨.returned none μ, by simp only [MethodCode.step, hi]⟩
      | some o =>
        simp only [MethodCode.step, hi]
        cases o.read w env <;> exact ⟨_, rfl⟩
    | _ => cases hcontrol

/-- A run does not fall off the code. -/
theorem lt_of_reaches {n : Nat} {c c' : Config} (h : m.Reaches w n c c')
    (hc : c.pc < m.instrs.length) : c'.pc < m.instrs.length := by
  induction h with
  | refl => exact hc
  | step hstep _ ih =>
    refine ih ?_
    obtain ⟨c₂, hc₂, hlt⟩ | ⟨f, hf⟩ | ⟨hnone, _⟩ :=
      hm.step_cases (w := w) (List.getElem?_eq_getElem hc)
    · rw [hstep] at hc₂
      cases hc₂
      exact hlt
    · rw [hstep] at hf
      cases hf
    · rw [hstep] at hnone
      cases hnone

theorem keepsRuns : m.KeepsRuns := by
  intro w n c c' hpc hreach
  have hi := List.getElem?_eq_getElem (hm.lt_of_reaches hreach (hpc ▸ hm.length_pos))
  refine ⟨_, hi, ?_⟩
  intro hnone
  obtain ⟨c₂, hc₂, _⟩ | ⟨f, hf⟩ | ⟨_, hdiverges⟩ := hm.step_cases (w := w) hi
  · rw [hnone] at hc₂
    cases hc₂
  · rw [hnone] at hf
    cases hf
  · exact hdiverges

end MethodCode.Controlled

namespace Symbols

theorem LowersMethods.marks {S : Symbols} {ds : List (MethodDecl × Signature)} {σ σ' : Supply}
    {ms : List MethodCode} (h : S.LowersMethods ds σ ms σ') :
    Marks σ.labels σ'.labels (ms.flatMap (·.instrs)) := by
  induction h with
  | nil => exact .none rfl _
  | cons hd _ ih => exact hd.marks.append ih

end Symbols

end SingleClass
