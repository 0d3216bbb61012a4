import SingleClass.Proofs.Assembly.Progress
set_option autoImplicit false

/-!
Registers are given out exactly: one to each name and one to each temporary that is defined, without
gaps from the first on, and there are enough of them just if these numbers fit
(`MethodCode.registers_exact`).
-/

namespace SingleClass

namespace Slot

theorem foldl_enlist_of_nodup {ss slots : List Slot} (h : (ss ++ slots).Nodup) :
    slots.foldl enlist ss = ss ++ slots := by
  induction slots generalizing ss with
  | nil => simp
  | cons s slots ih =>
    have hs : s ∉ ss := by
      intro hmem
      exact (List.nodup_append.1 h).2.2 s hmem s List.mem_cons_self rfl
    rw [List.foldl_cons, enlist, if_neg hs, ih (by simpa using h)]
    simp

theorem isPrefix_firsts_append {front : List Slot} (h : front.Nodup) (rest : List Slot) :
    front <+: firsts (front ++ rest) := by
  have hfront : front.foldl enlist [] = [] ++ front := foldl_enlist_of_nodup h
  have hprefix := isPrefix_foldl_enlist rest (front.foldl enlist [])
  rw [hfront, List.nil_append] at hprefix
  rwa [firsts, List.foldl_append, hfront, List.nil_append]

end Slot

theorem Temp.mem_ids_firstDefinitions (code : List Instr) {id : Nat} :
    id ∈ (Temp.firstDefinitions code).map (·.id) ↔ id ∈ (definitions code).map (·.id) := by
  have hfold : ∀ ds ts : List Temp,
      id ∈ (ds.foldl (fun ts t => if ts.any (·.id = t.id) then ts else ts ++ [t]) ts).map (·.id) ↔
        id ∈ ts.map (·.id) ∨ id ∈ ds.map (·.id) := by
    intro ds
    induction ds with
    | nil => simp
    | cons d ds ih =>
      intro ts
      rw [List.foldl_cons, ih, List.map_cons, List.mem_cons, ← or_assoc]
      refine or_congr_left ?_
      split
      · next hd =>
        obtain ⟨t, ht, htd⟩ := List.any_eq_true.1 hd
        refine ⟨.inl, ?_⟩
        rintro (hts | rfl)
        · exact hts
        · exact List.mem_map.2 ⟨t, ht, by simpa using htd⟩
      · rw [List.map_append, List.mem_append, List.map_singleton, List.mem_singleton]
  have hfirst := hfold (definitions code) []
  rw [List.map_nil] at hfirst
  exact hfirst.trans (or_iff_right List.not_mem_nil)

namespace MethodCode

/-- What has a register of its own: a name of the method, or a temporary that it defines. -/
def HasSlot (m : MethodCode) : Slot → Prop
  | .var name => name ∈ (m.params ++ m.locals).map (·.name)
  | .temp id => id ∈ (definitions m.instrs).map (·.id)

def slotCount (m : MethodCode) : Nat :=
  ((m.params ++ m.locals).map (·.name)).toFinset.card +
    ((definitions m.instrs).map (·.id)).toFinset.card

theorem mem_slots {m : MethodCode} {s : Slot} : s ∈ m.slots ↔ m.HasSlot s := by
  have hslots : m.slots = ((m.params ++ m.locals).map (·.name)).map Slot.var ++
      (m.temps.map (·.id)).map Slot.temp := by
    simp [slots, Function.comp_def]
  rw [hslots, List.mem_append]
  cases s with
  | var name =>
    rw [List.mem_map_of_injective fun _ _ => Slot.var.inj]
    simp [HasSlot]
  | temp id =>
    rw [List.mem_map_of_injective (f := Slot.temp) fun _ _ => Slot.temp.inj]
    simpa [HasSlot, temps] using Temp.mem_ids_firstDefinitions m.instrs

theorem card_slots (m : MethodCode) : m.slots.toFinset.card = m.slotCount := by
  have hunion : m.slots.toFinset =
      ((m.params ++ m.locals).map (·.name)).toFinset.image Slot.var ∪
        ((definitions m.instrs).map (·.id)).toFinset.image Slot.temp := by
    ext s
    rw [List.mem_toFinset, mem_slots]
    cases s <;>
      simp only [HasSlot, Finset.mem_union, Finset.mem_image, List.mem_toFinset, Slot.var.injEq,
        Slot.temp.injEq, reduceCtorEq, and_false, exists_false, or_false, false_or, exists_eq_right]
  have hdisjoint : Disjoint (((m.params ++ m.locals).map (·.name)).toFinset.image Slot.var)
      (((definitions m.instrs).map (·.id)).toFinset.image Slot.temp) := by
    rw [Finset.disjoint_left]
    intro s hvar htemp
    obtain ⟨name, _, rfl⟩ := Finset.mem_image.1 hvar
    simp at htemp
  rw [hunion, Finset.card_union_of_disjoint hdisjoint,
    Finset.card_image_of_injective _ fun _ _ => Slot.var.inj,
    Finset.card_image_of_injective _ fun _ _ => Slot.temp.inj, slotCount]

/-- The registers are those of the method, and there are no others between them. -/
structure Allocated (m : MethodCode) (r : Registers) : Prop where
  slots : ∀ s, (∃ n, r.get? s = some n) ↔ m.HasSlot s
  injective : ∀ s t n, r.get? s = some n → r.get? t = some n → s = t
  used : ∀ n, (∃ s, r.get? s = some n) ↔ m.firstRegister ≤ n ∧ n < m.firstRegister + m.slotCount
  next : r.next = m.firstRegister + m.slotCount
  receiver : m.isStatic = false → ∀ s, r.get? s ≠ some 0
  /-- A variable shares no register with a temporary, whatever its name. -/
  apart : ∀ name t n, r.var name = .ok n → r.temp t ≠ .ok n
  /-- A caller finds the parameters in order behind the receiver. -/
  params : (m.params.map (·.name)).Nodup →
    ∀ i v, m.params[i]? = some v → r.var v.name = .ok (m.firstRegister + i)

variable {m : MethodCode} {r : Registers}

theorem getElem?_firsts_of_param (h : (m.params.map (·.name)).Nodup) {i : Nat} {v : Symbol}
    (hv : m.params[i]? = some v) : (Slot.firsts m.slots)[i]? = some (.var v.name) := by
  have hnodup : (m.params.map (Slot.var ·.name)).Nodup := by
    have hmap := h.map (f := Slot.var) fun _ _ => Slot.var.inj
    rwa [List.map_map] at hmap
  have hslots : m.slots = m.params.map (Slot.var ·.name) ++
      (m.locals.map (Slot.var ·.name) ++ m.temps.map (Slot.temp ·.id)) := by
    simp [slots]
  have hslot : (m.params.map (Slot.var ·.name))[i]? = some (.var v.name) := by simp [hv]
  rw [hslots]
  obtain ⟨rest, hrest⟩ := Slot.isPrefix_firsts_append hnodup
    (m.locals.map (Slot.var ·.name) ++ m.temps.map (Slot.temp ·.id))
  rw [← hrest, List.getElem?_append_left (List.getElem?_eq_some_iff.1 hslot).1, hslot]

theorem length_firsts_slots (m : MethodCode) : (Slot.firsts m.slots).length = m.slotCount :=
  (Slot.length_firsts m.slots).trans m.card_slots

theorem allocated_of_registers (h : m.registers = .ok r) : m.Allocated r := by
  have hnumbers := numbers_registers h
  have hlength := m.length_firsts_slots
  obtain ⟨hdistinct, _, hslots⟩ := registers_spec h
  refine ⟨?_, hdistinct.injective, ?_, ?_, ?_, ?_, ?_⟩
  · intro s
    rw [← mem_slots]
    exact ⟨fun hs => mem_slots_of_get? h hs.choose_spec, hslots s⟩
  · intro n
    constructor
    · rintro ⟨s, hs⟩
      obtain ⟨i, hi, rfl⟩ := (hnumbers.get? s n).1 hs
      obtain ⟨hlt, _⟩ := List.getElem?_eq_some_iff.1 hi
      omega
    · rintro ⟨hle, hlt⟩
      have hi : n - m.firstRegister < (Slot.firsts m.slots).length := by omega
      exact ⟨_, (hnumbers.get? _ n).2 ⟨_, List.getElem?_eq_getElem hi, by omega⟩⟩
  · rw [hnumbers.next, hlength]
  · intro hstatic s hs
    have hbound := (hdistinct.bounds s 0 hs).1
    simp [hstatic] at hbound
  · intro name t n hvar htemp
    cases hdistinct.injective _ _ _ (Registers.var_eq_ok_iff.1 hvar)
      (Registers.temp_eq_ok_iff.1 htemp)
  · intro hnodup i v hv
    exact Registers.var_eq_ok_iff.2
      ((hnumbers.get? (.var v.name) _).2 ⟨i, getElem?_firsts_of_param hnodup hv, rfl⟩)

theorem registerCount_eq_slotCount (m : MethodCode) :
    m.registerCount = m.firstRegister + m.slotCount := by
  rw [registerCount, firstRegister, m.card_slots]

end MethodCode

theorem Registers.outOfRegisters_of_assignAll {slots : List Slot} {r : Registers} {e : Failure}
    (h : r.assignAll slots = .error e) : e = .outOfRegisters := by
  induction slots generalizing r with
  | nil => cases h
  | cons s slots ih =>
    unfold assignAll assign at h
    split at h
    · exact ih h
    · split at h
      · exact ih h
      · cases h
        rfl

/-- A method gets its registers just if there are enough of them, and then they are given out exactly;
nothing else can stand in the way. -/
theorem MethodCode.registers_exact (m : MethodCode) :
    ((∃ r, m.registers = .ok r) ↔ m.firstRegister + m.slotCount ≤ 65535) ∧
      (∀ r, m.registers = .ok r → m.Allocated r) ∧
      ∀ e, m.registers = .error e → e = .outOfRegisters := by
  refine ⟨?_, fun r => allocated_of_registers, fun e => Registers.outOfRegisters_of_assignAll⟩
  rw [exists_registers_iff, m.registerCount_eq_slotCount]
  rfl

/-- A name declared twice, a name like that of a temporary, and temporaries out of order of which one
is defined twice. -/
def MethodCode.medley : MethodCode where
  name := "medley"
  params := [{ name := "a", ty := .int }, { name := "tmp7", ty := .int }]
  locals := [{ name := "a", ty := .boolean }, { name := "b", ty := .int }]
  returnTy := .int
  instrs := [
    .unary ⟨7, .int⟩ .neg (.var "a" .int),
    .binary ⟨3, .int⟩ .add (.temp ⟨7, .int⟩) (.var "tmp7" .int),
    .unary ⟨7, .int⟩ .neg (.temp ⟨3, .int⟩),
    .ret (some (.temp ⟨7, .int⟩))]

theorem MethodCode.registers_medley :
    medley.firstRegister + medley.slotCount = 6 ∧
      ∃ r, medley.registers = .ok r ∧ medley.Allocated r := by
  have hcount : medley.firstRegister + medley.slotCount = 6 := by decide
  have hexact := medley.registers_exact
  obtain ⟨r, hr⟩ := hexact.1.2 (by omega)
  exact ⟨hcount, r, hr, hexact.2.1 r hr⟩

end SingleClass
