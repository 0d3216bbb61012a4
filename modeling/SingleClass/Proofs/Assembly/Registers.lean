import SingleClass.Assembly.Registers
set_option autoImplicit false

/-!
Registers of a method. Slots are numbered in the order in which they are met first, without gaps
(`Registers.Numbers`). So no two slots share a register, the receiver's is never given away, and every
slot of the method has one.
-/

namespace SingleClass

def Slot.enlist (ss : List Slot) (s : Slot) : List Slot := if s ∈ ss then ss else ss ++ [s]

/-- The slots in the order in which they are met first. -/
def Slot.firsts (slots : List Slot) : List Slot := slots.foldl enlist []

namespace Slot

theorem mem_enlist {ss : List Slot} {s t : Slot} : t ∈ enlist ss s ↔ t ∈ ss ∨ t = s := by
  unfold enlist
  split
  · next hs =>
    refine ⟨.inl, ?_⟩
    rintro (ht | rfl)
    · exact ht
    · exact hs
  · simp

theorem isPrefix_enlist (ss : List Slot) (s : Slot) : ss <+: enlist ss s := by
  unfold enlist
  split
  · exact List.prefix_refl ss
  · exact List.prefix_append ss [s]

theorem mem_foldl_enlist {slots ss : List Slot} {t : Slot} :
    t ∈ slots.foldl enlist ss ↔ t ∈ ss ∨ t ∈ slots := by
  induction slots generalizing ss with
  | nil => simp
  | cons s slots ih => rw [List.foldl_cons, ih, mem_enlist, List.mem_cons, or_assoc]

theorem isPrefix_foldl_enlist (slots ss : List Slot) : ss <+: slots.foldl enlist ss := by
  induction slots generalizing ss with
  | nil => exact List.prefix_refl ss
  | cons s slots ih => exact (isPrefix_enlist ss s).trans (ih _)

theorem nodup_foldl_enlist {slots ss : List Slot} (h : ss.Nodup) :
    (slots.foldl enlist ss).Nodup := by
  induction slots generalizing ss with
  | nil => exact h
  | cons s slots ih =>
    refine ih ?_
    unfold enlist
    split
    · exact h
    · next hs =>
      rw [List.nodup_append]
      refine ⟨h, by simp, ?_⟩
      rintro a ha b hb rfl
      exact hs (List.mem_singleton.1 hb ▸ ha)

theorem nodup_firsts (slots : List Slot) : (firsts slots).Nodup := nodup_foldl_enlist List.nodup_nil

@[simp] theorem mem_firsts {slots : List Slot} {t : Slot} : t ∈ firsts slots ↔ t ∈ slots := by
  simp [firsts, mem_foldl_enlist]

end Slot

namespace Registers

/-- The slots that have a register, in the order of their registers, which begin at `first`. -/
structure Numbers (first : Nat) (ss : List Slot) (r : Registers) : Prop where
  next : r.next = first + ss.length
  get? : ∀ s n, r.get? s = some n ↔ ∃ i, ss[i]? = some s ∧ n = first + i

theorem numbers_start (isStatic : Bool) : Numbers (start isStatic).next [] (start isStatic) :=
  ⟨rfl, by simp⟩

namespace Numbers

variable {first : Nat} {ss slots : List Slot} {r r' : Registers} {s t : Slot}

theorem get?_eq_none (h : Numbers first ss r) : r.get? s = none ↔ s ∉ ss := by
  constructor
  · intro hs hmem
    obtain ⟨i, hi⟩ := List.getElem?_of_mem hmem
    have := (h.get? s _).2 ⟨i, hi, rfl⟩
    simp [hs] at this
  · intro hs
    cases hn : r.get? s with
    | none => rfl
    | some n =>
      obtain ⟨i, hi, _⟩ := (h.get? s n).1 hn
      exact absurd (List.mem_of_getElem? hi) hs

theorem take (h : Numbers first ss r) (hs : s ∉ ss) : Numbers first (ss ++ [s]) (r.take s) := by
  refine ⟨?_, ?_⟩
  · rw [next_take, h.next, List.length_append, List.length_singleton, Nat.add_assoc]
  · intro t n
    rw [get?_take]
    by_cases hts : t = s
    · subst hts
      rw [if_pos rfl, h.next, Option.some.injEq]
      constructor
      · rintro rfl
        exact ⟨ss.length, by simp, rfl⟩
      · rintro ⟨i, hi, rfl⟩
        -- the slot is new, so it stands at the end only
        rcases Nat.lt_or_ge i ss.length with hlt | hge
        · rw [List.getElem?_append_left hlt] at hi
          exact absurd (List.mem_of_getElem? hi) hs
        · obtain ⟨hlt, _⟩ := List.getElem?_eq_some_iff.1 hi
          rw [List.length_append, List.length_singleton] at hlt
          omega
    · rw [if_neg hts, h.get?]
      refine exists_congr fun i => and_congr_left fun _ => ?_
      rcases Nat.lt_or_ge i ss.length with hlt | hge
      · rw [List.getElem?_append_left hlt]
      · rw [List.getElem?_append_right hge, List.getElem?_eq_none hge]
        cases i - ss.length with
        | zero => simp [Ne.symm hts]
        | succ k => simp

theorem assign (h : Numbers first ss r) (ha : r.assign s = .ok r') :
    Numbers first (Slot.enlist ss s) r' := by
  unfold Registers.assign at ha
  unfold Slot.enlist
  by_cases hs : s ∈ ss
  · have hsome : (r.get? s).isSome = true := by
      rw [Option.isSome_iff_ne_none, ne_eq, h.get?_eq_none]
      simpa using hs
    rw [if_pos hsome] at ha
    cases ha
    rwa [if_pos hs]
  · rw [h.get?_eq_none.2 hs, if_neg (by simp)] at ha
    split at ha
    · cases ha
      rw [if_neg hs]
      exact h.take hs
    · cases ha

theorem assignAll (h : Numbers first ss r) (ha : r.assignAll slots = .ok r') :
    Numbers first (slots.foldl Slot.enlist ss) r' := by
  induction slots generalizing r ss with
  | nil =>
    cases ha
    exact h
  | cons s slots ih =>
    unfold Registers.assignAll at ha
    cases hs : r.assign s with
    | error e =>
      rw [hs] at ha
      cases ha
    | ok r₁ =>
      rw [hs] at ha
      exact ih (h.assign hs) ha

theorem exists_assignAll_iff (h : Numbers first ss r) (hr : first + ss.length ≤ registerLimit) :
    (∃ r', r.assignAll slots = .ok r') ↔
      first + (slots.foldl Slot.enlist ss).length ≤ registerLimit := by
  induction slots generalizing r ss with
  | nil => exact ⟨fun _ => hr, fun _ => ⟨r, rfl⟩⟩
  | cons s slots ih =>
    have hstep : r.assignAll (s :: slots) = r.assign s >>= fun r₁ => r₁.assignAll slots := rfl
    rw [hstep, List.foldl_cons]
    cases hs : r.assign s with
    | ok r₁ =>
      have h₁ := h.assign hs
      have hr₁ : first + (Slot.enlist ss s).length ≤ registerLimit := by
        unfold Registers.assign at hs
        unfold Slot.enlist
        split
        · exact hr
        · next hmem =>
          rw [h.get?_eq_none.2 hmem, if_neg (by simp), h.next] at hs
          split at hs
          · rw [List.length_append, List.length_singleton]
            omega
          · cases hs
      exact ih h₁ hr₁
    | error e =>
      -- the slot is a new one, and what comes behind it takes no register back
      have hfull : s ∉ ss ∧ registerLimit ≤ first + ss.length := by
        unfold Registers.assign at hs
        split at hs
        · cases hs
        · next hnone =>
          rw [h.next] at hs
          split at hs
          · cases hs
          · exact ⟨h.get?_eq_none.1 (by simpa using hnone), by omega⟩
      have hle := (Slot.isPrefix_foldl_enlist slots (Slot.enlist ss s)).length_le
      rw [Slot.enlist, if_neg hfull.1, List.length_append, List.length_singleton] at hle
      constructor
      · rintro ⟨r', hr'⟩
        cases hr'
      · intro hfits
        rw [Slot.enlist, if_neg hfull.1] at hfits
        omega

end Numbers

structure Distinct (first : Nat) (r : Registers) : Prop where
  le : first ≤ r.next
  bounds : ∀ s n, r.get? s = some n → first ≤ n ∧ n < r.next
  injective : ∀ s t n, r.get? s = some n → r.get? t = some n → s = t

theorem Numbers.distinct {first : Nat} {ss : List Slot} {r : Registers} (h : Numbers first ss r) :
    Distinct first r := by
  refine ⟨?_, ?_, ?_⟩
  · rw [h.next]
    omega
  · intro s n hs
    obtain ⟨i, hi, rfl⟩ := (h.get? s n).1 hs
    obtain ⟨hlt, _⟩ := List.getElem?_eq_some_iff.1 hi
    rw [h.next]
    omega
  · intro s t n hs ht
    obtain ⟨i, hi, rfl⟩ := (h.get? s n).1 hs
    obtain ⟨j, hj, hij⟩ := (h.get? t _).1 ht
    obtain rfl : i = j := by omega
    exact Option.some.inj (hi.symm.trans hj)

theorem var_eq_ok_iff {r : Registers} {name : String} {n : Nat} :
    r.var name = .ok n ↔ r.get? (.var name) = some n := by
  unfold var
  cases r.get? (.var name) <;> simp

theorem temp_eq_ok_iff {r : Registers} {t : Temp} {n : Nat} :
    r.temp t = .ok n ↔ r.get? (.temp t.id) = some n := by
  unfold temp
  cases r.get? (.temp t.id) <;> simp

@[simp] theorem isStatic_take (r : Registers) (s : Slot) : (r.take s).isStatic = r.isStatic := by
  cases s <;> rfl

theorem isStatic_assignAll {slots : List Slot} {r r' : Registers} (h : r.assignAll slots = .ok r') :
    r'.isStatic = r.isStatic := by
  induction slots generalizing r with
  | nil =>
    cases h
    rfl
  | cons s slots ih =>
    unfold assignAll assign at h
    split at h
    · exact ih h
    · split at h
      · exact (ih h).trans (isStatic_take r s)
      · cases h

end Registers

namespace MethodCode

variable {m : MethodCode} {r : Registers}

def firstRegister (m : MethodCode) : Nat := if m.isStatic then 0 else 1

theorem numbers_registers (h : m.registers = .ok r) :
    Registers.Numbers m.firstRegister (Slot.firsts m.slots) r :=
  (Registers.numbers_start m.isStatic).assignAll h

theorem registers_spec (h : m.registers = .ok r) :
    Registers.Distinct (if m.isStatic then 0 else 1) r ∧ r.isStatic = m.isStatic ∧
      ∀ s ∈ m.slots, ∃ n, r.get? s = some n := by
  have hnumbers := numbers_registers h
  refine ⟨hnumbers.distinct, Registers.isStatic_assignAll h, ?_⟩
  intro s hs
  obtain ⟨i, hi⟩ := List.getElem?_of_mem (Slot.mem_firsts.2 hs)
  exact ⟨_, (hnumbers.get? s _).2 ⟨i, hi, rfl⟩⟩

theorem mem_slots_of_get? (h : m.registers = .ok r) {s : Slot} {n : Nat} (hs : r.get? s = some n) :
    s ∈ m.slots := by
  obtain ⟨i, hi, _⟩ := ((numbers_registers h).get? s n).1 hs
  exact Slot.mem_firsts.1 (List.mem_of_getElem? hi)

theorem exists_temp (h : m.registers = .ok r) {t : Temp} (ht : t ∈ m.temps) :
    ∃ n, r.temp t = .ok n := by
  have hslot : Slot.temp t.id ∈ m.slots := List.mem_append_right _ (List.mem_map.2 ⟨t, ht, rfl⟩)
  obtain ⟨n, hn⟩ := (registers_spec h).2.2 _ hslot
  exact ⟨n, Registers.temp_eq_ok_iff.2 hn⟩

theorem exists_var_iff (h : m.registers = .ok r) {name : String} :
    (∃ n, r.var name = .ok n) ↔ ∃ v ∈ m.params ++ m.locals, v.name = name := by
  constructor
  · rintro ⟨n, hn⟩
    rcases List.mem_append.1 (mem_slots_of_get? h (Registers.var_eq_ok_iff.1 hn)) with hvar | htemp
    · obtain ⟨v, hv, hname⟩ := List.mem_map.1 hvar
      exact ⟨v, hv, Slot.var.inj hname⟩
    · simp at htemp
  · rintro ⟨v, hv, rfl⟩
    obtain ⟨n, hn⟩ := (registers_spec h).2.2 (.var v.name)
      (List.mem_append_left _ (List.mem_map_of_mem hv))
    exact ⟨n, Registers.var_eq_ok_iff.2 hn⟩

end MethodCode

end SingleClass
