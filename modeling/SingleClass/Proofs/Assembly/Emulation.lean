import Mathlib.Data.List.Forall2
import SingleClass.Proofs.Behaviour.Machine
set_option autoImplicit false

/-!
Lines of assembly in place of an action. A stretch of lines emulates an action from given registers
and stack if the machine, started at its first line, comes to the line behind it where the action
gives a value, and fails where the action fails. Stretches are put together as actions are.
-/

namespace SingleClass

@[simp] theorem Value.value?_word (v : Value) : v.word.value? v.cell = some v := by
  cases v with
  | int n => rfl
  | bool b => cases b <;> rfl
  | ref r => rfl

theorem Value.admits_word {v : Value} {c : Cell} (h : v.cell = c) : c.admits v.word = true := by
  subst h
  simp [Cell.admits]

namespace Ty

theorem fits_int {v : Value} (h : v.fits .int = true) : ∃ n, v = .int n := by
  cases v with
  | int n => exact ⟨n, rfl⟩
  | bool b => simp [Value.fits, isBoolean, int] at h
  | ref r => simp [Value.fits, int] at h

theorem fits_boolean {v : Value} (h : v.fits .boolean = true) : ∃ b, v = .bool b := by
  cases v with
  | int n => simp [Value.fits, isInt, boolean] at h
  | bool b => exact ⟨b, rfl⟩
  | ref r => simp [Value.fits, boolean] at h

theorem fits_reference {t : Ty} {v : Value} (ht : t.isReference = true) (h : v.fits t = true) :
    ∃ r, v = .ref r := by
  cases v with
  | ref r => exact ⟨r, rfl⟩
  | int n | bool b =>
    simp only [Value.fits, isInt, isBoolean, Bool.and_eq_true, decide_eq_true_eq,
      Bool.not_eq_true'] at h
    simp [isReference, h.1, h.2] at ht

theorem fits_array {t : Ty} {v : Value} (ht : t.isArray = true) (h : v.fits t = true) :
    v = .ref .null ∨ ∃ n, v = .ref (.array t.elementCell n) := by
  obtain ⟨r, rfl⟩ := fits_reference (by simp [isReference, ht]) h
  simp only [Value.fits, ht, if_true] at h
  cases r with
  | null => exact .inl rfl
  | object n => simp at h
  | array c n =>
    simp only [decide_eq_true_eq] at h
    exact .inr ⟨n, by rw [h]⟩

theorem fits_of_asValue {t u : Ty} {v : Value} (h : t.asValue = u.asValue) (hv : v.fits t = true) :
    v.fits u = true := by
  have hk : t.asValue.kind = u.asValue.kind := congrArg Ty.kind h
  have ha : t.asValue.isArray = u.asValue.isArray := congrArg Ty.isArray h
  simp only [asValue] at hk ha
  unfold Value.fits isInt isBoolean elementCell at hv ⊢
  rw [← hk, ← ha]
  exact hv

theorem cell_of_fits {t : Ty} {c : Cell} {v : Value} (hc : Cell.of t = .ok c)
    (hv : v.fits t = true) : v.cell = c := by
  unfold Cell.of at hc
  cases ha : t.isArray with
  | true =>
    simp only [ha, if_true, Except.ok.injEq] at hc
    obtain ⟨r, rfl⟩ := fits_reference (by simp [isReference, ha]) hv
    exact hc
  | false =>
    simp only [ha, Bool.false_eq_true, if_false] at hc
    cases v with
    | int n =>
      simp only [Value.fits, isInt, Bool.and_eq_true, decide_eq_true_eq] at hv
      simp only [hv.1, Except.ok.injEq] at hc
      exact hc
    | bool b =>
      simp only [Value.fits, isBoolean, Bool.and_eq_true, decide_eq_true_eq] at hv
      simp only [hv.1, Except.ok.injEq] at hc
      exact hc
    | ref r =>
      simp only [Value.fits, ha, Bool.false_eq_true, if_false] at hv
      split at hc <;> simp_all [Value.cell]

theorem elementCell_eq {t : Ty} {c : Cell} (h : Cell.of t.element = .ok c) : t.elementCell = c := by
  unfold Cell.of at h
  simp only [element, Bool.false_eq_true, if_false] at h
  unfold elementCell
  split at h <;> simp_all

theorem fits_element {t : Ty} {c : Cell} {v : Value} (hc : Cell.of t.element = .ok c)
    (hv : v.cell = t.elementCell) : v.fits t.element = true := by
  rw [elementCell_eq hc] at hv
  unfold Cell.of at hc
  simp only [element, Bool.false_eq_true, if_false] at hc
  cases hk : t.kind <;> simp only [hk, Except.ok.injEq, reduceCtorEq] at hc <;> subst hc <;>
    cases v <;> simp_all [Value.cell, Value.fits, isInt, isBoolean, element]

end Ty

namespace Memory

theorem of_allocArray {c : Cell} {n : Int32} {v : Value} {μ μ' : Memory}
    (h : allocArray c (.int n) μ = .returns v μ') : ∃ k, v = .ref (.array c k) := by
  simp only [allocArray] at h
  split at h
  · cases h
  · cases h
    exact ⟨_, rfl⟩

theorem of_loadElement {r : Ref} {i : Int32} {v : Value} {μ μ' : Memory}
    (h : loadElement (.ref r) (.int i) μ = .returns v μ') : ∃ k, r = .array v.cell k := by
  cases r with
  | null | object k => cases h
  | array c k =>
    simp only [loadElement] at h
    split at h
    · split at h
      · rename_i hcell
        cases h
        exact ⟨k, by rw [hcell.2]⟩
      · cases h
    · cases h

theorem of_length {r : Ref} {v : Value} {μ μ' : Memory}
    (h : length (.ref r) μ = .returns v μ') : v.fits .int = true := by
  cases r with
  | null | object k => cases h
  | array c k =>
    cases h
    rfl

theorem of_getField {r : Ref} {field : String} {t : Ty} {v : Value} {μ μ' : Memory}
    (h : getField (.ref r) field t μ = .returns v μ') : v.fits t = true := by
  cases r with
  | null | array c k => cases h
  | object k =>
    simp only [getField] at h
    split at h
    · rename_i hfits
      cases h
      exact hfits
    · cases h

end Memory

namespace ClassCode

variable {c : ClassCode} {t : Ty} {d : FieldType}

/-- A descriptor says of its type what matters at run time. -/
structure Encodes (d : FieldType) (t : Ty) : Prop where
  isArray : d.isArray = t.isArray
  isVoid : d.ty.isVoid = t.isVoid
  array : t.isVoid = true → t.isArray = false
  fits : ∀ v : Value, v.fits d.ty = v.fits t
  cell : ∀ v : Value, v.fits t = true → d.cell? = some v.cell

theorem encodes_of_fieldType (h : c.fieldType t = .ok d) : Encodes d t := by
  obtain ⟨kind, isArray, isVararg⟩ := t
  unfold fieldType at h
  cases kind with
  | int | boolean | string | named n =>
    cases h
    refine ⟨rfl, rfl, fun hv => by simp [Ty.isVoid] at hv, ?_, ?_⟩
    · intro v
      cases v <;> rfl
    · intro v hv
      cases isArray <;> cases v <;>
        simp_all [Value.fits, Ty.isInt, Ty.isBoolean, FieldType.cell?, Value.cell]
  | void =>
    cases isArray with
    | true => simp at h
    | false =>
      cases h
      refine ⟨rfl, rfl, fun _ => rfl, ?_, ?_⟩
      · intro v
        cases v <;> rfl
      · intro v hv
        cases v <;> simp [Value.fits, Ty.isInt, Ty.isBoolean] at hv
  | external | indeterminate => cases h

theorem Encodes.value {v : Value} (h : Encodes d t) (hv : v.fits t = true) :
    d.value? v.word = some v := by
  simp [FieldType.value?, h.cell v hv]

theorem Encodes.getField (h : Encodes d t) (r : Ref) (field : String) :
    Memory.getField (.ref r) field d.ty = Memory.getField (.ref r) field t := by
  cases r with
  | object n =>
    funext μ
    simp only [Memory.getField, h.fits]
  | null | array c n => rfl

theorem Encodes.call {ret : Ty} (h : Encodes d ret) (w : World) (method : String)
    (receiver : Option Value) (args : List Value) :
    w.call method receiver args d.ty = w.call method receiver args ret := by
  unfold World.call
  congr 1
  funext result
  unfold World.accept
  rw [h.isVoid]
  cases result with
  | none => rfl
  | some v => simp only [h.fits v]

theorem values?_words {c : ClassCode} {ts : List Ty} {ds : List FieldType} {vs : List Value}
    (h : c.fieldTypes ts = .ok ds) (hv : List.Forall₂ (fun v t => Value.fits t v = true) vs ts) :
    FieldType.values? ds (vs.map Value.word) = some vs := by
  induction hv generalizing ds with
  | nil =>
    cases h
    rfl
  | @cons v t vs ts hv _ ih =>
    simp only [fieldTypes] at h
    cases hd : c.fieldType t with
    | error e => simp [hd, bind, Except.bind] at h
    | ok d =>
      cases hds : c.fieldTypes ts with
      | error e => simp [hd, hds, bind, Except.bind] at h
      | ok ds' =>
        simp only [hd, hds, bind, Except.bind, pure, Except.pure, Except.ok.injEq] at h
        subst h
        simp [FieldType.values?, (encodes_of_fieldType hd).value hv, ih hds]

end ClassCode

def Line.isControl : Line → Bool
  | .label _ | .goto _ | .ifTrue _ | .jumpIf _ _ | .ret _ => true
  | _ => false

namespace MethodAssembly

variable {a : MethodAssembly} {w : World}

theorem step_plain {pc : Nat} {l : Line} (h : a.lines[pc]? = some l) (hl : l.isControl = false)
    (s : Activation) (μ : Memory) :
    a.step w ⟨pc, s, μ⟩ = match l.effect w s μ with
      | .returns activation memory => some (.running { pc := pc + 1, activation, memory })
      | .fails memory => some (.finished (.failed memory))
      | .diverges => none := by
  unfold step
  simp only [h]
  cases l with
  | label _ | goto _ | ifTrue _ | jumpIf _ _ | ret _ => simp [Line.isControl] at hl
  | _ => rfl

theorem Reaches.ends {s s' : MachineState} {e : Ending} (h : a.Reaches w s s')
    (he : a.Ends w s' e) : a.Ends w s e := by
  obtain ⟨s'', hr, hs⟩ := he
  exact ⟨s'', h.trans hr, hs⟩

/-- `n` lines from `pc` on stand for the action `x`; `R` relates its value to what they leave. -/
def Emulates {A : Type} (a : MethodAssembly) (w : World) (pc n : Nat) (s : Activation)
    (x : Action Memory A) (R : A → Activation → Prop) : Prop :=
  ∀ μ, match x μ with
    | .returns v μ' => ∃ s', a.Reaches w ⟨pc, s, μ⟩ ⟨pc + n, s', μ'⟩ ∧ R v s'
    | .fails μ' => a.Ends w ⟨pc, s, μ⟩ (.failed μ')
    | .diverges => True

namespace Emulates

variable {A B : Type} {pc n k : Nat} {s : Activation}

theorem pure {v : A} {R : A → Activation → Prop} (h : R v s) :
    Emulates a w pc 0 s (Pure.pure v) R :=
  fun _ => ⟨s, .refl, h⟩

theorem bind {x : Action Memory A} {f : A → Action Memory B} {R : A → Activation → Prop}
    {Q : B → Activation → Prop} (hx : Emulates a w pc n s x R)
    (hf : ∀ v s', R v s' → Emulates a w (pc + n) k s' (f v) Q) :
    Emulates a w pc (n + k) s (x >>= f) Q := by
  intro μ
  have h := hx μ
  rw [Action.bind_apply]
  cases hr : x μ with
  | returns v μ₁ =>
    rw [hr] at h
    obtain ⟨s₁, hreach, hR⟩ := h
    have h' := hf v s₁ hR μ₁
    simp only
    cases hr' : f v μ₁ with
    | returns u μ₂ =>
      rw [hr'] at h'
      obtain ⟨s₂, hreach', hQ⟩ := h'
      refine ⟨s₂, ?_, hQ⟩
      rw [← Nat.add_assoc]
      exact hreach.trans hreach'
    | fails μ₂ =>
      rw [hr'] at h'
      exact hreach.ends h'
    | diverges => trivial
  | fails μ₁ =>
    rw [hr] at h
    exact h
  | diverges => trivial

theorem line {l : Line} {x : Action Memory A} {R : A → Activation → Prop} {g : A → Activation}
    (h : a.lines[pc]? = some l) (hl : l.isControl = false)
    (he : l.effect w s = x >>= fun v => Pure.pure (g v))
    (hR : ∀ μ v μ', x μ = .returns v μ' → R v (g v)) : Emulates a w pc 1 s x R := by
  intro μ
  have hstep := a.step_plain (w := w) h hl s μ
  rw [he, Action.bind_apply] at hstep
  cases hx : x μ with
  | returns v μ' =>
    rw [hx] at hstep
    exact ⟨g v, .single hstep, hR μ v μ' hx⟩
  | fails μ' =>
    rw [hx] at hstep
    exact ⟨_, .refl, hstep⟩
  | diverges => trivial

theorem act {l : Line} {v : A} {R : A → Activation → Prop} {s' : Activation}
    (h : a.lines[pc]? = some l) (hl : l.isControl = false)
    (he : l.effect w s = Pure.pure s') (hR : R v s') : Emulates a w pc 1 s (Pure.pure v) R := by
  refine line (g := fun _ => s') h hl he ?_
  intro μ u μ' hu
  cases hu
  exact hR

theorem cast {k : Nat} {x : Action Memory A} {R : A → Activation → Prop}
    (h : Emulates a w pc n s x R) (hk : n = k) : Emulates a w pc k s x R :=
  hk ▸ h

end Emulates

theorem reaches_label {pc : Nat} {l : Label} (h : a.lines[pc]? = some (.label l)) (s : Activation)
    (μ : Memory) : a.Reaches w ⟨pc, s, μ⟩ ⟨pc + 1, s, μ⟩ := by
  refine .single ?_
  simp only [step, h]
  rfl

theorem reaches_goto {pc p : Nat} {l : Label} (h : a.lines[pc]? = some (.goto l))
    (hp : a.lines.idxOf? (.label l) = some p) (s : Activation) (μ : Memory) :
    a.Reaches w ⟨pc, s, μ⟩ ⟨p, s, μ⟩ := by
  refine .single ?_
  simp only [step, h, jump, hp]
  rfl

theorem reaches_push {pc : Nat} {v : Int32} (h : a.lines[pc]? = some (.push v)) (s : Activation)
    (μ : Memory) : a.Reaches w ⟨pc, s, μ⟩ ⟨pc + 1, s.push (.int v), μ⟩ := by
  refine .single ?_
  rw [step_plain h rfl]
  rfl

end MethodAssembly

def Line.label? : Line → Option Label
  | .label l => some l
  | _ => none

def Line.labels (lines : List Line) : List Label := lines.filterMap Line.label?

@[simp] theorem Line.labels_nil : Line.labels [] = [] := rfl

@[simp] theorem Line.labels_append (ls ms : List Line) :
    Line.labels (ls ++ ms) = Line.labels ls ++ Line.labels ms :=
  List.filterMap_append

theorem Line.labels_cons (l : Line) (ls : List Line) :
    Line.labels (l :: ls) = l.label?.toList ++ Line.labels ls := by
  unfold Line.labels
  rw [List.filterMap_cons]
  cases l.label? <;> rfl

theorem Line.idxOf?_label {lines : List Line} (h : (Line.labels lines).Nodup) {p : Nat} {l : Label}
    (hp : lines[p]? = some (.label l)) : lines.idxOf? (.label l) = some p := by
  induction lines generalizing p with
  | nil => simp at hp
  | cons x xs ih =>
    rw [Line.labels_cons, List.nodup_append] at h
    rw [List.idxOf?_cons]
    cases p with
    | zero =>
      simp only [List.getElem?_cons_zero, Option.some.injEq] at hp
      simp [hp]
    | succ p =>
      simp only [List.getElem?_cons_succ] at hp
      have hmem : l ∈ Line.labels xs :=
        List.mem_filterMap.2 ⟨_, List.mem_of_getElem? hp, rfl⟩
      have hne : x ≠ .label l := by
        intro hx
        subst hx
        exact h.2.2 l (by simp [Line.label?]) l hmem rfl
      simp [hne, ih h.2.1 hp]

namespace MethodAssembly

variable {a : MethodAssembly} {w : World}

theorem Emulates.compare {pc k : Nat} {t : Test} (hat : Located a.lines pc (compareLines k t))
    (hlabels : (Line.labels a.lines).Nodup) {x y : Word} {b : Bool} (hb : t.holds? x y = some b)
    (registers : Nat → Option Word) (stack : List Word) :
    Emulates a w pc 6 ⟨registers, y :: x :: stack⟩ (Pure.pure b) fun b s =>
      s = ⟨registers, Word.ofBool b :: stack⟩ := by
  intro μ
  refine ⟨_, ?_, rfl⟩
  have hfound {p : Nat} {l : Label} (hp : a.lines[p]? = some (.label l)) :=
    Line.idxOf?_label hlabels hp
  have htrue := hat.tail.tail.tail.head
  have hend := hat.tail.tail.tail.tail.tail.head
  have hclose := reaches_label (w := w) hend ⟨registers, Word.ofBool b :: stack⟩ μ
  cases b with
  | true =>
    have hjump : a.Reaches w ⟨pc, ⟨registers, y :: x :: stack⟩, μ⟩
        ⟨pc + 1 + 1 + 1, ⟨registers, stack⟩, μ⟩ := by
      refine .single ?_
      simp only [step, hat.head, hb, jump, hfound htrue]
      rfl
    exact ((hjump.trans (reaches_label htrue _ _)).trans
      (reaches_push hat.tail.tail.tail.tail.head _ _)).trans hclose
  | false =>
    have hpass : a.Reaches w ⟨pc, ⟨registers, y :: x :: stack⟩, μ⟩
        ⟨pc + 1, ⟨registers, stack⟩, μ⟩ := by
      refine .single ?_
      simp only [step, hat.head, hb]
      rfl
    exact ((hpass.trans (reaches_push hat.tail.head _ _)).trans
      (reaches_goto hat.tail.tail.head (hfound hend) _ _)).trans hclose

end MethodAssembly

end SingleClass
