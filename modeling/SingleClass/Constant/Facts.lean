import SingleClass.Source.Tree
set_option autoImplicit false

/-! What is known at a point of a body: some locals hold a literal. -/

namespace SingleClass

structure Facts where
  entries : List (String × Literal) := []

namespace Facts

def get? (f : Facts) (name : String) : Option Literal := f.entries.lookup name

def erase (f : Facts) (name : String) : Facts := ⟨f.entries.filter (·.1 ≠ name)⟩

def insert (f : Facts) (name : String) (value : Literal) : Facts :=
  ⟨(name, value) :: (f.erase name).entries⟩

def forget (f : Facts) (names : List String) : Facts := ⟨f.entries.filter (·.1 ∉ names)⟩

/-- What both hold: after two ways into one point, only facts they share. -/
def meet (f g : Facts) : Facts := ⟨f.entries.filter fun e => f.get? e.1 = g.get? e.1⟩

theorem lookup_filter_key (p : String → Bool) (es : List (String × Literal)) (name : String) :
    (es.filter fun e => p e.1).lookup name = if p name then es.lookup name else none := by
  induction es with
  | nil => simp
  | cons e es ih =>
    obtain ⟨k, v⟩ := e
    by_cases hk : name = k
    · subst hk
      by_cases hp : p name <;> simp [hp, ih]
    · have hk' : (name == k) = false := by simpa using hk
      by_cases hp : p k <;> simp [hp, List.lookup_cons, hk', ih]

@[simp] theorem get?_empty (name : String) : ({} : Facts).get? name = none := rfl

theorem get?_erase (f : Facts) (x name : String) :
    (f.erase x).get? name = if name = x then none else f.get? name := by
  have h := lookup_filter_key (fun k => decide (k ≠ x)) f.entries name
  simp only [erase, get?, h]
  by_cases hx : name = x <;> simp [hx]

theorem get?_insert (f : Facts) (x : String) (v : Literal) (name : String) :
    (f.insert x v).get? name = if name = x then some v else f.get? name := by
  have h := get?_erase f x name
  simp only [insert, get?, List.lookup_cons] at h ⊢
  by_cases hx : name = x
  · simp [hx]
  · have hx' : (name == x) = false := by simpa using hx
    simp [hx', h, hx]

theorem get?_forget (f : Facts) (names : List String) (name : String) :
    (f.forget names).get? name = if name ∈ names then none else f.get? name := by
  have h := lookup_filter_key (fun k => decide (k ∉ names)) f.entries name
  simp only [forget, get?, h]
  by_cases hx : name ∈ names <;> simp [hx]

theorem get?_meet (f g : Facts) (name : String) :
    (f.meet g).get? name = if f.get? name = g.get? name then f.get? name else none := by
  have h := lookup_filter_key (fun k => decide (f.get? k = g.get? k)) f.entries name
  simp only [decide_eq_true_eq] at h
  exact h

theorem get?_of_erase {f : Facts} {x name : String} {v : Literal}
    (h : (f.erase x).get? name = some v) : f.get? name = some v := by
  rw [get?_erase] at h
  split at h
  · simp at h
  · exact h

theorem get?_of_forget {f : Facts} {names : List String} {name : String} {v : Literal}
    (h : (f.forget names).get? name = some v) : f.get? name = some v := by
  rw [get?_forget] at h
  split at h
  · simp at h
  · exact h

theorem get?_of_meet {f g : Facts} {name : String} {v : Literal}
    (h : (f.meet g).get? name = some v) : f.get? name = some v := by
  rw [get?_meet] at h
  split at h
  · exact h
  · simp at h

end Facts

end SingleClass
