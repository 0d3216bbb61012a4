import SingleClass.Proofs.Assembly.Depth
set_option autoImplicit false

/-!
Successful selection as derivations, one rule for each form of instruction. `Frame.select_eq_ok_iff`
says that the rules derive exactly what the function computes, so a property of selected lines is
shown by cases on derivations.
-/

namespace SingleClass

theorem bind_eq_ok_iff {A B : Type} {x : Except Failure A} {f : A → Except Failure B} {b : B} :
    (x >>= f) = .ok b ↔ ∃ a, x = .ok a ∧ f a = .ok b := by
  cases x with
  | error e => simp [bind, Except.bind]
  | ok a => simp [bind, Except.bind]

theorem pure_eq_ok_iff {A : Type} {a b : A} : (pure a : Except Failure A) = .ok b ↔ a = b := by
  simp [pure, Except.pure]

theorem map_eq_ok_iff {A B : Type} {x : Except Failure A} {g : A → B} {b : B} :
    x.map g = .ok b ↔ ∃ a, x = .ok a ∧ g a = b := by
  cases x with
  | error e => simp [Except.map]
  | ok a => simp [Except.map]

theorem exists_bind {A B : Type} {x : Except Failure A} {f : A → Except Failure B}
    (hx : ∃ a, x = .ok a) (hf : ∀ a, ∃ b, f a = .ok b) : ∃ b, (x >>= f) = .ok b := by
  obtain ⟨a, rfl⟩ := hx
  exact hf a

theorem exists_of_isOk {A : Type} {x : Except Failure A} (h : x.isOk = true) : ∃ a, x = .ok a := by
  cases x with
  | error e => simp [Except.isOk, Except.toBool] at h
  | ok a => exact ⟨a, rfl⟩

theorem exists_error_iff {A : Type} {x : Except Failure A} :
    (∃ e, x = .error e) ↔ ¬∃ a, x = .ok a := by
  cases x <;> simp

theorem ClassCode.methodType_eq_ok {c : ClassCode} {params : List Ty} {ret : Ty} {t : MethodType}
    (h : c.methodType params ret = .ok t) :
    ∃ ps r, c.fieldTypes params = .ok ps ∧ c.fieldType ret = .ok r ∧ t = ⟨ps, r⟩ := by
  simp only [methodType, bind_eq_ok_iff, pure_eq_ok_iff] at h
  obtain ⟨ps, hps, r, hr, rfl⟩ := h
  exact ⟨ps, r, hps, hr, rfl⟩

theorem Line.eq_ret_of_leave {t : Ty} {l : Line} (h : Line.leave t = .ok l) : ∃ c, l = .ret c := by
  unfold Line.leave at h
  split at h
  · cases h
    exact ⟨none, rfl⟩
  · obtain ⟨c, _, rfl⟩ := map_eq_ok_iff.1 h
    exact ⟨some c, rfl⟩

namespace Frame

variable {f : Frame} {k : Nat} {l : Line} {ls : List Line}

theorem load_cases {o : Operand} (h : f.load o = .ok l) :
    (∃ v, l = .push v) ∨ l = .pushNull ∨ ∃ n c, f.registers.operand o = .ok n ∧ l = .load c n := by
  cases o with
  | int v | bool v =>
    cases h
    exact .inl ⟨_, rfl⟩
  | null t =>
    cases h
    exact .inr (.inl rfl)
  | var n t | temp d | this c =>
    simp only [load, bind_eq_ok_iff, pure_eq_ok_iff] at h
    obtain ⟨n, hn, c, _, rfl⟩ := h
    exact .inr (.inr ⟨n, c, hn, rfl⟩)

theorem loadAll_nil_eq_ok : f.loadAll [] = .ok ls ↔ [] = ls := by
  simp [loadAll]

theorem loadAll_cons_eq_ok {o : Operand} {os : List Operand} :
    f.loadAll (o :: os) = .ok ls ↔
      ∃ l ms, f.load o = .ok l ∧ f.loadAll os = .ok ms ∧ l :: ms = ls := by
  simp only [loadAll, bind_eq_ok_iff, pure_eq_ok_iff]
  constructor
  · intro hl
    obtain ⟨l, hl, ms, hms, rfl⟩ := hl
    exact ⟨l, ms, hl, hms, rfl⟩
  · intro hl
    obtain ⟨l, ms, hl, hms, rfl⟩ := hl
    exact ⟨l, hl, ms, hms, rfl⟩

theorem storeTemp_eq_ok {d : Temp} (h : f.storeTemp d = .ok l) :
    ∃ n c, f.registers.temp d = .ok n ∧ Cell.of d.ty = .ok c ∧ l = .store c n := by
  simp only [storeTemp, bind_eq_ok_iff, pure_eq_ok_iff] at h
  obtain ⟨n, hn, c, hc, rfl⟩ := h
  exact ⟨n, c, hn, hc, rfl⟩

theorem storeVar_eq_ok {name : String} {t : Ty} (h : f.storeVar name t = .ok l) :
    ∃ n c, f.registers.var name = .ok n ∧ Cell.of t = .ok c ∧ l = .store c n := by
  simp only [storeVar, bind_eq_ok_iff, pure_eq_ok_iff] at h
  obtain ⟨n, hn, c, hc, rfl⟩ := h
  exact ⟨n, c, hn, hc, rfl⟩

theorem operator_cases {op : BinaryOp} {lt rt : Ty} (h : operator k op lt rt = .ok ls) :
    (∃ w, op.word? = some w ∧ ls = [.word w]) ∨ op.word? = none ∧
      ∃ c t, Cell.compared op lt rt = .ok c ∧ op.test c = .ok t ∧ ls = compareLines k t := by
  unfold operator at h
  split at h
  · rename_i w hw
    cases h
    exact .inl ⟨w, hw, rfl⟩
  · rename_i hw
    simp only [bind_eq_ok_iff, pure_eq_ok_iff] at h
    obtain ⟨c, hc, t, ht, rfl⟩ := h
    exact .inr ⟨hw, c, t, hc, ht, rfl⟩

theorem allocate_cases {element : Ty} (h : f.allocate element = .ok l) :
    l = .newIntArray ∨ l = .newBoolArray ∨ ∃ name, l = .newObjectArray name := by
  simp only [allocate, bind_eq_ok_iff] at h
  obtain ⟨c, _, h⟩ := h
  cases c with
  | int =>
    cases h
    exact .inl rfl
  | bool =>
    cases h
    exact .inr (.inl rfl)
  | object =>
    simp only [bind_eq_ok_iff] at h
    obtain ⟨t, _, h⟩ := h
    split at h <;> cases h <;> exact .inr (.inr ⟨_, rfl⟩)

theorem result_cases {dest : Option Temp} {ret : Ty} (h : f.result dest ret = .ok ls) :
    (∃ d s, dest = some d ∧ f.storeTemp d = .ok s ∧ ls = [s]) ∨
      dest = none ∧ ls = if ret.isVoid then [] else [.pop] := by
  cases dest with
  | some d =>
    simp only [result, bind_eq_ok_iff, pure_eq_ok_iff] at h
    obtain ⟨s, hs, rfl⟩ := h
    exact .inl ⟨d, s, rfl, hs, rfl⟩
  | none =>
    cases h
    exact .inr ⟨rfl, rfl⟩

/-- The lines of an instruction. Comparisons before it in the method number `k`. -/
inductive Selects (f : Frame) (k : Nat) : Instr → List Line → Prop
  | assignVar {n : String} {t : Ty} {v : Operand} {l s : Line} (hl : f.load v = .ok l)
      (hs : f.storeVar n t = .ok s) : Selects f k (.assign (.var n t) v) [l, s]
  | assignTemp {d : Temp} {v : Operand} {l s : Line} (hl : f.load v = .ok l)
      (hs : f.storeTemp d = .ok s) : Selects f k (.assign (.temp d) v) [l, s]
  | assignElement {a i v : Operand} {ls : List Line} {c : Cell}
      (hls : f.loadAll [a, i, v] = .ok ls) (hc : Cell.of a.ty.element = .ok c) :
      Selects f k (.assign (.element a i) v) (ls ++ [.arrayStore c])
  | binary {d : Temp} {op : BinaryOp} {l r : Operand} {ls os : List Line} {s : Line}
      (hls : f.loadAll [l, r] = .ok ls) (hos : operator k op l.ty r.ty = .ok os)
      (hs : f.storeTemp d = .ok s) : Selects f k (.binary d op l r) (ls ++ (os ++ [s]))
  | unary {d : Temp} {op : UnaryOp} {v : Operand} {l s : Line} (hl : f.load v = .ok l)
      (hs : f.storeTemp d = .ok s) : Selects f k (.unary d op v) (l :: (unaryLines op ++ [s]))
  | call {c : Call} {ls rs : List Line} {t : MethodType}
      (hls : f.loadAll (c.receiver.toList ++ c.args) = .ok ls)
      (ht : f.unit.methodType c.params c.ret = .ok t) (hrs : f.result c.dest c.ret = .ok rs) :
      Selects f k (.call c) (ls ++ .invoke c.dispatch c.owner c.method t :: rs)
  | new {d : Temp} {className : String} {s : Line} (hs : f.storeTemp d = .ok s) :
      Selects f k (.new d className) [.new (f.unit.internalName className), s]
  | newArray {d : Temp} {element : Ty} {size : Operand} {l a s : Line} (hl : f.load size = .ok l)
      (ha : f.allocate element = .ok a) (hs : f.storeTemp d = .ok s) :
      Selects f k (.newArray d element size) [l, a, s]
  | arrayLoad {d : Temp} {a i : Operand} {ls : List Line} {c : Cell} {s : Line}
      (hls : f.loadAll [a, i] = .ok ls) (hc : Cell.of a.ty.element = .ok c)
      (hs : f.storeTemp d = .ok s) : Selects f k (.arrayLoad d a i) (ls ++ [.arrayLoad c, s])
  | arrayLength {d : Temp} {a : Operand} {l s : Line} (hl : f.load a = .ok l)
      (hs : f.storeTemp d = .ok s) : Selects f k (.arrayLength d a) [l, .arrayLength, s]
  | getField {d : Temp} {field : String} {ty : Ty} {t : FieldType} {s : Line}
      (ht : f.unit.fieldType ty = .ok t) (hs : f.storeTemp d = .ok s) :
      Selects f k (.getField d field ty) [.load .object 0, .getField f.unit.name field t, s]
  | putField {field : String} {ty : Ty} {v : Operand} {l : Line} {t : FieldType}
      (hl : f.load v = .ok l) (ht : f.unit.fieldType ty = .ok t) :
      Selects f k (.putField field ty v) [.load .object 0, l, .putField f.unit.name field t]
  | ret {v : Option Operand} {ls : List Line} {l : Line} (hls : f.loadAll v.toList = .ok ls)
      (hl : Line.leave f.method.returnTy = .ok l) : Selects f k (.ret v) (ls ++ [l])
  | goto {l : Label} : Selects f k (.goto l) [.goto l]
  | branch {o : Operand} {l : Label} {c : Line} (hc : f.load o = .ok c) :
      Selects f k (.branch o l) [c, .ifTrue l]
  | label {l : Label} (hl : f.method.labels.has l = true) : Selects f k (.label l) [.label l]

theorem selects_of_assign {d : Dest} {v : Operand} (h : f.assign d v = .ok ls) :
    f.Selects k (.assign d v) ls := by
  cases d with
  | var n t =>
    simp only [assign, bind_eq_ok_iff, pure_eq_ok_iff] at h
    obtain ⟨l, hl, s, hs, rfl⟩ := h
    exact .assignVar hl hs
  | temp d =>
    simp only [assign, bind_eq_ok_iff, pure_eq_ok_iff] at h
    obtain ⟨l, hl, s, hs, rfl⟩ := h
    exact .assignTemp hl hs
  | element a i =>
    simp only [assign, Line.storeElement, bind_eq_ok_iff, map_eq_ok_iff, pure_eq_ok_iff] at h
    obtain ⟨ls, hls, _, ⟨c, hc, rfl⟩, rfl⟩ := h
    exact .assignElement hls hc

theorem selects_of_select {i : Instr} (h : f.select k i = .ok ls) : f.Selects k i ls := by
  cases i with
  | assign d v => exact selects_of_assign h
  | binary d op l r =>
    simp only [select, bind_eq_ok_iff, pure_eq_ok_iff, List.append_assoc] at h
    obtain ⟨ls, hls, os, hos, s, hs, rfl⟩ := h
    exact .binary hls hos hs
  | unary d op v =>
    simp only [select, bind_eq_ok_iff, pure_eq_ok_iff] at h
    obtain ⟨l, hl, s, hs, rfl⟩ := h
    exact .unary hl hs
  | call c =>
    simp only [select, call, bind_eq_ok_iff, pure_eq_ok_iff] at h
    obtain ⟨ls, hls, t, ht, rs, hrs, rfl⟩ := h
    exact .call hls ht hrs
  | new d className =>
    simp only [select, bind_eq_ok_iff, pure_eq_ok_iff] at h
    obtain ⟨s, hs, rfl⟩ := h
    exact .new hs
  | newArray d element size =>
    simp only [select, bind_eq_ok_iff, pure_eq_ok_iff] at h
    obtain ⟨l, hl, a, ha, s, hs, rfl⟩ := h
    exact .newArray hl ha hs
  | arrayLoad d a i =>
    simp only [select, Line.loadElement, bind_eq_ok_iff, map_eq_ok_iff, pure_eq_ok_iff] at h
    obtain ⟨ls, hls, _, ⟨c, hc, rfl⟩, s, hs, rfl⟩ := h
    exact .arrayLoad hls hc hs
  | arrayLength d a =>
    simp only [select, bind_eq_ok_iff, pure_eq_ok_iff] at h
    obtain ⟨l, hl, s, hs, rfl⟩ := h
    exact .arrayLength hl hs
  | getField d field ty =>
    simp only [select, bind_eq_ok_iff, pure_eq_ok_iff] at h
    obtain ⟨t, ht, s, hs, rfl⟩ := h
    exact .getField ht hs
  | putField field ty v =>
    simp only [select, bind_eq_ok_iff, pure_eq_ok_iff] at h
    obtain ⟨l, hl, t, ht, rfl⟩ := h
    exact .putField hl ht
  | ret v =>
    simp only [select, bind_eq_ok_iff, pure_eq_ok_iff] at h
    obtain ⟨ls, hls, l, hl, rfl⟩ := h
    exact .ret hls hl
  | goto l =>
    cases h
    exact .goto
  | branch o l =>
    simp only [select, bind_eq_ok_iff, pure_eq_ok_iff] at h
    obtain ⟨c, hc, rfl⟩ := h
    exact .branch hc
  | label l =>
    simp only [select] at h
    split at h
    · rename_i hl
      cases h
      exact .label hl
    · cases h

theorem Selects.select_eq_ok {i : Instr} (h : f.Selects k i ls) : f.select k i = .ok ls := by
  cases h <;> simp_all [select, assign, Frame.call, Line.storeElement, Line.loadElement, bind,
    Except.bind, pure, Except.pure, Except.map]

theorem select_eq_ok_iff {i : Instr} : f.select k i = .ok ls ↔ f.Selects k i ls :=
  ⟨selects_of_select, Selects.select_eq_ok⟩

theorem selectAll_cons_eq_ok {i : Instr} {is : List Instr} {blocks : List (List Line)} :
    f.selectAll k (i :: is) = .ok blocks ↔ ∃ ls rest, f.Selects k i ls ∧
      f.selectAll (k + comparisons i) is = .ok rest ∧ ls :: rest = blocks := by
  simp only [selectAll, bind_eq_ok_iff, pure_eq_ok_iff, select_eq_ok_iff]
  constructor
  · rintro ⟨ls, hls, rest, hrest, rfl⟩
    exact ⟨ls, rest, hls, hrest, rfl⟩
  · rintro ⟨ls, rest, hls, hrest, rfl⟩
    exact ⟨ls, hls, rest, hrest, rfl⟩

theorem moves_load {o : Operand} (h : f.load o = .ok l) : l.Moves 0 1 := by
  rcases load_cases h with ⟨v, rfl⟩ | rfl | ⟨n, c, _, rfl⟩ <;> exact ⟨rfl, rfl, rfl⟩

theorem moves_loadAll {os : List Operand} (h : f.loadAll os = .ok ls) :
    ls.length = os.length ∧ ∀ l ∈ ls, l.Moves 0 1 := by
  induction os generalizing ls with
  | nil =>
    cases h
    simp
  | cons o os ih =>
    obtain ⟨l, ls, hl, hls, rfl⟩ := loadAll_cons_eq_ok.1 h
    obtain ⟨hlength, hmoves⟩ := ih hls
    exact ⟨by simp [hlength], List.forall_mem_cons.2 ⟨moves_load hl, hmoves⟩⟩

theorem moves_storeTemp {d : Temp} (h : f.storeTemp d = .ok l) : l.Moves 1 0 := by
  obtain ⟨n, c, _, _, rfl⟩ := storeTemp_eq_ok h
  exact ⟨rfl, rfl, rfl⟩

theorem moves_storeVar {name : String} {t : Ty} (h : f.storeVar name t = .ok l) : l.Moves 1 0 := by
  obtain ⟨n, c, _, _, rfl⟩ := storeVar_eq_ok h
  exact ⟨rfl, rfl, rfl⟩

theorem moves_allocate {t : Ty} (h : f.allocate t = .ok l) : l.Moves 1 1 := by
  rcases allocate_cases h with rfl | rfl | ⟨name, rfl⟩ <;> exact ⟨rfl, rfl, rfl⟩

theorem plain_loadAll {os : List Operand} (h : f.loadAll os = .ok ls) :
    ∀ l ∈ ls, l.isControl = false :=
  fun l hl => ((moves_loadAll h).2 l hl).plain

theorem plain_result {dest : Option Temp} {ret : Ty} (h : f.result dest ret = .ok ls) :
    ls.length ≤ 1 ∧ ∀ l ∈ ls, l.isControl = false := by
  rcases result_cases h with ⟨d, s, _, hs, rfl⟩ | ⟨_, rfl⟩
  · exact ⟨Nat.le_refl 1, List.forall_mem_singleton.2 (moves_storeTemp hs).plain⟩
  · cases ret.isVoid with
    | true => simp
    | false => exact ⟨Nat.le_refl 1, List.forall_mem_singleton.2 rfl⟩

theorem plain_unaryLines (op : UnaryOp) : ∀ l ∈ unaryLines op, l.isControl = false := by
  cases op <;> simp [unaryLines, Line.isControl]

end Frame

end SingleClass
