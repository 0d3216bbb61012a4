import SingleClass.Proofs.Assembly.Linking
import SingleClass.Proofs.Compilation
import SingleClass.Proofs.Lowering.Renumbering
set_option autoImplicit false

/-!
Assembly under another numbering. Registers go by the order of first definitions and comparisons are
counted in their method, so the lines of a method do not show where its temporaries begin, and of its
labels they show the number where those begin and no more (`ClassCode.agrees_assembleMethod`). What the
other methods of a unit do is seen in nothing else (`Symbols.sameButNumbers_of_lower`).
-/

namespace SingleClass

/-- Both fail, or both succeed with related results. -/
inductive Agrees {A B : Type} (R : A → B → Prop) : Except Failure A → Except Failure B → Prop
  | ok {a : A} {b : B} (h : R a b) : Agrees R (.ok a) (.ok b)
  | error (e e' : Failure) : Agrees R (.error e) (.error e')

namespace Agrees

variable {A A' B B' : Type} {R : A → A' → Prop} {S : B → B' → Prop}

theorem refl (x : Except Failure A) : Agrees (· = ·) x x := by
  cases x with
  | ok a => exact .ok rfl
  | error e => exact .error e e

theorem bind {x : Except Failure A} {y : Except Failure A'} {f : A → Except Failure B}
    {g : A' → Except Failure B'} (h : Agrees R x y) (hf : ∀ a a', R a a' → Agrees S (f a) (g a')) :
    Agrees S (x >>= f) (y >>= g) := by
  cases h with
  | ok h => exact hf _ _ h
  | error e e' => exact .error e e'

theorem andThen {φ : A → A'} {x : Except Failure A} {y : Except Failure A'}
    {f : A → Except Failure B} {g : A' → Except Failure B'} (h : Agrees (φ · = ·) x y)
    (hf : ∀ a, Agrees S (f a) (g (φ a))) : Agrees S (x >>= f) (y >>= g) :=
  h.bind fun a _ ha => ha ▸ hf a

theorem rest {x : Except Failure A} {f : A → Except Failure B} {g : A → Except Failure B'}
    (hf : ∀ a, Agrees S (f a) (g a)) : Agrees S (x >>= f) (x >>= g) :=
  (refl x).bind fun a _ ha => ha ▸ hf a

theorem map {φ : B → B} (x : Except Failure A) {k : A → B} (h : ∀ a, φ (k a) = k a) :
    Agrees (φ · = ·) (x.map k) (x.map k) := by
  cases x with
  | ok a => exact .ok (h a)
  | error e => exact .error e e

theorem exists_left {x : Except Failure A} {y : Except Failure A'} (h : Agrees R x y) {a' : A'}
    (hy : y = .ok a') : ∃ a, x = .ok a ∧ R a a' := by
  cases h with
  | ok h =>
    cases hy
    exact ⟨_, rfl, h⟩
  | error => cases hy

end Agrees

def Slot.renumber (n : Nat) : Slot → Slot
  | .var name => .var name
  | .temp id => .temp (id + n)

theorem Slot.renumber_injective (n : Nat) : Function.Injective (Slot.renumber n) := by
  rintro (name | id) (name' | id') h <;> simp_all [Slot.renumber]

@[simp] theorem Instr.defined?_renumber (b : Supply) (i : Instr) :
    (i.renumber b).defined? = i.defined?.map (Temp.renumber b.temps) := by
  cases i with
  | assign d v => cases d <;> rfl
  | _ => rfl

theorem Temp.firstDefinitions_renumber (b : Supply) (code : List Instr) :
    firstDefinitions (code.map (Instr.renumber b)) =
      (firstDefinitions code).map (Temp.renumber b.temps) := by
  have hfold : ∀ ds ts : List Temp,
      (ds.map (Temp.renumber b.temps)).foldl
          (fun ts t => if ts.any (·.id = t.id) then ts else ts ++ [t])
          (ts.map (Temp.renumber b.temps)) =
        (ds.foldl (fun ts t => if ts.any (·.id = t.id) then ts else ts ++ [t]) ts).map
          (Temp.renumber b.temps) := by
    intro ds
    induction ds with
    | nil => exact fun _ => rfl
    | cons d ds ih =>
      intro ts
      have hany : (ts.map (Temp.renumber b.temps)).any (·.id = (d.renumber b.temps).id) =
          ts.any (·.id = d.id) := by
        simp [List.any_map, Function.comp_def, Temp.renumber]
      rw [List.map_cons, List.foldl_cons, List.foldl_cons, ← ih, hany]
      split <;> simp
  unfold firstDefinitions
  rw [List.filterMap_map, ← hfold _ [], List.map_filterMap]
  congr 2
  funext i
  exact i.defined?_renumber b

theorem MethodCode.slots_renumber (b : Supply) (m : MethodCode) :
    (m.renumber b).slots = m.slots.map (Slot.renumber b.temps) := by
  simp [slots, renumber, temps, Temp.firstDefinitions_renumber, Function.comp_def, Slot.renumber,
    Temp.renumber]

namespace Registers

structure Renumbered (n : Nat) (r r' : Registers) : Prop where
  isStatic : r'.isStatic = r.isStatic
  next : r'.next = r.next
  get? : ∀ s, r'.get? (s.renumber n) = r.get? s

namespace Renumbered

variable {n : Nat} {r r' : Registers}

theorem start (n : Nat) (isStatic : Bool) :
    Renumbered n (Registers.start isStatic) (Registers.start isStatic) :=
  ⟨rfl, rfl, by simp⟩

theorem take (h : Renumbered n r r') (s : Slot) : Renumbered n (r.take s) (r'.take (s.renumber n)) := by
  refine ⟨?_, ?_, ?_⟩
  · rw [isStatic_take, isStatic_take, h.isStatic]
  · rw [next_take, next_take, h.next]
  · intro t
    simp only [get?_take, (Slot.renumber_injective n).eq_iff, h.next, h.get?]

theorem assign (h : Renumbered n r r') (s : Slot) :
    Agrees (Renumbered n) (r.assign s) (r'.assign (s.renumber n)) := by
  unfold Registers.assign
  rw [h.get?, h.next]
  split
  · exact .ok h
  · split
    · exact .ok (h.take s)
    · exact .error _ _

theorem assignAll (h : Renumbered n r r') (slots : List Slot) :
    Agrees (Renumbered n) (r.assignAll slots) (r'.assignAll (slots.map (Slot.renumber n))) := by
  induction slots generalizing r r' with
  | nil => exact .ok h
  | cons s slots ih => exact (h.assign s).bind fun _ _ h₁ => ih h₁

theorem var (h : Renumbered n r r') (name : String) : Agrees (· = ·) (r.var name) (r'.var name) := by
  have hget : r'.get? (.var name) = r.get? (.var name) := h.get? (.var name)
  unfold Registers.var
  rw [hget]
  exact .refl _

theorem temp (h : Renumbered n r r') (t : Temp) :
    Agrees (· = ·) (r.temp t) (r'.temp (t.renumber n)) := by
  have hget : r'.get? (.temp (t.renumber n).id) = r.get? (.temp t.id) := h.get? (.temp t.id)
  unfold Registers.temp
  rw [hget]
  cases r.get? (.temp t.id) with
  | some k => exact .ok rfl
  | none => exact .error _ _

theorem operand (h : Renumbered n r r') (o : Operand) :
    Agrees (· = ·) (r.operand o) (r'.operand (o.renumber n)) := by
  cases o with
  | var name ty => exact h.var name
  | temp t => exact h.temp t
  | this c =>
    simp only [Registers.operand, Operand.renumber, h.isStatic]
    exact .refl _
  | int _ | bool _ | null _ => exact .error _ _

end Renumbered

end Registers

theorem MethodCode.agrees_registers (b : Supply) (m : MethodCode) :
    Agrees (Registers.Renumbered b.temps) m.registers (m.renumber b).registers := by
  unfold registers
  rw [m.slots_renumber b]
  exact (Registers.Renumbered.start b.temps m.isStatic).assignAll m.slots

/-- Conditionals and loops are counted over the unit. A comparison is counted in its method, so its
labels are the same wherever the method stands. -/
def Label.relocate (n : Nat) (l : Label) : Label :=
  if l.kind ∈ structureKinds then l.renumber n else l

def Line.relocate (n : Nat) (line : Line) : Line :=
  match line with
  | .label l => .label (l.relocate n)
  | .goto l => .goto (l.relocate n)
  | .ifTrue l => .ifTrue (l.relocate n)
  | .jumpIf test l => .jumpIf test (l.relocate n)
  | .push _ | .pushNull | .load .. | .store .. | .word _ | .negate | .pop | .new _ | .newIntArray
  | .newBoolArray | .newObjectArray _ | .arrayLoad _ | .arrayStore _ | .arrayLength | .getField ..
  | .putField .. | .invoke .. | .ret _ => line

def MethodAssembly.relocate (n : Nat) (a : MethodAssembly) : MethodAssembly :=
  { a with blocks := a.blocks.map (List.map (Line.relocate n)) }

namespace Line

theorem agrees_storeElement (n : Nat) (t : Ty) :
    Agrees (relocate n · = ·) (storeElement t) (storeElement t) := .map _ fun _ => rfl

theorem agrees_loadElement (n : Nat) (t : Ty) :
    Agrees (relocate n · = ·) (loadElement t) (loadElement t) := .map _ fun _ => rfl

theorem agrees_leave (n : Nat) (t : Ty) : Agrees (relocate n · = ·) (leave t) (leave t) := by
  unfold leave
  split
  · exact .ok rfl
  · exact .map _ fun _ => rfl

end Line

def Instr.Structured (i : Instr) : Prop :=
  ∀ l, i.label? = some l ∨ i.target? = some l → l.kind ∈ structureKinds

namespace ClassCode

variable {c c' : ClassCode} (h : c'.imports = c.imports)

include h

theorem fieldType_congr (t : Ty) : c'.fieldType t = c.fieldType t := by
  simp only [fieldType, internalName, h]

theorem fieldTypes_congr (ts : List Ty) : c'.fieldTypes ts = c.fieldTypes ts := by
  induction ts with
  | nil => rfl
  | cons t ts ih => rw [fieldTypes, fieldTypes, fieldType_congr h, ih]

theorem methodType_congr (params : List Ty) (ret : Ty) :
    c'.methodType params ret = c.methodType params ret := by
  rw [methodType, methodType, fieldTypes_congr h, fieldType_congr h]

end ClassCode

namespace Frame

theorem comparisons_renumber (b : Supply) (i : Instr) :
    comparisons (i.renumber b) = comparisons i := by
  cases i <;> rfl

theorem agrees_operator (n k : Nat) (op : BinaryOp) (l r : Ty) :
    Agrees (List.map (Line.relocate n) · = ·) (operator k op l r) (operator k op l r) := by
  unfold operator
  split
  · exact .ok rfl
  · exact .rest fun _ => .rest fun _ => .ok (by
      simp [compareLines, Line.relocate, Label.relocate, structureKinds])

structure Renumbered (b : Supply) (f f' : Frame) : Prop where
  name : f'.unit.name = f.unit.name
  imports : f'.unit.imports = f.unit.imports
  returnTy : f'.method.returnTy = f.method.returnTy
  labels : ∀ l, f'.method.labels.has (l.renumber b.labels) = f.method.labels.has l
  registers : f.registers.Renumbered b.temps f'.registers

namespace Renumbered

variable {b : Supply} {f f' : Frame} (hf : f.Renumbered b f')

include hf

theorem load (o : Operand) :
    Agrees (Line.relocate b.labels · = ·) (f.load o) (f'.load (o.renumber b.temps)) := by
  have hregister : Agrees (Line.relocate b.labels · = ·)
      (f.registers.operand o >>= fun r => Cell.of o.ty >>= fun c => pure (.load c r))
      (f'.registers.operand (o.renumber b.temps) >>= fun r =>
        Cell.of (o.renumber b.temps).ty >>= fun c => pure (.load c r)) := by
    rw [o.ty_renumber]
    exact (hf.registers.operand o).andThen fun _ => .rest fun _ => .ok rfl
  cases o with
  | int _ | bool _ | null _ => exact .ok rfl
  | var _ _ | temp _ | this _ => exact hregister

theorem loadAll (os : List Operand) :
    Agrees (List.map (Line.relocate b.labels) · = ·) (f.loadAll os)
      (f'.loadAll (os.map (Operand.renumber b.temps))) := by
  induction os with
  | nil => exact .ok rfl
  | cons o os ih => exact (hf.load o).andThen fun l => ih.andThen fun ls => .ok rfl

theorem storeTemp (t : Temp) :
    Agrees (Line.relocate b.labels · = ·) (f.storeTemp t) (f'.storeTemp (t.renumber b.temps)) :=
  (hf.registers.temp t).andThen fun _ => .rest fun _ => .ok rfl

theorem storeVar (name : String) (t : Ty) :
    Agrees (Line.relocate b.labels · = ·) (f.storeVar name t) (f'.storeVar name t) :=
  (hf.registers.var name).andThen fun _ => .rest fun _ => .ok rfl

theorem assign (d : Dest) (v : Operand) :
    Agrees (List.map (Line.relocate b.labels) · = ·) (f.assign d v)
      (f'.assign (d.renumber b.temps) (v.renumber b.temps)) := by
  cases d with
  | var name t => exact (hf.load v).andThen fun l => (hf.storeVar name t).andThen fun s => .ok rfl
  | temp t => exact (hf.load v).andThen fun l => (hf.storeTemp t).andThen fun s => .ok rfl
  | element array index =>
    refine (hf.loadAll [array, index, v]).andThen fun ls => ?_
    rw [array.ty_renumber]
    exact (Line.agrees_storeElement b.labels _).andThen fun s => .ok (by simp)

theorem allocate (t : Ty) :
    Agrees (Line.relocate b.labels · = ·) (f.allocate t) (f'.allocate t) := by
  refine .rest fun c => ?_
  cases c with
  | int | bool => exact .ok rfl
  | object =>
    rw [ClassCode.fieldType_congr hf.imports]
    refine .rest fun d => ?_
    split <;> exact .ok rfl

theorem result (dest : Option Temp) (ret : Ty) :
    Agrees (List.map (Line.relocate b.labels) · = ·) (f.result dest ret)
      (f'.result (dest.map (Temp.renumber b.temps)) ret) := by
  cases dest with
  | some t => exact (hf.storeTemp t).andThen fun s => .ok rfl
  | none =>
    refine .ok ?_
    split <;> rfl

theorem call (c : Call) :
    Agrees (List.map (Line.relocate b.labels) · = ·) (f.call c) (f'.call (c.renumber b.temps)) := by
  have hoperands : (c.renumber b.temps).receiver.toList ++ (c.renumber b.temps).args =
      (c.receiver.toList ++ c.args).map (Operand.renumber b.temps) := by
    cases hr : c.receiver <;> simp [Call.renumber, hr]
  unfold Frame.call
  rw [hoperands, ClassCode.methodType_congr hf.imports]
  refine (hf.loadAll _).andThen fun ls => .rest fun t => (hf.result c.dest c.ret).andThen fun rs => ?_
  exact .ok (by simp [Line.relocate, Call.renumber])

/-- Instructions come to the same lines, where the instruction's own label is moved. -/
theorem select {i : Instr} (hi : i.Structured) (k : Nat) :
    Agrees (List.map (Line.relocate b.labels) · = ·) (f.select k i) (f'.select k (i.renumber b)) := by
  have hlabel : ∀ l, i.label? = some l ∨ i.target? = some l →
      l.relocate b.labels = l.renumber b.labels := fun l hl => if_pos (hi l hl)
  cases i with
  | assign d v => exact hf.assign d v
  | binary d op l r =>
    refine (hf.loadAll [l, r]).andThen fun ls => ?_
    rw [l.ty_renumber, r.ty_renumber]
    exact (agrees_operator b.labels k op l.ty r.ty).andThen fun os => (hf.storeTemp d).andThen fun s =>
      .ok (by simp)
  | unary d op v =>
    refine (hf.load v).andThen fun l => (hf.storeTemp d).andThen fun s => .ok ?_
    cases op <;> rfl
  | call c => exact hf.call c
  | new d className =>
    refine (hf.storeTemp d).andThen fun s => .ok ?_
    simp [Line.relocate, ClassCode.internalName, hf.imports]
  | newArray d element size =>
    exact (hf.load size).andThen fun l => (hf.allocate element).andThen fun a =>
      (hf.storeTemp d).andThen fun s => .ok rfl
  | arrayLoad d array index =>
    refine (hf.loadAll [array, index]).andThen fun ls => ?_
    rw [array.ty_renumber]
    exact (Line.agrees_loadElement b.labels _).andThen fun e => (hf.storeTemp d).andThen fun s =>
      .ok (by simp)
  | arrayLength d array =>
    exact (hf.load array).andThen fun l => (hf.storeTemp d).andThen fun s => .ok rfl
  | getField d field ty =>
    simp only [Frame.select, Instr.renumber, ClassCode.fieldType_congr hf.imports, hf.name]
    exact .rest fun t => (hf.storeTemp d).andThen fun s => .ok rfl
  | putField field ty v =>
    simp only [Frame.select, Instr.renumber, ClassCode.fieldType_congr hf.imports, hf.name]
    exact (hf.load v).andThen fun l => .rest fun t => .ok rfl
  | ret v =>
    have hvalue : (v.map (Operand.renumber b.temps)).toList =
        v.toList.map (Operand.renumber b.temps) := by
      cases v <;> rfl
    simp only [Frame.select, Instr.renumber, hvalue, hf.returnTy]
    exact (hf.loadAll _).andThen fun ls => (Line.agrees_leave b.labels _).andThen fun r => .ok (by simp)
  | goto l => exact .ok (by simp [Line.relocate, hlabel l (.inr rfl)])
  | branch o l =>
    exact (hf.load o).andThen fun c => .ok (by simp [Line.relocate, hlabel l (.inr rfl)])
  | label l =>
    simp only [Frame.select, Instr.renumber, hf.labels]
    split
    · exact .ok (by simp [Line.relocate, hlabel l (.inl rfl)])
    · exact .error _ _

theorem selectAll {is : List Instr} (h : ∀ i ∈ is, i.Structured) (k : Nat) :
    Agrees (List.map (List.map (Line.relocate b.labels)) · = ·) (f.selectAll k is)
      (f'.selectAll k (is.map (Instr.renumber b))) := by
  induction is generalizing k with
  | nil => exact .ok rfl
  | cons i is ih =>
    obtain ⟨hi, his⟩ := List.forall_mem_cons.1 h
    refine (hf.select hi k).andThen fun ls => ?_
    rw [comparisons_renumber]
    exact (ih his _).andThen fun rest => .ok rfl

end Renumbered

end Frame

theorem LabelTable.has_renumber (n : Nat) (t : LabelTable) (l : Label) :
    (t.renumber n).has (l.renumber n) = t.has l := by
  simp [has, renumber, List.any_map, Function.comp_def, (Label.renumber_injective n).eq_iff]

/-- A method under another numbering is assembled to the same lines, but for the numbers of the labels
of its conditionals and loops. -/
theorem ClassCode.agrees_assembleMethod (c c' : ClassCode) (hname : c'.name = c.name)
    (himports : c'.imports = c.imports) (b : Supply) {m : MethodCode}
    (h : ∀ i ∈ m.instrs, i.Structured) :
    Agrees (MethodAssembly.relocate b.labels · = ·) (c.assembleMethod m)
      (c'.assembleMethod (m.renumber b)) := by
  have hframe : Agrees (fun f f' => f.Renumbered b f') (c.frame m) (c'.frame (m.renumber b)) :=
    (m.agrees_registers b).bind fun r r' hr =>
      .ok ⟨hname, himports, rfl, m.labels.has_renumber b.labels, hr⟩
  refine hframe.bind fun f f' hf => ?_
  rw [ClassCode.methodType_congr himports]
  exact .rest fun t => (hf.selectAll h 0).andThen fun blocks => .ok rfl

theorem Scope.LowersBody.structured {s : Scope} {ts : List Stmt} {σ σ' : Supply} {body : List Instr}
    (h : s.LowersBody ts σ body σ') : ∀ i ∈ (s.methodCode body).instrs, i.Structured := by
  intro i hi l hl
  refine h.marks.kind l (mem_markers.2 ?_)
  rcases hl with hl | hl
  · cases i with
    | label l' =>
      cases hl
      exact hi
    | _ => cases hl
  · exact h.controlled.jumps i hi l hl

namespace Symbols

theorem LowersMethods.of_getElem? {S : Symbols} {ds : List (MethodDecl × Signature)} {σ σ' : Supply}
    {ms : List MethodCode} (h : S.LowersMethods ds σ ms σ') {i : Nat} {d : MethodDecl}
    {sig : Signature} (hi : ds[i]? = some (d, sig)) :
    ∃ m σ₁ σ₂, Scope.lowerMethod ⟨S, sig⟩ d σ₁ = .ok m σ₂ ∧ ms[i]? = some m := by
  induction h generalizing i with
  | nil => simp at hi
  | @cons d' sig' ds σ σ₁ σ₂ body ms hd hs ih =>
    cases i with
    | zero =>
      cases hi
      exact ⟨_, σ, σ₁, Scope.lowerMethod_eq_ok_iff.2 ⟨body, hd, rfl⟩, rfl⟩
    | succ i => exact ih hi

end Symbols

theorem ClassCode.exists_of_assembleMethods {c : ClassCode} {ms : List MethodCode}
    {as : List MethodAssembly} (h : c.assembleMethods ms = .ok as) {i : Nat} {m : MethodCode}
    (hi : ms[i]? = some m) : ∃ a, c.assembleMethod m = .ok a ∧ as[i]? = some a := by
  induction ms generalizing as i with
  | nil => simp at hi
  | cons m' ms ih =>
    simp only [assembleMethods, bind_eq_ok_iff, pure_eq_ok_iff] at h
    obtain ⟨a, ha, rest, hrest, rfl⟩ := h
    cases i with
    | zero =>
      cases hi
      exact ⟨a, ha, rfl⟩
    | succ i => exact ih hrest hi

namespace Symbols

/-- The assembly of a method that is lowered from a fresh supply, in a class with no other method. -/
def Isolates (S : Symbols) (sig : Signature) (d : MethodDecl) (a : MethodAssembly) : Prop :=
  ∃ m σ, Scope.lowerMethod ⟨S, sig⟩ d {} = .ok m σ ∧ (S.classCode []).assembleMethod m = .ok a

theorem Isolates.unique {S : Symbols} {sig : Signature} {d : MethodDecl} {a a' : MethodAssembly}
    (h : S.Isolates sig d a) (h' : S.Isolates sig d a') : a' = a := by
  obtain ⟨m, σ, hl, ha⟩ := h
  obtain ⟨m', σ', hl', ha'⟩ := h'
  cases hl.symm.trans hl'
  cases ha.symm.trans ha'
  rfl

theorem exists_isolates {S : Symbols} {p : Program} {σ σ' : Supply} {code : ClassCode}
    {a : ClassAssembly} (hl : S.lower p σ = .ok code σ') (ha : code.assemble = .ok a) {i : Nat}
    {d : MethodDecl} {sig : Signature} (hd : p.classDecl.methods[i]? = some d)
    (hsig : S.methods[i]? = some sig) :
    ∃ m n, S.Isolates sig d m ∧ a.methods[i]? = some (m.relocate n) := by
  obtain ⟨ms, hms, rfl⟩ := lower_eq_ok_iff.1 hl
  have hpaired : (p.paired S)[i]? = some (d, sig) := by
    simp [Program.paired, List.getElem?_zip_eq_some, hd, hsig]
  obtain ⟨m, σ₁, σ₂, hm, hmi⟩ := hms.of_getElem? hpaired
  simp only [ClassCode.assemble, bind_eq_ok_iff, pure_eq_ok_iff] at ha
  obtain ⟨fields, _, as, has, rfl⟩ := ha
  obtain ⟨b, hb, hbi⟩ := ClassCode.exists_of_assembleMethods has hmi
  -- the run from the supply is the run from the fresh one, moved behind it
  have hreplay := Scope.replays_lowerMethod (b := σ₁) ⟨S, sig⟩ d {}
  rw [σ₁.behind_fresh, hm] at hreplay
  cases hfresh : Scope.lowerMethod ⟨S, sig⟩ d {} with
  | error e τ =>
    rw [hfresh] at hreplay
    cases hreplay
  | ok m₀ τ =>
    rw [hfresh] at hreplay
    cases hreplay
    obtain ⟨body, hbody, rfl⟩ := Scope.lowerMethod_eq_ok_iff.1 hfresh
    have hagrees := ClassCode.agrees_assembleMethod (S.classCode []) (S.classCode ms) rfl rfl σ₁
      hbody.structured
    obtain ⟨a₀, ha₀, rfl⟩ := hagrees.exists_left hb
    exact ⟨a₀, σ₁.labels, ⟨_, τ, hfresh, ha₀⟩, hbi⟩

end Symbols

/-- Both are one assembly, with the labels of its conditionals and loops under two numberings. -/
def MethodAssembly.SameButNumbers (a a' : MethodAssembly) : Prop :=
  ∃ m n n', a = MethodAssembly.relocate n m ∧ a' = MethodAssembly.relocate n' m

theorem Symbols.sameButNumbers_of_lower {S : Symbols} {p q : Program} {σ σ' τ τ' : Supply}
    {code code' : ClassCode} {a a' : ClassAssembly} (hp : S.lower p σ = .ok code σ')
    (hq : S.lower q τ = .ok code' τ') (ha : code.assemble = .ok a) (ha' : code'.assemble = .ok a')
    {i : Nat} {d : MethodDecl} (hi : i < S.methods.length) (hpd : p.classDecl.methods[i]? = some d)
    (hqd : q.classDecl.methods[i]? = some d) :
    ∃ m m', a.methods[i]? = some m ∧ a'.methods[i]? = some m' ∧ m.SameButNumbers m' := by
  have hsig := List.getElem?_eq_getElem hi
  obtain ⟨m, n, hm, hmi⟩ := exists_isolates hp ha hpd hsig
  obtain ⟨m', n', hm', hmi'⟩ := exists_isolates hq ha' hqd hsig
  cases hm.unique hm'
  exact ⟨_, _, hmi, hmi', m, n, n', rfl, rfl⟩

theorem Program.methods_prepared (p : Program) (o : Options) :
    (p.prepared o).classDecl.methods =
      p.classDecl.methods.map fun d => if o.optimize then d.optimize.1 else d := by
  unfold prepared
  cases o.optimize with
  | true => simp [Program.optimize]
  | false => simp

/-- Lowering a method from any supply is lowering it from the fresh one, with the numbers moved behind
what the supply has handed out. So of what the other methods of a unit do, the assembly of a method
shows no more than the numbers where its labels begin. -/
theorem Symbols.independent_of_bodies (S : Symbols) :
    (∀ (sig : Signature) (d : MethodDecl) (σ : Supply),
      Scope.lowerMethod ⟨S, sig⟩ d σ =
        σ.moved (MethodCode.renumber σ) (Scope.lowerMethod ⟨S, sig⟩ d {})) ∧
    (∀ (p q : Program) (σ σ' τ τ' : Supply) (code code' : ClassCode) (a a' : ClassAssembly),
      S.lower p σ = .ok code σ' → S.lower q τ = .ok code' τ' →
      code.assemble = .ok a → code'.assemble = .ok a' →
      ∀ (i : Nat) (d : MethodDecl), i < S.methods.length →
        p.classDecl.methods[i]? = some d → q.classDecl.methods[i]? = some d →
        ∃ m m', a.methods[i]? = some m ∧ a'.methods[i]? = some m' ∧ m.SameButNumbers m') ∧
    ∀ (p q : Program) (o : Options) (a a' : ClassAssembly), .ofProgram p = S → .ofProgram q = S →
      (p.assembled o).1 = .ok a → (q.assembled o).1 = .ok a' →
      ∀ (i : Nat) (d : MethodDecl),
        p.classDecl.methods[i]? = some d → q.classDecl.methods[i]? = some d →
        ∃ m m', a.methods[i]? = some m ∧ a'.methods[i]? = some m' ∧ m.SameButNumbers m' := by
  refine ⟨fun sig d σ => ?_, fun p q σ σ' τ τ' code code' a a' hp hq ha ha' i d hi hpd hqd =>
    sameButNumbers_of_lower hp hq ha ha' hi hpd hqd, fun p q o a a' hS hS' ha ha' i d hpd hqd => ?_⟩
  · have hreplay := Scope.replays_lowerMethod (b := σ) ⟨S, sig⟩ d {}
    rwa [σ.behind_fresh] at hreplay
  · obtain ⟨code, σ, hp, hcode⟩ := Program.assembled_eq_ok_iff.1 ha
    obtain ⟨code', τ, hq, hcode'⟩ := Program.assembled_eq_ok_iff.1 ha'
    unfold Program.lowered at hp hq
    rw [hS] at hp
    rw [hS'] at hq
    have hi : i < S.methods.length := by
      rw [← hS, Symbols.ofProgram, List.length_map]
      exact (List.getElem?_eq_some_iff.1 hpd).1
    refine sameButNumbers_of_lower hp hq hcode hcode' hi
      (d := if o.optimize then d.optimize.1 else d) ?_ ?_
    · rw [p.methods_prepared, List.getElem?_map, hpd, Option.map_some]
    · rw [q.methods_prepared, List.getElem?_map, hqd, Option.map_some]

/-- `class Tide { int level; int rise(int n) { <body> return n; } boolean high(int n) { boolean h;
if (n < level) h = false; else h = true; return h; } }` -/
def Program.tide (body : List Stmt) : Program :=
  let var (n : String) : Expr := .name n {}
  let bool (b : Bool) : Expr := .literal (.bool b) {}
  { classDecl := {
      name := "Tide"
      fields := [{ type := { name := "int" }, name := "level" }]
      methods := [
        { name := "rise", returns := { name := "int" }
          params := [{ type := { name := "int" }, name := "n" }]
          body := body ++ [.ret (some (var "n")) {}] },
        { name := "high", returns := { name := "boolean" }
          params := [{ type := { name := "int" }, name := "n" }]
          locals := [{ type := { name := "boolean" }, name := "h" }]
          body := [
            .cond (.binary .lt (var "n") (var "level") {}) (.assign (var "h") (bool false) {})
              (some (.assign (var "h") (bool true) {})) {},
            .ret (some (var "h")) {}] }] } }

/-- `while (n < level) n = n + 1;` -/
def Program.flood : List Stmt :=
  let n : Expr := .name "n" {}
  [.loop (.binary .lt n (.name "level" {}) {})
    (.assign n (.binary .add n (.literal (.int 1) {}) {}) {}) {}]

/-- The loop in the one method moves the label numbers of the other, with and without optimisation and
whatever has been lowered before. -/
theorem Program.independent_tide :
    let S := Symbols.ofProgram (tide [])
    (∀ o : Options, ∃ a a', ((tide []).assembled o).1 = .ok a ∧ ((tide flood).assembled o).1 = .ok a' ∧
      ∃ m m', a.methods[1]? = some m ∧ a'.methods[1]? = some m' ∧ m.lines ≠ m'.lines ∧
        m.SameButNumbers m') ∧
    ∃ code code' σ' τ' a a', S.lower (tide []) {} = .ok code σ' ∧
      S.lower (tide flood) { temps := 5, labels := 3 } = .ok code' τ' ∧
      code.assemble = .ok a ∧ code'.assemble = .ok a' ∧
      ∃ m m', a.methods[1]? = some m ∧ a'.methods[1]? = some m' ∧ m.SameButNumbers m' := by
  obtain ⟨_, hlower, hcompile⟩ := (Symbols.ofProgram (tide [])).independent_of_bodies
  refine ⟨fun o => ?_, ?_⟩
  · have hok : ((tide []).assembled o).1.isOk = true ∧ ((tide flood).assembled o).1.isOk = true := by
      obtain ⟨optimize⟩ := o
      cases optimize <;> decide +kernel
    have hne : ((tide []).assembled o).1.toOption.bind (·.methods[1]?.map MethodAssembly.lines) ≠
        ((tide flood).assembled o).1.toOption.bind (·.methods[1]?.map MethodAssembly.lines) := by
      obtain ⟨optimize⟩ := o
      cases optimize <;> decide +kernel
    obtain ⟨a, ha⟩ := exists_of_isOk hok.1
    obtain ⟨a', ha'⟩ := exists_of_isOk hok.2
    obtain ⟨m, m', hm, hm', hsame⟩ :=
      hcompile (tide []) (tide flood) o a a' rfl rfl ha ha' 1 _ rfl rfl
    refine ⟨a, a', ha, ha', m, m', hm, hm', ?_, hsame⟩
    intro heq
    simp [ha, ha', hm, hm', Except.toOption, heq] at hne
  · have h : ((Symbols.ofProgram (tide [])).lower (tide [])).run' {} |>.any fun code =>
        code.assemble.isOk := by
      decide +kernel
    have h' : ((Symbols.ofProgram (tide [])).lower (tide flood)).run' { temps := 5, labels := 3 } |>.any
        fun code => code.assemble.isOk := by
      decide +kernel
    obtain ⟨code, σ', hl, ha⟩ := Lower.exists_of_any h
    obtain ⟨code', τ', hl', ha'⟩ := Lower.exists_of_any h'
    obtain ⟨a, ha⟩ := exists_of_isOk ha
    obtain ⟨a', ha'⟩ := exists_of_isOk ha'
    exact ⟨code, code', σ', τ', a, a', hl, hl', ha, ha',
      hlower _ _ _ _ _ _ _ _ _ _ hl hl' ha ha' 1 _ (by decide) rfl rfl⟩

end SingleClass
