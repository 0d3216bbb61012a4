import Mathlib.Data.List.Nodup
import SingleClass.Proofs.Assembly.Derivation
import SingleClass.Proofs.Assembly.Registers
import SingleClass.Proofs.Lowering.Typing
set_option autoImplicit false

/-!
The lines that are selected for an instruction do what the instruction does (`Represents.emulates`), on
registers that represent the environment.
-/

namespace SingleClass

def MethodCode.var? (m : MethodCode) (name : String) : Option Symbol :=
  (m.locals.find? (·.name = name)).or (m.params.find? (·.name = name))

theorem MethodCode.mem_of_var? {m : MethodCode} {name : String} {v : Symbol}
    (h : m.var? name = some v) : v ∈ m.params ++ m.locals ∧ v.name = name := by
  rcases Option.or_eq_some_iff.1 h with h | ⟨_, h⟩
  · exact ⟨List.mem_append_right _ (List.mem_of_find?_eq_some h), by
      simpa using List.find?_some h⟩
  · exact ⟨List.mem_append_left _ (List.mem_of_find?_eq_some h), by
      simpa using List.find?_some h⟩

namespace Frame

/-- Registers represent an environment: each slot is in its register and the receiver of an instance
method in register 0, and their values are of the declared types. -/
structure Represents (f : Frame) (w : World) (env : Env) (registers : Nat → Option Word) : Prop where
  slots : ∀ slot n, f.registers.get? slot = some n → registers n = (env slot).map Value.word
  this : f.method.isStatic = false → ∃ r, w.this = .ref r ∧ registers 0 = some (.ref r)
  vars : ∀ name v, f.method.var? name = some v → ∀ x, env (.var name) = some x → x.fits v.ty = true
  temps : ∀ t ∈ f.method.temps, ∀ x, env (.temp t.id) = some x → x.fits t.ty = true

/-- A method of the scope in a unit without imports, its registers assigned. -/
structure InOrder (f : Frame) (s : Scope) (V : Prop) : Prop where
  typed : f.method.Typed s V
  registers : f.method.registers = .ok f.registers
  imports : f.unit.imports = []

section

variable {f : Frame} {s : Scope} {V : Prop} {w : World} {env : Env}
  {registers : Nat → Option Word}

theorem InOrder.var?_eq (hf : f.InOrder s V) {n : String} {b : Binding}
    (hb : s.lookup n = some b) (hfield : b.isField = false) : f.method.var? n = some b.symbol := by
  unfold Scope.lookup at hb
  unfold MethodCode.var?
  rw [hf.typed.locals, hf.typed.params]
  unfold Signature.local? Signature.param? at hb
  cases hl : s.method.locals.find? (·.name = n) with
  | some v =>
    simp only [hl, Option.some.injEq] at hb
    subst hb
    rfl
  | none =>
    cases hp : s.method.params.find? (·.name = n) with
    | some v =>
      simp only [hl, hp, Option.some.injEq] at hb
      subst hb
      rfl
    | none =>
      simp only [hl, hp, Option.map_eq_some_iff] at hb
      obtain ⟨v, _, rfl⟩ := hb
      simp [Binding.isField] at hfield

theorem Represents.fits_of_read (h : f.Represents w env registers) (hf : f.InOrder s V) {o : Operand}
    {t : Ty} (ho : s.TypedOperand f.method.temps o t) {v : Value} (hv : o.read w env = some v) :
    v.fits t = true := by
  cases ho with
  | int | bool =>
    cases hv
    rfl
  | var hb hfield => exact h.vars _ _ (hf.var?_eq hb hfield) v hv
  | temp hd _ _ => exact h.temps _ hd v hv
  | this hs =>
    obtain ⟨r, hr, _⟩ := h.this (hf.typed.isStatic.trans hs)
    cases hv
    rw [hr]
    rfl
  | @null t href hescape hvoid =>
    cases hv
    obtain ⟨kind, isArray, isVararg⟩ := t
    cases isArray <;> cases kind <;> simp_all [Value.fits, Ty.isReference, Ty.isEscape, Ty.asValue]

theorem Represents.register (h : f.Represents w env registers) (hf : f.InOrder s V) {o : Operand}
    {t : Ty} (ho : s.TypedOperand f.method.temps o t) {n : Nat} (hn : f.registers.operand o = .ok n) :
    registers n = (o.read w env).map Value.word := by
  cases ho with
  | int | bool | null _ _ _ => simp [Registers.operand] at hn
  | var _ _ => exact h.slots _ _ (Registers.var_eq_ok_iff.1 hn)
  | temp _ _ _ => exact h.slots _ _ (Registers.temp_eq_ok_iff.1 hn)
  | this hs =>
    obtain ⟨r, hr, hreg⟩ := h.this (hf.typed.isStatic.trans hs)
    simp only [Registers.operand, Scope.thisOperand] at hn
    split at hn
    · cases hn
    · cases hn
      simp [hreg, Scope.thisOperand, Operand.read, hr, Value.word]

theorem Represents.effect_load (h : f.Represents w env registers) (hf : f.InOrder s V) {o : Operand}
    {t : Ty} (ho : s.TypedOperand f.method.temps o t) {l : Line} (hl : f.load o = .ok l)
    (stack : List Word) :
    l.isControl = false ∧ l.effect w ⟨registers, stack⟩ =
      Action.ofOption (o.read w env) >>= fun v => pure ⟨registers, v.word :: stack⟩ := by
  have hcell : (f.registers.operand o >>= fun n => Cell.of o.ty >>= fun c =>
      pure (Line.load c n)) = .ok l → l.isControl = false ∧ l.effect w ⟨registers, stack⟩ =
      Action.ofOption (o.read w env) >>= fun v => pure ⟨registers, v.word :: stack⟩ := by
    intro hl
    simp only [bind_eq_ok_iff, pure_eq_ok_iff] at hl
    obtain ⟨n, hn, c, hc, rfl⟩ := hl
    refine ⟨rfl, ?_⟩
    simp only [Line.effect, h.register hf ho hn]
    cases hv : o.read w env with
    | none => rfl
    | some v =>
      have hfits := Ty.fits_of_asValue (u := o.ty) (by rw [← (ho.scalar hf.typed.closed).1]; rfl)
        (h.fits_of_read hf ho hv)
      simp only [Option.map_some, Value.admits_word (Ty.cell_of_fits hc hfits), if_true]
      rfl
  cases o with
  | int v | bool v | null t =>
    cases hl
    exact ⟨rfl, rfl⟩
  | var n t | temp d | this c => exact hcell hl

theorem Represents.set (h : f.Represents w env registers) (hf : f.InOrder s V) {slot : Slot} {n : Nat}
    {v : Value} (hn : f.registers.get? slot = some n)
    (hvar : ∀ name u, slot = .var name → f.method.var? name = some u → v.fits u.ty = true)
    (htemp : ∀ t ∈ f.method.temps, slot = .temp t.id → v.fits t.ty = true) :
    f.Represents w (env.set slot v) fun k => if k = n then some v.word else registers k := by
  obtain ⟨hdistinct, _, _⟩ := MethodCode.registers_spec hf.registers
  refine ⟨?_, ?_, ?_, ?_⟩
  · intro slot' n' hn'
    by_cases hs : slot' = slot
    · subst hs
      rw [hn] at hn'
      cases hn'
      simp [Env.set_self]
    · have hne : n' ≠ n := by
        intro hne
        subst hne
        exact hs (hdistinct.injective _ _ _ hn' hn)
      rw [Env.set_of_ne _ _ hs, if_neg hne]
      exact h.slots _ _ hn'
  · intro hstatic
    obtain ⟨r, hr, hreg⟩ := h.this hstatic
    have hbound := (hdistinct.bounds _ _ hn).1
    simp only [hstatic, Bool.false_eq_true, if_false] at hbound
    refine ⟨r, hr, ?_⟩
    rw [if_neg (by omega)]
    exact hreg
  · intro name u hu x hx
    by_cases hs : Slot.var name = slot
    · subst hs
      rw [Env.set_self] at hx
      cases hx
      exact hvar name u rfl hu
    · rw [Env.set_of_ne _ _ hs] at hx
      exact h.vars name u hu x hx
  · intro t ht x hx
    by_cases hs : Slot.temp t.id = slot
    · subst hs
      rw [Env.set_self] at hx
      cases hx
      exact htemp t ht rfl
    · rw [Env.set_of_ne _ _ hs] at hx
      exact h.temps t ht x hx

theorem effect_store {c : Cell} {n : Nat} {v : Value} (hc : v.cell = c) (stack : List Word) :
    (Line.store c n).effect w ⟨registers, v.word :: stack⟩ =
      pure ⟨fun k => if k = n then some v.word else registers k, stack⟩ := by
  simp only [Line.effect, Value.admits_word hc, if_true]
  rfl

theorem Represents.effect_storeTemp (h : f.Represents w env registers) (hf : f.InOrder s V) {d : Temp}
    (hd : d ∈ f.method.temps) {l : Line} (hl : f.storeTemp d = .ok l) {v : Value}
    (hv : v.fits d.ty = true) (stack : List Word) :
    l.isControl = false ∧ ∃ registers', l.effect w ⟨registers, v.word :: stack⟩ =
      pure ⟨registers', stack⟩ ∧ f.Represents w (env.set (.temp d.id) v) registers' := by
  obtain ⟨n, c, hn, hc, rfl⟩ := storeTemp_eq_ok hl
  have hget := Registers.temp_eq_ok_iff.1 hn
  refine ⟨rfl, _, effect_store (Ty.cell_of_fits hc hv) stack, h.set hf hget ?_ ?_⟩
  · intro name u hslot
    cases hslot
  · intro t ht hslot
    -- temporaries are told apart by their numbers
    rw [List.inj_on_of_nodup_map hf.typed.distinct ht hd (Slot.temp.inj hslot).symm]
    exact hv

theorem Represents.effect_storeVar (h : f.Represents w env registers) (hf : f.InOrder s V)
    {name : String} {u : Symbol} (hu : f.method.var? name = some u) {t : Ty} {l : Line}
    (hl : f.storeVar name t = .ok l) (ht : t.asValue = u.ty.asValue) {v : Value}
    (hv : v.fits u.ty = true) (stack : List Word) :
    l.isControl = false ∧ ∃ registers', l.effect w ⟨registers, v.word :: stack⟩ =
      pure ⟨registers', stack⟩ ∧ f.Represents w (env.set (.var name) v) registers' := by
  obtain ⟨n, c, hn, hc, rfl⟩ := storeVar_eq_ok hl
  have hget := Registers.var_eq_ok_iff.1 hn
  have hcell := Ty.cell_of_fits hc (Ty.fits_of_asValue ht.symm hv)
  refine ⟨rfl, _, effect_store hcell stack, h.set hf hget ?_ ?_⟩
  · intro name' u' hslot hu'
    cases hslot
    rw [hu] at hu'
    cases hu'
    exact hv
  · intro t _ hslot
    cases hslot

end

end Frame

theorem BinaryOp.word_compute {op : BinaryOp} {o : WordOp} {t : Ty} {u v : Value}
    (ho : op.word? = some o) (hop : op.Takes t) (hu : u.fits t = true) (hv : v.fits t = true) :
    ∃ x y, u.word = .int x ∧ v.word = .int y ∧
      (o.compute x y).map Word.int = (op.apply u v).map Value.word := by
  have harith : op.family = .arithmetic → ∃ x y, u = .int x ∧ v = .int y := by
    intro hfamily
    simp only [BinaryOp.Takes, hfamily] at hop
    subst hop
    obtain ⟨x, rfl⟩ := Ty.fits_int hu
    obtain ⟨y, rfl⟩ := Ty.fits_int hv
    exact ⟨x, y, rfl, rfl⟩
  have hlogic : op.family = .logical → ∃ x y, u = .bool x ∧ v = .bool y := by
    intro hfamily
    simp only [BinaryOp.Takes, hfamily] at hop
    subst hop
    obtain ⟨x, rfl⟩ := Ty.fits_boolean hu
    obtain ⟨y, rfl⟩ := Ty.fits_boolean hv
    exact ⟨x, y, rfl, rfl⟩
  cases op <;> simp only [BinaryOp.word?, Option.some.injEq, reduceCtorEq] at ho <;> subst ho
  case div =>
    obtain ⟨x, y, rfl, rfl⟩ := harith rfl
    refine ⟨x, y, rfl, rfl, ?_⟩
    by_cases hy : y = 0
    · simp [WordOp.compute, BinaryOp.apply, BinaryOp.compute, hy]
    · simp [WordOp.compute, BinaryOp.apply, BinaryOp.compute, hy, Value.word]
  case and | or =>
    obtain ⟨x, y, rfl, rfl⟩ := hlogic rfl
    exact ⟨_, _, rfl, rfl, by cases x <;> cases y <;> rfl⟩
  all_goals
    obtain ⟨x, y, rfl, rfl⟩ := harith rfl
    exact ⟨x, y, rfl, rfl, rfl⟩

theorem BinaryOp.test_holds {op : BinaryOp} {c : Cell} {t : Test} {u v : Value}
    (ht : op.test c = .ok t) (hu : u.cell = c) (hv : v.cell = c) :
    ∃ b, op.apply u v = some (.bool b) ∧ t.holds? u.word v.word = some b := by
  subst hu
  cases u <;> cases v <;> simp only [Value.cell, reduceCtorEq] at hv <;> cases op <;>
    simp only [BinaryOp.test, Value.cell, Except.ok.injEq, reduceCtorEq] at ht <;> subst ht
  case bool.bool.eq x y | bool.bool.ne x y => exact ⟨_, rfl, by cases x <;> cases y <;> rfl⟩
  all_goals exact ⟨_, rfl, rfl⟩

theorem BinaryOp.fits_apply {op : BinaryOp} {u v x : Value} (h : op.apply u v = some x) :
    x.fits op.resultTy = true := by
  unfold BinaryOp.apply at h
  split at h
  · rename_i m n
    cases hc : op.compute m n with
    | some k =>
      have hfamily := BinaryOp.arithmetic_of_compute hc
      cases op <;> simp only [BinaryOp.family, reduceCtorEq] at hfamily <;>
        simp only [hc, Option.map_some, Option.some.injEq] at h <;> subst h <;> rfl
    | none =>
      cases op <;> simp only [hc, Option.map_none, Option.some.injEq, reduceCtorEq] at h <;>
        subst h <;> rfl
  · cases op <;> simp only [Option.some.injEq, reduceCtorEq] at h <;> subst h <;> rfl
  · cases op <;> simp only [Option.some.injEq, reduceCtorEq] at h <;> subst h <;> rfl
  · cases h

theorem Cell.compared_of_fits {op : BinaryOp} {l r t : Ty} {c : Cell}
    (h : Cell.compared op l r = .ok c) (hl : l.asValue = t.asValue) {v : Value}
    (hv : v.fits t = true) : v.cell = c := by
  have hvl := Ty.fits_of_asValue hl.symm hv
  unfold Cell.compared at h
  split at h
  · rename_i href
    simp only [Bool.and_eq_true] at href
    cases h
    obtain ⟨r, rfl⟩ := Ty.fits_reference href.1.2 hvl
    rfl
  · exact Ty.cell_of_fits h hvl

theorem Action.of_ofOption {M A : Type} {o : Option A} {μ μ' : M} {v : A}
    (h : (Action.ofOption o : Action M A) μ = .returns v μ') : o = some v := by
  cases o with
  | none => cases h
  | some u =>
    cases h
    rfl

theorem Action.ofOption_bind {M A B : Type} (o : Option A) (g : A → Option B) :
    (Action.ofOption (o >>= g) : Action M B) = Action.ofOption o >>= fun v => Action.ofOption (g v) := by
  cases o <;> rfl

namespace MethodAssembly

variable {a : MethodAssembly} {w : World}

theorem Emulates.operator {pc k : Nat} {op : BinaryOp} {l r t : Ty} {ls : List Line}
    (hls : Frame.operator k op l r = .ok ls) (hop : op.Takes t) (hl : l.asValue = t.asValue)
    (hat : Located a.lines pc ls) (hlabels : (Line.labels a.lines).Nodup) {u v : Value}
    (hu : u.fits t = true) (hv : v.fits t = true) (registers : Nat → Option Word)
    (stack : List Word) :
    Emulates a w pc ls.length ⟨registers, v.word :: u.word :: stack⟩
      (Action.ofOption (op.apply u v)) fun x s =>
        s = ⟨registers, x.word :: stack⟩ ∧ x.fits op.resultTy = true := by
  rcases Frame.operator_cases hls with ⟨o, ho, rfl⟩ | ⟨_, c, test, hc, htest, rfl⟩
  · obtain ⟨x, y, hx, hy, hcompute⟩ := BinaryOp.word_compute ho hop hu hv
    refine Emulates.line (g := fun z => ⟨registers, z.word :: stack⟩) hat.head rfl ?_ ?_
    · simp only [Line.effect, hx, hy]
      cases hp : o.compute x y with
      | none =>
        rw [hp] at hcompute
        rw [Option.map_eq_none_iff.1 hcompute.symm]
        rfl
      | some n =>
        rw [hp] at hcompute
        obtain ⟨z, hz, hword⟩ := Option.map_eq_some_iff.1 hcompute.symm
        rw [hz]
        show _ = Pure.pure (Activation.mk registers (z.word :: stack))
        rw [hword]
        rfl
    · intro μ z μ' hz
      exact ⟨rfl, BinaryOp.fits_apply (Action.of_ofOption hz)⟩
  · obtain ⟨b, hb, hholds⟩ := BinaryOp.test_holds htest (Cell.compared_of_fits hc hl hu)
      (Cell.compared_of_fits hc hl hv)
    intro μ
    rw [hb]
    obtain ⟨s', hr, rfl⟩ := Emulates.compare hat hlabels hholds registers stack μ
    exact ⟨_, hr, rfl, BinaryOp.fits_apply hb⟩

theorem Emulates.unary {pc : Nat} {op : UnaryOp} (hat : Located a.lines pc (Frame.unaryLines op))
    {v : Value} (hv : v.fits op.ty = true) (registers : Nat → Option Word) (stack : List Word) :
    Emulates a w pc (Frame.unaryLines op).length ⟨registers, v.word :: stack⟩
      (Action.ofOption (op.apply v)) fun x s =>
        s = ⟨registers, x.word :: stack⟩ ∧ x.fits op.ty = true := by
  cases op with
  | neg =>
    obtain ⟨n, rfl⟩ := Ty.fits_int hv
    exact Emulates.act hat.head rfl rfl ⟨rfl, rfl⟩
  | not =>
    obtain ⟨b, rfl⟩ := Ty.fits_boolean hv
    intro μ
    refine ⟨_, (reaches_push hat.head _ μ).trans (.single ?_), rfl, rfl⟩
    rw [step_plain hat.tail.head rfl]
    cases b <;> rfl

end MethodAssembly

namespace Frame

open MethodAssembly

/-- An empty stack, and registers that represent the environment. -/
def Rests (f : Frame) (w : World) (env : Env) (s : Activation) : Prop :=
  s.stack = [] ∧ f.Represents w env s.registers

section

variable {f : Frame} {s : Scope} {V : Prop} {w : World} {env : Env} {a : MethodAssembly}
  {registers : Nat → Option Word} {pc k : Nat} {ls : List Line}

theorem Represents.emulates_load (h : f.Represents w env registers) (hf : f.InOrder s V) {o : Operand}
    {t : Ty} (ho : s.TypedOperand f.method.temps o t) {l : Line} (hl : f.load o = .ok l)
    (hat : a.lines[pc]? = some l) (stack : List Word) :
    Emulates a w pc 1 ⟨registers, stack⟩ (Action.ofOption (o.read w env)) fun v s' =>
      s' = ⟨registers, v.word :: stack⟩ ∧ v.fits t = true := by
  obtain ⟨hcontrol, heffect⟩ := h.effect_load hf ho hl stack
  refine .line hat hcontrol heffect ?_
  intro μ v μ' hv
  exact ⟨rfl, h.fits_of_read hf ho (Action.of_ofOption hv)⟩

theorem Represents.emulates_loadAll (h : f.Represents w env registers) (hf : f.InOrder s V)
    {os : List Operand} {ts : List Ty}
    (hos : List.Forall₂ (s.TypedOperand f.method.temps) os ts) (hls : f.loadAll os = .ok ls)
    (hat : Located a.lines pc ls) (stack : List Word) :
    Emulates a w pc ls.length ⟨registers, stack⟩ (Action.ofOption (Operand.readAll w env os))
      fun vs s' => s' = ⟨registers, (vs.map Value.word).reverse ++ stack⟩ ∧
        List.Forall₂ (fun v t => Value.fits t v = true) vs ts := by
  induction hos generalizing pc ls stack with
  | nil =>
    cases hls
    exact .pure ⟨rfl, .nil⟩
  | cons ho _ ih =>
    obtain ⟨l, ms, hl, hms, rfl⟩ := loadAll_cons_eq_ok.1 hls
    simp only [Operand.readAll, Action.ofOption_bind]
    refine ((h.emulates_load hf ho hl hat.head stack).bind (k := ms.length) ?_).cast
      (Nat.add_comm 1 _)
    intro v s' hs
    obtain ⟨rfl, hv⟩ := hs
    refine Emulates.bind (k := 0) (ih hms hat.tail _) ?_
    intro vs s' hs
    obtain ⟨rfl, hvs⟩ := hs
    exact .pure ⟨by simp, .cons hv hvs⟩

theorem Represents.emulates_storeTemp (h : f.Represents w env registers) (hf : f.InOrder s V)
    {d : Temp} (hd : d ∈ f.method.temps) {l : Line} (hl : f.storeTemp d = .ok l)
    (hat : a.lines[pc]? = some l) {v : Value} (hv : v.fits d.ty = true) :
    Emulates a w pc 1 ⟨registers, [v.word]⟩ (pure (env.set (.temp d.id) v)) (f.Rests w) := by
  obtain ⟨hcontrol, registers', heffect, h'⟩ := h.effect_storeTemp hf hd hl hv []
  exact .act hat hcontrol heffect ⟨rfl, h'⟩

theorem Represents.emulates_define (h : f.Represents w env registers) (hf : f.InOrder s V) {d : Temp}
    (hd : d ∈ f.method.temps) {l st : Line} (hst : f.storeTemp d = .ok st)
    (hat : Located a.lines pc [l, st]) (hcontrol : l.isControl = false) {stack : List Word}
    {x : Action Memory Value}
    (heffect : l.effect w ⟨registers, stack⟩ = x >>= fun v => pure ⟨registers, [v.word]⟩)
    (hfits : ∀ μ v μ', x μ = .returns v μ' → v.fits d.ty = true) :
    Emulates a w pc 2 ⟨registers, stack⟩ (x >>= fun v => pure (env.set (.temp d.id) v))
      (f.Rests w) := by
  refine Emulates.bind (n := 1) (k := 1)
    (R := fun v s' => s' = ⟨registers, [v.word]⟩ ∧ v.fits d.ty = true)
    (.line hat.head hcontrol heffect fun μ v μ' hv => ⟨rfl, hfits μ v μ' hv⟩) ?_
  intro v s' hs
  obtain ⟨rfl, hv⟩ := hs
  exact h.emulates_storeTemp hf hd hst hat.tail.head hv

theorem Represents.emulates_perform (h : f.Represents w env registers) {l : Line}
    (hat : a.lines[pc]? = some l) (hcontrol : l.isControl = false) {stack : List Word}
    {x : Action Memory Unit}
    (heffect : l.effect w ⟨registers, stack⟩ = x >>= fun _ => pure ⟨registers, []⟩) :
    Emulates a w pc 1 ⟨registers, stack⟩ (x >>= fun _ => pure env) (f.Rests w) := by
  refine Emulates.bind (n := 1) (k := 0) (R := fun _ s' => s' = ⟨registers, []⟩)
    (.line hat hcontrol heffect fun _ _ _ _ => rfl) ?_
  intro _ s' hs
  subst hs
  exact .pure ⟨rfl, h⟩

theorem Represents.emulates_assignVar (h : f.Represents w env registers) (hf : f.InOrder s V)
    {n : String} {b : Binding} {v : Operand} (hb : s.lookup n = some b) (hfield : b.isField = false)
    (hv : s.TypedOperand f.method.temps v b.symbol.ty.asValue)
    (hls : f.Selects k (.assign (.var n b.symbol.ty.asValue) v) ls)
    (hat : Located a.lines pc ls) :
    Emulates a w pc ls.length ⟨registers, []⟩
      ((Instr.assign (.var n b.symbol.ty.asValue) v).effect w env) (f.Rests w) := by
  cases hls with
  | assignVar hl hst =>
    refine (h.emulates_load hf hv hl hat.head []).bind (k := 1) ?_
    intro x s' hs
    obtain ⟨rfl, hx⟩ := hs
    obtain ⟨hcontrol, registers', heffect, h'⟩ :=
      h.effect_storeVar hf (hf.var?_eq hb hfield) hst rfl hx []
    exact .act hat.tail.head hcontrol heffect ⟨rfl, h'⟩

theorem InOrder.element_eq (hf : f.InOrder s V) {o : Operand} {t : Ty}
    (ho : s.TypedOperand f.method.temps o t) : o.ty.element = t.element := by
  have helement := congrArg Ty.element (ho.scalar hf.typed.closed).1
  rwa [Ty.element_asValue] at helement

theorem Represents.emulates_assignElement (h : f.Represents w env registers) (hf : f.InOrder s V)
    {o i v : Operand} {t : Ty} (ho : s.TypedOperand f.method.temps o t) (harray : t.isArray = true)
    (hi : s.TypedOperand f.method.temps i .int) (hv : s.TypedOperand f.method.temps v t.element)
    (hls : f.Selects k (.assign (.element o i) v) ls) (hat : Located a.lines pc ls) :
    Emulates a w pc ls.length ⟨registers, []⟩ ((Instr.assign (.element o i) v).effect w env)
      (f.Rests w) := by
  cases hls with
  | @assignElement _ _ _ _ c hls hc =>
    simp only [loadAll_cons_eq_ok, loadAll_nil_eq_ok] at hls
    obtain ⟨lo, _, hlo, ⟨li, _, hli, ⟨lv, _, hlv, rfl, rfl⟩, rfl⟩, rfl⟩ := hls
    refine (h.emulates_load hf ho hlo hat.head []).bind (k := 3) ?_
    intro array s' hs
    obtain ⟨rfl, hfa⟩ := hs
    refine (h.emulates_load hf hi hli hat.tail.head _).bind (k := 2) ?_
    intro index s' hs
    obtain ⟨rfl, hfi⟩ := hs
    refine (h.emulates_load hf hv hlv hat.tail.tail.head _).bind (k := 1) ?_
    intro x s' hs
    obtain ⟨rfl, hfx⟩ := hs
    obtain ⟨r, rfl⟩ := Ty.fits_reference (by simp [Ty.isReference, harray]) hfa
    obtain ⟨n, rfl⟩ := Ty.fits_int hfi
    rw [hf.element_eq ho] at hc
    have hvalue : x.word.value? c = some x := by
      rw [← Ty.cell_of_fits hc hfx]
      exact Value.value?_word x
    refine h.emulates_perform hat.tail.tail.tail.head rfl ?_
    simp only [Line.effect, Value.word_int, Value.word_ref, hvalue]
    rfl

theorem Represents.emulates_binary (h : f.Represents w env registers) (hf : f.InOrder s V) {d : Temp}
    {op : BinaryOp} {l r : Operand} {t : Ty} (hop : op.Takes t)
    (hl : s.TypedOperand f.method.temps l t) (hr : s.TypedOperand f.method.temps r t)
    (hty : d.ty = op.resultTy) (hd : d ∈ f.method.temps)
    (hls : f.Selects k (.binary d op l r) ls) (hat : Located a.lines pc ls)
    (hlabels : (Line.labels a.lines).Nodup) :
    Emulates a w pc ls.length ⟨registers, []⟩ ((Instr.binary d op l r).effect w env) (f.Rests w) := by
  cases hls with
  | @binary _ _ _ _ _ os st hls hos hst =>
    simp only [loadAll_cons_eq_ok, loadAll_nil_eq_ok] at hls
    obtain ⟨ll, _, hll, ⟨lr, _, hlr, rfl, rfl⟩, rfl⟩ := hls
    have hat' : Located a.lines pc (ll :: lr :: (os ++ [st])) := hat
    refine ((h.emulates_load hf hl hll hat'.head []).bind (k := 1 + (os.length + 1)) ?_).cast
      (by simp only [List.length_append, List.length_cons, List.length_nil]; omega)
    intro x s' hs
    obtain ⟨rfl, hx⟩ := hs
    refine (h.emulates_load hf hr hlr hat'.tail.head _).bind ?_
    intro y s' hs
    obtain ⟨rfl, hy⟩ := hs
    have htl : l.ty.asValue = t.asValue := by
      rw [← (hl.scalar hf.typed.closed).1]
      rfl
    refine (Emulates.operator hos hop htl hat'.tail.tail.left hlabels hx hy registers []).bind ?_
    intro z s' hs
    obtain ⟨rfl, hz⟩ := hs
    exact h.emulates_storeTemp hf hd hst hat'.tail.tail.right.head (hty ▸ hz)

theorem Represents.emulates_unary (h : f.Represents w env registers) (hf : f.InOrder s V) {d : Temp}
    {op : UnaryOp} {o : Operand} (ho : s.TypedOperand f.method.temps o op.ty) (hty : d.ty = op.ty)
    (hd : d ∈ f.method.temps) (hls : f.Selects k (.unary d op o) ls)
    (hat : Located a.lines pc ls) :
    Emulates a w pc ls.length ⟨registers, []⟩ ((Instr.unary d op o).effect w env) (f.Rests w) := by
  cases hls with
  | unary hl hst =>
    refine ((h.emulates_load hf ho hl hat.head []).bind (k := (unaryLines op).length + 1) ?_).cast
      (by simp only [List.length_append, List.length_cons, List.length_nil]; omega)
    intro x s' hs
    obtain ⟨rfl, hx⟩ := hs
    refine (Emulates.unary hat.tail.left hx registers []).bind ?_
    intro z s' hs
    obtain ⟨rfl, hz⟩ := hs
    exact h.emulates_storeTemp hf hd hst hat.tail.right.head (hty ▸ hz)

theorem Represents.emulates_new (h : f.Represents w env registers) (hf : f.InOrder s V) {d : Temp}
    (hty : d.ty = s.symbols.ownTy) (hd : d ∈ f.method.temps)
    (hls : f.Selects k (.new d s.symbols.className) ls) (hat : Located a.lines pc ls) :
    Emulates a w pc ls.length ⟨registers, []⟩ ((Instr.new d s.symbols.className).effect w env)
      (f.Rests w) := by
  cases hls with
  | new hst =>
    have hname : f.unit.internalName s.symbols.className = s.symbols.className := by
      simp [ClassCode.internalName, internalName, findImport, hf.imports]
    refine h.emulates_define hf hd hst hat rfl ?_ ?_
    · rw [hname]
      rfl
    · intro μ v μ' hv
      cases hv
      rw [hty]
      rfl

theorem effect_allocate (w : World) (registers : Nat → Option Word) {element : Ty} {l : Line}
    (hl : f.allocate element = .ok l) (helement : element.element = element) (n : Int32)
    (stack : List Word) :
    l.isControl = false ∧ l.effect w ⟨registers, .int n :: stack⟩ =
      Memory.allocArray element.elementCell (.int n) >>= fun v =>
        pure ⟨registers, v.word :: stack⟩ := by
  simp only [allocate, bind_eq_ok_iff] at hl
  obtain ⟨c, hc, hl⟩ := hl
  rw [Ty.elementCell_eq (helement.symm ▸ hc)]
  cases c with
  | int | bool =>
    cases hl
    exact ⟨rfl, rfl⟩
  | object =>
    simp only [bind_eq_ok_iff] at hl
    obtain ⟨t, _, hl⟩ := hl
    split at hl <;> cases hl <;> exact ⟨rfl, rfl⟩

theorem Represents.emulates_newArray (h : f.Represents w env registers) (hf : f.InOrder s V)
    {d : Temp} {element : Ty} {size : Operand} (hty : d.ty = element.array)
    (helement : element.element = element) (hsize : s.TypedOperand f.method.temps size .int)
    (hd : d ∈ f.method.temps) (hls : f.Selects k (.newArray d element size) ls)
    (hat : Located a.lines pc ls) :
    Emulates a w pc ls.length ⟨registers, []⟩ ((Instr.newArray d element size).effect w env)
      (f.Rests w) := by
  cases hls with
  | newArray hl hal hst =>
    refine (h.emulates_load hf hsize hl hat.head []).bind (k := 2) ?_
    intro x s' hs
    obtain ⟨rfl, hx⟩ := hs
    obtain ⟨n, rfl⟩ := Ty.fits_int hx
    obtain ⟨hcontrol, heffect⟩ := effect_allocate w registers hal helement n []
    refine h.emulates_define hf hd hst hat.tail hcontrol heffect ?_
    intro μ v μ' hv
    obtain ⟨k, rfl⟩ := Memory.of_allocArray hv
    rw [hty]
    simp [Value.fits, Ty.array, Ty.elementCell]

theorem Represents.emulates_arrayLoad (h : f.Represents w env registers) (hf : f.InOrder s V)
    {d : Temp} {o i : Operand} {t : Ty} (ho : s.TypedOperand f.method.temps o t)
    (harray : t.isArray = true) (hi : s.TypedOperand f.method.temps i .int) (hty : d.ty = t.element)
    (hd : d ∈ f.method.temps) (hls : f.Selects k (.arrayLoad d o i) ls)
    (hat : Located a.lines pc ls) :
    Emulates a w pc ls.length ⟨registers, []⟩ ((Instr.arrayLoad d o i).effect w env)
      (f.Rests w) := by
  cases hls with
  | arrayLoad hls hc hst =>
    simp only [loadAll_cons_eq_ok, loadAll_nil_eq_ok] at hls
    obtain ⟨lo, _, hlo, ⟨li, _, hli, rfl, rfl⟩, rfl⟩ := hls
    refine (h.emulates_load hf ho hlo hat.head []).bind (k := 3) ?_
    intro array s' hs
    obtain ⟨rfl, hfa⟩ := hs
    refine (h.emulates_load hf hi hli hat.tail.head _).bind (k := 2) ?_
    intro index s' hs
    obtain ⟨rfl, hfi⟩ := hs
    obtain ⟨r, rfl⟩ := Ty.fits_reference (by simp [Ty.isReference, harray]) hfa
    obtain ⟨n, rfl⟩ := Ty.fits_int hfi
    rw [hf.element_eq ho] at hc
    have hcell : ∀ μ v μ', Memory.loadElement (.ref r) (.int n) μ = .returns v μ' →
        v.cell = t.elementCell := by
      intro μ v μ' hv
      obtain ⟨k, rfl⟩ := Memory.of_loadElement hv
      rcases Ty.fits_array harray hfa with hnull | ⟨k', hk⟩
      · cases hnull
      · simp only [Value.ref.injEq, Ref.array.injEq] at hk
        exact hk.1
    refine h.emulates_define hf hd hst hat.tail.tail rfl ?_ ?_
    · funext μ
      simp only [Line.effect, Value.word_int, Value.word_ref, Action.bind_apply]
      cases hv : Memory.loadElement (.ref r) (.int n) μ with
      | returns v μ' =>
        simp only [hcell μ v μ' hv, Ty.elementCell_eq hc, if_true]
        rfl
      | fails μ' => rfl
      | diverges => rfl
    · intro μ v μ' hv
      exact hty ▸ Ty.fits_element hc (hcell μ v μ' hv)

theorem Represents.emulates_arrayLength (h : f.Represents w env registers) (hf : f.InOrder s V)
    {d : Temp} {o : Operand} {t : Ty} (ho : s.TypedOperand f.method.temps o t)
    (harray : t.isArray = true) (hty : d.ty = .int) (hd : d ∈ f.method.temps)
    (hls : f.Selects k (.arrayLength d o) ls) (hat : Located a.lines pc ls) :
    Emulates a w pc ls.length ⟨registers, []⟩ ((Instr.arrayLength d o).effect w env)
      (f.Rests w) := by
  cases hls with
  | arrayLength hl hst =>
    refine (h.emulates_load hf ho hl hat.head []).bind (k := 2) ?_
    intro x s' hs
    obtain ⟨rfl, hx⟩ := hs
    obtain ⟨r, rfl⟩ := Ty.fits_reference (by simp [Ty.isReference, harray]) hx
    refine h.emulates_define hf hd hst hat.tail rfl rfl ?_
    intro μ v μ' hv
    exact hty ▸ Memory.of_length hv

theorem Represents.emulates_this (h : f.Represents w env registers) (hf : f.InOrder s V)
    (hs : s.method.isStatic = false) (hat : a.lines[pc]? = some (.load .object 0)) :
    ∃ r, w.this = .ref r ∧ Emulates a w pc 1 ⟨registers, []⟩ (pure ()) fun _ s' =>
      s' = ⟨registers, [.ref r]⟩ := by
  obtain ⟨r, hr, hreg⟩ := h.this (hf.typed.isStatic.trans hs)
  refine ⟨r, hr, .act hat rfl ?_ rfl⟩
  simp only [Line.effect, hreg]
  rfl

theorem Represents.emulates_getField (h : f.Represents w env registers) (hf : f.InOrder s V)
    {d : Temp} {field : String} {t : Ty} (hs : s.method.isStatic = false) (hty : d.ty = t)
    (hd : d ∈ f.method.temps) (hls : f.Selects k (.getField d field t) ls)
    (hat : Located a.lines pc ls) :
    Emulates a w pc ls.length ⟨registers, []⟩ ((Instr.getField d field t).effect w env)
      (f.Rests w) := by
  cases hls with
  | getField hu hst =>
    obtain ⟨r, hr, hload⟩ := h.emulates_this hf hs hat.head
    have hencodes := ClassCode.encodes_of_fieldType hu
    refine Emulates.bind (k := 2) (f := fun _ => (Instr.getField d field t).effect w env) hload ?_
    intro _ s' hs
    subst hs
    simp only [Instr.effect, hr]
    refine h.emulates_define hf hd hst hat.tail rfl ?_ ?_
    · rw [← hencodes.getField]
      rfl
    · intro μ v μ' hv
      exact hty ▸ Memory.of_getField hv

theorem Represents.emulates_putField (h : f.Represents w env registers) (hf : f.InOrder s V)
    {field : String} {t : Ty} {v : Operand} (hs : s.method.isStatic = false)
    (hv : s.TypedOperand f.method.temps v t) (hls : f.Selects k (.putField field t v) ls)
    (hat : Located a.lines pc ls) :
    Emulates a w pc ls.length ⟨registers, []⟩ ((Instr.putField field t v).effect w env)
      (f.Rests w) := by
  cases hls with
  | putField hl hu =>
    obtain ⟨r, hr, hload⟩ := h.emulates_this hf hs hat.head
    refine Emulates.bind (k := 2) (f := fun _ => (Instr.putField field t v).effect w env) hload ?_
    intro _ s' hs
    subst hs
    refine (h.emulates_load hf hv hl hat.tail.head _).bind (k := 1) ?_
    intro x s' hs
    obtain ⟨rfl, hx⟩ := hs
    rw [hr]
    refine h.emulates_perform hat.tail.tail.head rfl ?_
    simp only [Line.effect, (ClassCode.encodes_of_fieldType hu).value hx]
    rfl

theorem length_fieldTypes {c : ClassCode} {ts : List Ty} {ds : List FieldType}
    (h : c.fieldTypes ts = .ok ds) : ds.length = ts.length := by
  induction ts generalizing ds with
  | nil =>
    cases h
    rfl
  | cons t ts ih =>
    simp only [ClassCode.fieldTypes, bind_eq_ok_iff, pure_eq_ok_iff] at h
    obtain ⟨d, _, ds', hds, rfl⟩ := h
    simp [ih hds]

theorem effect_invoke {c : Call} {u : MethodType} (hu : f.unit.methodType c.params c.ret = .ok u)
    (hdispatch : c.dispatch ≠ .static) {r : Ref} {vs : List Value}
    (hvs : List.Forall₂ (fun v t => Value.fits t v = true) vs (c.params.map Ty.asValue)) :
    (Line.invoke c.dispatch c.owner c.method u).effect w
        ⟨registers, (vs.map Value.word).reverse ++ [.ref r]⟩ =
      w.call c.method (some (.ref r)) vs c.ret >>= fun result =>
        pure ⟨registers, result.toList.map Value.word⟩ := by
  obtain ⟨ps, d, hps, hd, rfl⟩ := ClassCode.methodType_eq_ok hu
  have hfits : List.Forall₂ (fun v t => Value.fits t v = true) vs c.params := by
    rw [List.forall₂_map_right_iff] at hvs
    exact hvs.imp fun v t hv => Ty.fits_of_asValue rfl hv
  have hlen : ps.length = ((vs.map Value.word).reverse).length := by
    rw [length_fieldTypes hps, List.length_reverse, List.length_map, hfits.length_eq]
  have hvalues := ClassCode.values?_words hps hfits
  have hencodes := ClassCode.encodes_of_fieldType hd
  simp only [Line.effect, Line.invocation, hlen, List.take_left, List.drop_left,
    List.reverse_reverse, hvalues, hencodes.call]
  cases hc : c.dispatch with
  | static => exact absurd hc hdispatch
  | constructor | virtual =>
    simp only [Activation.withStack, Action.ofOption, Action.pure_bind, List.append_nil]

theorem effect_call {c : Call} {o : Operand} (ho : c.receiver = some o) :
    (Instr.call c).effect w env = Action.ofOption (o.read w env) >>= fun object =>
      Action.ofOption (Operand.readAll w env c.args) >>= fun args =>
        w.call c.method (some object) args c.ret >>= fun result =>
          match c.dest with
          | none => pure env
          | some d => Action.ofOption result >>= fun v => pure (env.set (.temp d.id) v) := by
  simp only [Instr.effect, ho, Option.toList_some, Operand.readAll]
  cases o.read w env <;> rfl

theorem Represents.emulates_call (h : f.Represents w env registers) (hf : f.InOrder s V) {c : Call}
    (hc : s.TypedCall f.method.temps c) (hd : ∀ d ∈ c.dest, d ∈ f.method.temps)
    (hls : f.Selects k (.call c) ls) (hat : Located a.lines pc ls) :
    Emulates a w pc ls.length ⟨registers, []⟩ ((Instr.call c).effect w env) (f.Rests w) := by
  obtain ⟨o, ho, hot⟩ := hc.receiver
  rw [effect_call ho]
  cases hls with
  | @call _ _ rs _ hls hu hrs =>
    rw [ho, Option.toList_some, List.singleton_append] at hls
    obtain ⟨l, ms, hl, hms, rfl⟩ := loadAll_cons_eq_ok.1 hls
    refine ((h.emulates_load hf hot hl hat.head []).bind (k := ms.length + (1 + rs.length)) ?_).cast
      (by simp only [List.length_append, List.length_cons]; omega)
    intro object s' hs
    obtain ⟨rfl, hobject⟩ := hs
    obtain ⟨r, rfl⟩ := Ty.fits_reference (t := s.symbols.ownTy) rfl hobject
    refine (h.emulates_loadAll hf hc.args hms hat.tail.left _).bind ?_
    intro vs s' hs
    obtain ⟨rfl, hvs⟩ := hs
    have hcall := hat.tail.right
    refine Emulates.bind (n := 1)
      (R := fun result s' => s' = ⟨registers, result.toList.map Value.word⟩ ∧
        (c.ret.isVoid = true → result = none) ∧
        (c.ret.isVoid = false → ∃ v, result = some v ∧ v.fits c.ret = true))
      (.line hcall.head rfl (effect_invoke hu hc.dispatch hvs) ?_) ?_
    · intro μ result μ' hresult
      exact ⟨rfl, World.of_call hresult⟩
    · intro result s' hs
      obtain ⟨rfl, hvoid, hvalue⟩ := hs
      rcases result_cases hrs with ⟨d, st, hdest, hst, rfl⟩ | ⟨hdest, rfl⟩
      · rw [hdest]
        obtain ⟨hty, hret⟩ := hc.dest d hdest
        obtain ⟨v, rfl, hv⟩ := hvalue hret
        exact h.emulates_storeTemp hf (hd d hdest) hst hcall.tail.head (hty ▸ hv)
      · rw [hdest]
        cases hret : c.ret.isVoid with
        | true =>
          rw [hvoid hret]
          exact .pure ⟨rfl, h⟩
        | false =>
          rw [hret] at hcall
          obtain ⟨v, rfl, _⟩ := hvalue hret
          exact .act hcall.tail.head rfl rfl ⟨rfl, h⟩

/-- The lines of an instruction without control do to registers what it does to the environment. -/
theorem Represents.emulates (h : f.Represents w env registers) (hf : f.InOrder s V) {i : Instr}
    (hi : i ∈ f.method.instrs) (hcontrol : i.isControl = false) (hls : f.Selects k i ls)
    (hat : Located a.lines pc ls) (hlabels : (Line.labels a.lines).Nodup) :
    Emulates a w pc ls.length ⟨registers, []⟩ (i.effect w env) (f.Rests w) := by
  have hdefined := hf.typed.defined i hi
  cases hf.typed.code i hi with
  | assignVar hb hfield hv => exact h.emulates_assignVar hf hb hfield hv hls hat
  | assignElement ho harray hj hv => exact h.emulates_assignElement hf ho harray hj hv hls hat
  | binary hop hl hr hty =>
    exact h.emulates_binary hf hop hl hr hty (hdefined _ rfl) hls hat hlabels
  | unary ho hty => exact h.emulates_unary hf ho hty (hdefined _ rfl) hls hat
  | call hc => exact h.emulates_call hf hc (fun d hd => hdefined d hd) hls hat
  | new hty => exact h.emulates_new hf hty (hdefined _ rfl) hls hat
  | newArray hty helement _ _ _ hsize =>
    exact h.emulates_newArray hf hty helement hsize (hdefined _ rfl) hls hat
  | arrayLoad ho harray hj hty =>
    exact h.emulates_arrayLoad hf ho harray hj hty (hdefined _ rfl) hls hat
  | arrayLength ho harray hty =>
    exact h.emulates_arrayLength hf ho harray hty (hdefined _ rfl) hls hat
  | getField _ hs hty => exact h.emulates_getField hf hs hty (hdefined _ rfl) hls hat
  | putField _ hs hv => exact h.emulates_putField hf hs hv hls hat
  | retNone | retSome | goto | branch | label => simp [Instr.isControl] at hcontrol

end

end Frame

end SingleClass
