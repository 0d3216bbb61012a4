import SingleClass.Proofs.Assembly.Emulation
set_option autoImplicit false

/-!
The depth of the operand stack in assembly. Paths are counted, not run: each line takes and leaves as
many words as its form says, and a jump that may be made is one way to go on. Depths are integers, so
that a path can fall below zero and has to be shown not to (`Balanced`). The machine goes along paths
(`MethodAssembly.flows_of_step`).

Every label has one depth by its kind, and lines that agree with it from one line to the next
(`Fits`) are balanced.
-/

namespace SingleClass

namespace Line

/-- The words that a line takes from the stack. -/
def pops : Line → Nat
  | .push _ | .pushNull | .load _ _ | .new _ | .label _ | .goto _ | .ret none => 0
  | .store _ _ | .negate | .pop | .ifTrue _ | .newIntArray | .newBoolArray | .newObjectArray _
  | .arrayLength | .getField _ _ _ | .ret (some _) => 1
  | .word _ | .jumpIf _ _ | .arrayLoad _ | .putField _ _ _ => 2
  | .arrayStore _ => 3
  | .invoke dispatch _ _ t => (if dispatch = .static then 0 else 1) + t.params.length

def pushes : Line → Nat
  | .store _ _ | .pop | .label _ | .goto _ | .ifTrue _ | .jumpIf _ _ | .arrayStore _
  | .putField _ _ _ | .ret _ => 0
  | .push _ | .pushNull | .load _ _ | .new _ | .word _ | .negate | .newIntArray | .newBoolArray
  | .newObjectArray _ | .arrayLoad _ | .arrayLength | .getField _ _ _ => 1
  | .invoke _ _ _ t => if t.result.ty.isVoid then 0 else 1

def falls : Line → Bool
  | .goto _ | .ret _ => false
  | _ => true

def target? : Line → Option Label
  | .goto l | .ifTrue l | .jumpIf _ l => some l
  | _ => none

end Line

/-- A path goes from one line to another: position and depth before both. -/
inductive Flows (lines : List Line) : Nat × Int → Nat × Int → Prop
  | next {pc : Nat} {d : Int} {l : Line} (hl : lines[pc]? = some l) (hfalls : l.falls = true) :
      Flows lines (pc, d) (pc + 1, d - l.pops + l.pushes)
  | jump {pc position : Nat} {d : Int} {l : Line} {x : Label} (hl : lines[pc]? = some l)
      (htarget : l.target? = some x) (hposition : lines[position]? = some (.label x)) :
      Flows lines (pc, d) (position, d - l.pops + l.pushes)

/-- Some path from the first line comes to the position with so many words on the stack. -/
def DepthAt (lines : List Line) (pc : Nat) (d : Int) : Prop :=
  Relation.ReflTransGen (Flows lines) (0, 0) (pc, d)

/-- Lines, one block for each instruction, whose paths respect the stack. -/
structure Balanced (blocks : List (List Line)) : Prop where
  /-- Paths stay within the lines, and each line finds the words that it takes. -/
  supplied : ∀ pc d, DepthAt blocks.flatten pc d →
    ∃ l, blocks.flatten[pc]? = some l ∧ (l.pops : Int) ≤ d
  /-- A label is reached with one depth. -/
  labels : ∀ x pc pc' d d', blocks.flatten[pc]? = some (.label x) →
    blocks.flatten[pc']? = some (.label x) → DepthAt blocks.flatten pc d →
    DepthAt blocks.flatten pc' d' → d = d'
  /-- An instruction finds nothing on the stack. -/
  starts : ∀ i < blocks.length, ∀ d, DepthAt blocks.flatten (blocks.take i).flatten.length d → d = 0

theorem Line.passes_of_plain {l : Line} (h : l.isControl = false) :
    l.falls = true ∧ l.label? = none ∧ l.target? = none := by
  cases l with
  | label _ | goto _ | ifTrue _ | jumpIf _ _ | ret _ => simp [Line.isControl] at h
  | _ => exact ⟨rfl, rfl, rfl⟩

namespace Flows

variable {lines : List Line} {pc d d' : Nat} {l : Line}

theorem next_of_eq (hl : lines[pc]? = some l) (hfalls : l.falls = true)
    (hd : d' + l.pops = d + l.pushes) : Flows lines (pc, d) (pc + 1, d') := by
  rw [show (d' : Int) = d - l.pops + l.pushes by omega]
  exact .next hl hfalls

theorem jump_of_eq {position : Nat} {x : Label} (hl : lines[pc]? = some l)
    (htarget : l.target? = some x) (hposition : lines[position]? = some (.label x))
    (hd : d' + l.pops = d + l.pushes) : Flows lines (pc, d) (position, d') := by
  rw [show (d' : Int) = d - l.pops + l.pushes by omega]
  exact .jump hl htarget hposition

end Flows

theorem Action.bind_eq_returns_iff {M A B : Type} {x : Action M A} {f : A → Action M B} {m m' : M}
    {b : B} : (x >>= f) m = .returns b m' ↔
      ∃ a m₁, x m = .returns a m₁ ∧ f a m₁ = .returns b m' := by
  rw [Action.bind_apply]
  cases x m <;> simp

theorem Action.pure_eq_returns_iff {M A : Type} {a b : A} {m m' : M} :
    (pure a : Action M A) m = .returns b m' ↔ a = b ∧ m = m' := by
  simp [Action.pure_apply]

namespace Line

theorem length_result {w : World} {m : String} {r : Option Value} {vs : List Value} {t : Ty}
    {μ μ' : Memory} {v : Option Value} (h : w.call m r vs t μ = .returns v μ') :
    v.toList.length = if t.isVoid then 0 else 1 := by
  obtain ⟨x, μ₁, _, h⟩ := Action.bind_eq_returns_iff.1 h
  unfold World.accept at h
  cases hv : t.isVoid with
  | true =>
    rw [hv, if_pos rfl] at h
    cases h
    rfl
  | false =>
    rw [hv, if_neg (by simp)] at h
    cases x with
    | none => cases h
    | some x =>
      dsimp only at h
      split at h
      · cases h
        rfl
      · cases h

theorem values?_length : ∀ {ts : List FieldType} {xs : List Word} {vs : List Value},
    FieldType.values? ts xs = some vs → xs.length = ts.length
  | [], [], _, _ => rfl
  | [], _ :: _, _, h | _ :: _, [], _, h => by simp [FieldType.values?] at h
  | t :: ts, x :: xs, vs, h => by
    simp only [FieldType.values?, Option.bind_eq_bind, Option.bind_eq_some_iff] at h
    obtain ⟨_, _, _, hvs, _⟩ := h
    simp [values?_length hvs]

theorem length_invocation {w : World} {dispatch : Dispatch} {method : String} {t : MethodType}
    {s s' : Activation} {μ μ' : Memory}
    (h : invocation w dispatch method t s μ = .returns s' μ') :
    s'.stack.length + ((if dispatch = .static then 0 else 1) + t.params.length) =
      s.stack.length + if t.result.ty.isVoid then 0 else 1 := by
  simp only [invocation, Action.bind_eq_returns_iff, Action.pure_eq_returns_iff] at h
  obtain ⟨args, _, hargs, ⟨r, rest⟩, _, hr, v, _, hcall, rfl, _⟩ := h
  have hparams : t.params.length ≤ s.stack.length := by
    cases hvs : FieldType.values? t.params (s.stack.take t.params.length).reverse with
    | none =>
      rw [hvs] at hargs
      cases hargs
    | some vs =>
      have hlength := values?_length hvs
      rw [List.length_reverse, List.length_take] at hlength
      omega
  have hbelow : (s.stack.drop t.params.length).length =
      (if dispatch = .static then 0 else 1) + rest.length := by
    split at hr
    · cases hr
      simp
    · next hdispatch hstack =>
      cases hr
      rw [hstack, if_neg hdispatch, List.length_cons, Nat.add_comm]
    · cases hr
  rw [List.length_drop] at hbelow
  have hresult := length_result hcall
  simp only [Activation.withStack, List.length_append, List.length_map, hresult]
  omega

theorem length_of_effect {w : World} {l : Line} (hl : l.isControl = false) {s s' : Activation}
    {μ μ' : Memory} (h : l.effect w s μ = .returns s' μ') :
    s'.stack.length + l.pops = s.stack.length + l.pushes := by
  -- As an equation of actions, so that the cases of the stack can be split.
  generalize hx : l.effect w s = x at h
  cases l with
  | label _ | goto _ | ifTrue _ | jumpIf _ _ | ret _ => simp [Line.isControl] at hl
  | push v | pushNull =>
    cases hx
    cases h
    rfl
  | load c n =>
    simp only [effect] at hx
    split at hx
    · split at hx <;> cases hx <;> cases h
      rfl
    · cases hx
      cases h
  | new className =>
    cases hx
    simp only [effect, Action.bind_eq_returns_iff, Action.pure_eq_returns_iff] at h
    obtain ⟨_, _, _, rfl, _⟩ := h
    rfl
  | store c n =>
    simp only [effect] at hx
    split at hx
    · next hstack =>
      split at hx <;> cases hx <;> cases h
      simp [hstack, pops, pushes, Activation.withStack, Activation.setRegister]
    · cases hx
      cases h
  | pop | negate =>
    simp only [effect] at hx
    split at hx <;> cases hx <;> cases h
    next hstack => simp [hstack, pops, pushes, Activation.withStack]
  | word op | arrayLength | getField _ field t | newIntArray | newBoolArray | newObjectArray _ =>
    simp only [effect, effect.allocate] at hx
    split at hx <;> cases hx
    · next hstack =>
      simp only [Action.bind_eq_returns_iff, Action.pure_eq_returns_iff] at h
      obtain ⟨_, _, _, rfl, _⟩ := h
      simp [hstack, pops, pushes, Activation.withStack]
    · cases h
  | arrayStore c | putField _ field t =>
    simp only [effect] at hx
    split at hx <;> cases hx
    · next hstack =>
      simp only [Action.bind_eq_returns_iff, Action.pure_eq_returns_iff] at h
      obtain ⟨_, _, _, _, _, _, rfl, _⟩ := h
      simp [hstack, pops, pushes, Activation.withStack]
    · cases h
  | arrayLoad c =>
    simp only [effect] at hx
    split at hx <;> cases hx
    · next hstack =>
      obtain ⟨v, _, _, h⟩ := Action.bind_eq_returns_iff.1 h
      by_cases hv : v.cell = c
      · rw [if_pos hv] at h
        cases h
        simp [hstack, pops, pushes, Activation.withStack]
      · rw [if_neg hv] at h
        cases h
    · cases h
  | invoke dispatch owner method t =>
    cases hx
    exact length_invocation h

end Line

namespace MethodAssembly

variable {a : MethodAssembly} {w : World}

theorem flows_of_jump {s s' : MachineState} {l : Line} {x : Label} {stack : List Word}
    (h : a.jump s x stack = some (.running s')) (hl : a.lines[s.pc]? = some l)
    (htarget : l.target? = some x)
    (hstack : stack.length + l.pops = s.activation.stack.length + l.pushes) :
    Flows a.lines (s.pc, s.activation.stack.length) (s'.pc, s'.activation.stack.length) := by
  obtain ⟨position, hposition, h⟩ := Option.map_eq_some_iff.1 h
  cases h
  have hlabel : a.lines[position]? = some (.label x) := by
    obtain ⟨hlt, heq, _⟩ := List.findIdx?_eq_some_iff_getElem.1 hposition
    rw [List.getElem?_eq_getElem hlt, eq_of_beq heq]
  exact Flows.jump_of_eq hl htarget hlabel hstack

theorem flows_of_control {s s' : MachineState} (h : a.step w s = some (.running s')) {l : Line}
    (hl : a.lines[s.pc]? = some l) (hcontrol : l.isControl = true) :
    Flows a.lines (s.pc, s.activation.stack.length) (s'.pc, s'.activation.stack.length) := by
  simp only [step, hl] at h
  cases l with
  | label x =>
    cases h
    exact Flows.next_of_eq hl rfl rfl
  | goto x => exact flows_of_jump h hl rfl rfl
  | ifTrue x =>
    dsimp only at h
    split at h
    · next hstack =>
      split at h
      · exact flows_of_jump h hl rfl (by rw [hstack]; rfl)
      · cases h
        exact Flows.next_of_eq hl rfl (by rw [hstack]; rfl)
    · cases h
  | jumpIf t x =>
    dsimp only at h
    split at h
    · next hstack =>
      split at h
      · exact flows_of_jump h hl rfl (by rw [hstack]; rfl)
      · cases h
        exact Flows.next_of_eq hl rfl (by rw [hstack]; rfl)
      · cases h
    · cases h
  | ret v =>
    cases v with
    | none => cases h
    | some c =>
      dsimp only at h
      split at h
      · split at h <;> cases h
      · cases h
  | _ => cases hcontrol

theorem flows_of_step {s s' : MachineState} (h : a.step w s = some (.running s')) :
    Flows a.lines (s.pc, s.activation.stack.length) (s'.pc, s'.activation.stack.length) := by
  cases hl : a.lines[s.pc]? with
  | none => simp [step, hl] at h
  | some l =>
    cases hcontrol : l.isControl with
    | true => exact flows_of_control h hl hcontrol
    | false =>
      rw [step_plain hl hcontrol] at h
      cases he : l.effect w s.activation s.memory with
      | fails _ | diverges => simp [he] at h
      | returns s₁ μ =>
        simp only [he, Option.some.injEq, MachineProgress.running.injEq] at h
        subst h
        exact Flows.next_of_eq hl (Line.passes_of_plain hcontrol).1
          (Line.length_of_effect hcontrol he)

theorem depthAt_of_reaches {s s' : MachineState} (h : a.Reaches w s s') (hpc : s.pc = 0)
    (hstack : s.activation.stack = []) : DepthAt a.lines s'.pc s'.activation.stack.length := by
  induction h with
  | refl =>
    rw [hpc, hstack]
    exact .refl
  | tail _ hstep ih => exact .tail ih (flows_of_step hstep)

/-- Whatever surrounds a method, the machine is always at a line that finds the words it takes. -/
def WordsSuffice (a : MethodAssembly) : Prop :=
  ∀ (w : World) (s s' : MachineState), s.pc = 0 → s.activation.stack = [] → a.Reaches w s s' →
    ∃ l, a.lines[s'.pc]? = some l ∧ l.pops ≤ s'.activation.stack.length

theorem wordsSuffice_of_balanced (ha : Balanced a.blocks) : a.WordsSuffice := by
  intro w s s' hpc hstack h
  obtain ⟨l, hl, hpops⟩ := ha.supplied _ _ (depthAt_of_reaches h hpc hstack)
  exact ⟨l, hl, Int.ofNat_le.1 hpops⟩

end MethodAssembly

/-- The depth at a label. Where a comparison ends, its result is on the stack. -/
def Label.depth (x : Label) : Nat := if x.kind = "cmp_end" then 1 else 0

/-- The depth behind a line. What stands behind a line that control does not pass is reached by jumps
alone, and with nothing on the stack: no comparison ends there. -/
def Line.depthAfter (d : Nat) (l : Line) : Nat := if l.falls then d - l.pops + l.pushes else 0

def depthBefore (d : Nat) (ls : List Line) (pc : Nat) : Nat := (ls.take pc).foldl Line.depthAfter d

theorem depthBefore_succ {ls : List Line} {pc : Nat} {l : Line} (hl : ls[pc]? = some l) (d : Nat) :
    depthBefore d ls (pc + 1) = l.depthAfter (depthBefore d ls pc) := by
  unfold depthBefore
  rw [List.take_add_one, hl, List.foldl_append]
  rfl

/-- Lines that are entered at one depth and left at another, and agree with their labels. -/
inductive Fits : Nat → List Line → Nat → Prop
  | nil {d : Nat} : Fits d [] d
  | cons {d e : Nat} {l : Line} {ls : List Line} (hpops : l.pops ≤ d)
      (hlabel : ∀ x ∈ l.label?, d = x.depth)
      (htarget : ∀ x ∈ l.target?, d - l.pops + l.pushes = x.depth)
      (rest : Fits (l.depthAfter d) ls e) : Fits d (l :: ls) e

namespace Fits

theorem append {d e g : Nat} {ls ms : List Line} (h : Fits d ls e) (h' : Fits e ms g) :
    Fits d (ls ++ ms) g := by
  induction h with
  | nil => exact h'
  | cons hpops hlabel htarget _ ih => exact .cons hpops hlabel htarget (ih h')

theorem flatten {blocks : List (List Line)} (h : ∀ ls ∈ blocks, Fits 0 ls 0) :
    Fits 0 blocks.flatten 0 := by
  induction blocks with
  | nil => exact .nil
  | cons ls blocks ih =>
    obtain ⟨hls, hblocks⟩ := List.forall_mem_cons.1 h
    exact hls.append (ih hblocks)

theorem foldl_eq {d e : Nat} {ls : List Line} (h : Fits d ls e) :
    ls.foldl Line.depthAfter d = e := by
  induction h with
  | nil => rfl
  | cons _ _ _ _ ih => exact ih

theorem at_line {d e pc : Nat} {ls : List Line} {l : Line} (h : Fits d ls e)
    (hl : ls[pc]? = some l) :
    l.pops ≤ depthBefore d ls pc ∧ (∀ x ∈ l.label?, depthBefore d ls pc = x.depth) ∧
      ∀ x ∈ l.target?, depthBefore d ls pc - l.pops + l.pushes = x.depth := by
  induction h generalizing pc with
  | nil => simp at hl
  | cons hpops hlabel htarget _ ih =>
    cases pc with
    | zero =>
      cases hl
      exact ⟨hpops, hlabel, htarget⟩
    | succ pc => exact ih hl

end Fits

def OnCourse (ls : List Line) (s : Nat × Int) : Prop :=
  s.1 < ls.length ∧ s.2 = depthBefore 0 ls s.1

section

variable {ls : List Line} {e : Nat}

theorem OnCourse.flows (h : Fits 0 ls e) (hlast : ∃ l ∈ ls.getLast?, l.falls = false)
    {s s' : Nat × Int} (hs : OnCourse ls s) (hflow : Flows ls s s') : OnCourse ls s' := by
  obtain ⟨hlt, hdepth⟩ := hs
  cases hflow with
  | @next pc d l hl hfalls =>
    dsimp only at hlt hdepth
    have hpops := (h.at_line hl).1
    constructor
    · -- Control falls through every line but the last.
      obtain ⟨last, hlast, hends⟩ := hlast
      by_contra hge
      have hend : ls.length - 1 = pc := by omega
      rw [Option.mem_def, List.getLast?_eq_getElem?, hend, hl] at hlast
      cases hlast
      rw [hfalls] at hends
      cases hends
    · rw [depthBefore_succ hl, Line.depthAfter, if_pos hfalls]
      omega
  | @jump pc position d l x hl htarget hposition =>
    dsimp only at hlt hdepth
    obtain ⟨hpops, _, hjump⟩ := h.at_line hl
    have hlabel := (h.at_line hposition).2.1 x rfl
    refine ⟨(List.getElem?_eq_some_iff.1 hposition).1, ?_⟩
    have hdepth' := hjump x htarget
    dsimp only
    omega

theorem Fits.onCourse (h : Fits 0 ls e) (hlast : ∃ l ∈ ls.getLast?, l.falls = false)
    {pc : Nat} {d : Int} (hd : DepthAt ls pc d) : pc < ls.length ∧ d = depthBefore 0 ls pc := by
  suffices hcourse : ∀ s, Relation.ReflTransGen (Flows ls) (0, 0) s → OnCourse ls s from
    hcourse _ hd
  intro s hs
  induction hs with
  | refl =>
    refine ⟨List.length_pos_iff.2 ?_, rfl⟩
    rintro rfl
    simp at hlast
  | tail _ hflow ih => exact ih.flows h hlast hflow

end

theorem take_flatten_length {A : Type} (blocks : List (List A)) (i : Nat) :
    blocks.flatten.take (blocks.take i).flatten.length = (blocks.take i).flatten := by
  conv_lhs => rw [← List.take_append_drop i blocks, List.flatten_append]
  simp

theorem balanced_of_fits {blocks : List (List Line)} (h : ∀ ls ∈ blocks, Fits 0 ls 0)
    (hlast : ∃ l ∈ blocks.flatten.getLast?, l.falls = false) : Balanced blocks := by
  have hfits := Fits.flatten h
  refine ⟨?_, ?_, ?_⟩
  · intro pc d hd
    obtain ⟨hlt, rfl⟩ := hfits.onCourse hlast hd
    have hl := List.getElem?_eq_getElem hlt
    exact ⟨_, hl, Int.ofNat_le.2 (hfits.at_line hl).1⟩
  · intro x pc pc' d d' hx hx' hd hd'
    rw [(hfits.onCourse hlast hd).2, (hfits.onCourse hlast hd').2, (hfits.at_line hx).2.1 x rfl,
      (hfits.at_line hx').2.1 x rfl]
  · intro i _ d hd
    have hprefix : Fits 0 (blocks.take i).flatten 0 :=
      Fits.flatten fun ls hls => h ls (List.mem_of_mem_take hls)
    rw [(hfits.onCourse hlast hd).2, depthBefore, take_flatten_length, hprefix.foldl_eq]
    rfl

structure Line.Moves (l : Line) (m n : Nat) : Prop where
  plain : l.isControl = false
  pops : l.pops = m
  pushes : l.pushes = n

theorem Fits.moves {d e m n : Nat} {l : Line} {ls : List Line} (h : l.Moves m n)
    (rest : Fits (d + n) ls e) : Fits (d + m) (l :: ls) e := by
  obtain ⟨hfalls, hlabel, htarget⟩ := Line.passes_of_plain h.plain
  refine .cons (by rw [h.pops]; omega) (by simp [hlabel]) (by simp [htarget]) ?_
  rw [Line.depthAfter, if_pos hfalls, h.pops, h.pushes, Nat.add_sub_cancel]
  exact rest

section

variable {d e : Nat} {x : Label} {ls : List Line}

theorem Fits.label (rest : Fits x.depth ls e) : Fits x.depth (.label x :: ls) e :=
  .cons (Nat.zero_le _) (by simp [Line.label?]) (by simp [Line.target?]) rest

theorem Fits.goto (rest : Fits 0 ls e) : Fits x.depth (.goto x :: ls) e :=
  .cons (Nat.zero_le _) (by simp [Line.label?]) (by simp [Line.target?, Line.pops, Line.pushes]) rest

theorem Fits.ifTrue (rest : Fits x.depth ls e) : Fits (x.depth + 1) (.ifTrue x :: ls) e :=
  .cons (Nat.le_add_left 1 _) (by simp [Line.label?])
    (by simp [Line.target?, Line.pops, Line.pushes]) rest

theorem Fits.jumpIf {t : Test} (rest : Fits x.depth ls e) :
    Fits (x.depth + 2) (.jumpIf t x :: ls) e :=
  .cons (Nat.le_add_left 2 _) (by simp [Line.label?])
    (by simp [Line.target?, Line.pops, Line.pushes]) rest

theorem Fits.ret {c : Option Cell} (h : (Line.ret c).pops ≤ d) : Fits d [.ret c] 0 :=
  .cons h (by simp [Line.label?]) (by simp [Line.target?]) .nil

end

end SingleClass
