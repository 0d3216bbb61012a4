import SingleClass.Narration
import SingleClass.Proofs.Assembly.Stack
import SingleClass.Proofs.Lowering.SingleAssignment
set_option autoImplicit false

/-!
What a method uses of the registers and of the stack that it declares. Registers are within the limit
where no warning is logged. The stack has no such warning: its depth at a line is bounded by what the
lines of one instruction put there, which is little unless the instruction is a call, and a call puts
all its operands there (`MethodAssembly.Usage`).
-/

namespace SingleClass

/-- The line of a call takes all its operands, and where the result is stored there is one. -/
structure Call.Covered (c : Call) : Prop where
  operands : (Instr.call c).operands.length ≤
    (if c.dispatch = .static then 0 else 1) + c.params.length
  dest : c.dest.isSome = true → c.ret.isVoid = false

/-- What every emitted instruction keeps to, also where the arguments of calls were not checked. -/
def Instr.Covered : Instr → Prop
  | .call c => c.Covered
  | .goto l | .branch _ l | .label l => l.kind ∈ structureKinds
  | _ => True

namespace Scope

theorem length_passed_le (s : Scope) (c : Signature) (as : List Expr) :
    (s.passed (some c) as).length ≤ c.params.length := by
  have hparams := congrArg List.length c.params_eq
  simp only [List.length_append, List.length_take] at hparams
  simp only [passed, List.length_append, List.length_map, List.length_take, List.length_zip]
  omega

theorem LowersArgs.length_le {s : Scope} {callee : Option Signature} {as : List Expr}
    {σ σ' : Supply} {fs : List Fragment} (h : s.LowersArgs (s.passed callee as) σ fs σ')
    (want : Expectation) : fs.length ≤ (BoundCall.of callee want fs).params.length := by
  cases callee with
  | none => simp [BoundCall.of]
  | some c =>
    rw [h.length_eq]
    simpa [BoundCall.of, Signature.paramTys] using s.length_passed_le c as

theorem Issues.covered {s : Scope} {code : List Instr} {n : Node} {i : Instr}
    (h : s.Issues code n i) : i.Covered := by
  cases h with
  | call _ hsite _ hargs _ =>
    refine ⟨?_, fun hdest => ?_⟩
    · rw [Instr.operands, List.length_append, CallSite.instr, hsite.receiver_length, List.length_map,
        BoundCall.args_of]
      exact Nat.add_le_add_left (hargs.length_le _) _
    · obtain ⟨d, hd⟩ := Option.isSome_iff_exists.1 hdest
      exact (Expectation.of_mem_dest hd).2.2
  | construct _ => exact ⟨Nat.le_refl 1, by simp [constructorCall]⟩
  | branch _ _ hl | goto hl | label hl => exact hl
  | _ => trivial

end Scope

theorem Program.covered_of_lower {p q : Program} {σ σ' : Supply} {code : ClassCode}
    (h : (Symbols.ofProgram p).lower q σ = .ok code σ') :
    ∀ m ∈ code.methods, ∀ i ∈ m.instrs, i.Covered := by
  intro m hm
  obtain ⟨ms, hms, rfl⟩ := Symbols.lower_eq_ok_iff.1 h
  obtain ⟨d, sig, σ₁, σ₂, body, hmem, hb, rfl⟩ := hms.of_mem hm
  have hs := p.concrete_scope (List.of_mem_zip hmem).2
  refine List.forall_mem_append.2 ⟨fun i hi => ?_, fun i hi => ?_⟩
  · obtain ⟨n, _, hissues⟩ := hb.issued hs (List.Subset.refl _) (N := fun _ => True) (by simp) i hi
    exact hissues.covered
  · unfold closing at hi
    split at hi <;> split at hi <;> simp_all [Instr.Covered]

/-! ### Bounds on depths -/

theorem Line.pushes_le_one (l : Line) : l.pushes ≤ 1 := by
  cases l with
  | invoke _ _ _ t =>
    show (if t.result.ty.isVoid then 0 else 1) ≤ 1
    split <;> omega
  | _ => simp [Line.pushes]

theorem Line.depthAfter_le (l : Line) (d : Nat) : l.depthAfter d ≤ d + 1 := by
  have := l.pushes_le_one
  unfold Line.depthAfter
  split <;> omega

theorem depthBefore_le (ls : List Line) (pc : Nat) : depthBefore 0 ls pc ≤ pc := by
  induction pc with
  | zero => simp [depthBefore]
  | succ pc ih =>
    cases hl : ls[pc]? with
    | some l =>
      rw [depthBefore_succ hl]
      exact (l.depthAfter_le _).trans (Nat.succ_le_succ ih)
    | none =>
      have htake : ls.take (pc + 1) = ls.take pc := by rw [List.take_add_one, hl]; simp
      rw [depthBefore, htake]
      exact Nat.le_succ_of_le ih

/-- Lines whose depths, counted from nothing on the stack, no path can exceed: a jump leaves no more than
its label is counted with. -/
structure Levels (ls : List Line) : Prop where
  labels : ∀ pc l x, ls[pc]? = some l → l.label? = some x → x.depth ≤ depthBefore 0 ls pc
  targets : ∀ pc l x, ls[pc]? = some l → l.target? = some x →
    depthBefore 0 ls pc - l.pops + l.pushes ≤ x.depth
  ends : ls.foldl Line.depthAfter 0 = 0

namespace Levels

theorem nil : Levels [] := ⟨by simp, by simp, rfl⟩

theorem of_fits {ls : List Line} (h : Fits 0 ls 0) : Levels ls :=
  ⟨fun _ _ x hl hx => ((h.at_line hl).2.1 x hx).ge, fun _ _ x hl hx => ((h.at_line hl).2.2 x hx).le,
    h.foldl_eq⟩

theorem of_unlabelled {ls : List Line} (h : ∀ l ∈ ls, l.label? = none ∧ l.target? = none)
    (hends : ls.foldl Line.depthAfter 0 = 0) : Levels ls := by
  refine ⟨?_, ?_, hends⟩
  · intro pc l x hl hx
    rw [(h l (List.mem_of_getElem? hl)).1] at hx
    cases hx
  · intro pc l x hl hx
    rw [(h l (List.mem_of_getElem? hl)).2] at hx
    cases hx

variable {ls ms : List Line}

theorem depthBefore_append (h : Levels ls) (ms : List Line) (pc : Nat) :
    depthBefore 0 (ls ++ ms) (ls.length + pc) = depthBefore 0 ms pc := by
  unfold depthBefore
  rw [List.take_length_add_append, List.foldl_append, h.ends]

theorem depthBefore_append_left (pc : Nat) (hpc : pc ≤ ls.length) :
    depthBefore 0 (ls ++ ms) pc = depthBefore 0 ls pc := by
  unfold depthBefore
  rw [List.take_append_of_le_length hpc]

theorem line_append (h : Levels ls) {pc : Nat} {l : Line} (hl : (ls ++ ms)[pc]? = some l) :
    (ls[pc]? = some l ∧ depthBefore 0 (ls ++ ms) pc = depthBefore 0 ls pc) ∨
      ∃ k, ms[k]? = some l ∧ depthBefore 0 (ls ++ ms) pc = depthBefore 0 ms k := by
  rcases Nat.lt_or_ge pc ls.length with hlt | hge
  · rw [List.getElem?_append_left hlt] at hl
    exact .inl ⟨hl, depthBefore_append_left pc hlt.le⟩
  · rw [List.getElem?_append_right hge] at hl
    refine .inr ⟨_, hl, ?_⟩
    rw [← h.depthBefore_append ms, Nat.add_sub_cancel' hge]

theorem append (h : Levels ls) (h' : Levels ms) : Levels (ls ++ ms) := by
  refine ⟨?_, ?_, by rw [List.foldl_append, h.ends, h'.ends]⟩
  · intro pc l x hl hx
    rcases h.line_append hl with ⟨hl, hd⟩ | ⟨k, hl, hd⟩
    · exact hd ▸ h.labels pc l x hl hx
    · exact hd ▸ h'.labels k l x hl hx
  · intro pc l x hl hx
    rcases h.line_append hl with ⟨hl, hd⟩ | ⟨k, hl, hd⟩
    · exact hd ▸ h.targets pc l x hl hx
    · exact hd ▸ h'.targets k l x hl hx

theorem flatten {blocks : List (List Line)} (h : ∀ ls ∈ blocks, Levels ls) :
    Levels blocks.flatten := by
  induction blocks with
  | nil => exact nil
  | cons ls blocks ih =>
    obtain ⟨hls, hblocks⟩ := List.forall_mem_cons.1 h
    exact hls.append (ih hblocks)

theorem depthAt_le (h : Levels ls) {pc : Nat} {d : Int} (hd : DepthAt ls pc d) :
    d ≤ depthBefore 0 ls pc := by
  suffices hbound : ∀ s, Relation.ReflTransGen (Flows ls) (0, 0) s → s.2 ≤ depthBefore 0 ls s.1 from
    hbound _ hd
  intro s hs
  induction hs with
  | refl => exact Int.natCast_nonneg _
  | tail _ hflow ih =>
    cases hflow with
    | @next pc d l hl hfalls =>
      rw [depthBefore_succ hl, Line.depthAfter, if_pos hfalls]
      dsimp only at ih ⊢
      omega
    | @jump pc position d l x hl htarget hposition =>
      have hleft := h.targets pc l x hl htarget
      have hlabel := h.labels position _ x hposition rfl
      dsimp only at ih ⊢
      omega

end Levels

theorem depthAt_succ_iff {lines : List Line} {pc m n : Nat} {l l' : Line}
    (hl : lines[pc]? = some l) (hmoves : l.Moves m n) (hl' : lines[pc + 1]? = some l')
    (hlabel : l'.label? = none) {d : Int} :
    DepthAt lines (pc + 1) (d - m + n) ↔ DepthAt lines pc d := by
  constructor
  · intro h
    rcases Relation.ReflTransGen.cases_tail h with heq | ⟨s, hs, hflow⟩
    · cases heq
    · generalize htop : d - (m : Int) + n = top at hflow
      cases hflow with
      | @next _ d' k hk _ =>
        rw [hl] at hk
        cases hk
        rw [hmoves.pops, hmoves.pushes] at htop
        obtain rfl : d = d' := by omega
        exact hs
      | jump _ _ hposition =>
        rw [hl'] at hposition
        cases hposition
        cases hlabel
  · intro h
    have hflow := Flows.next (d := d) hl (Line.passes_of_plain hmoves.plain).1
    rw [hmoves.pops, hmoves.pushes] at hflow
    exact h.tail hflow

/-- Loads put one word after the other on the stack, and no path gets among them but through the first. -/
theorem depthAt_add_iff {lines ls : List Line} {k : Nat} {last : Line}
    (hat : Located lines k (ls ++ [last])) (hls : ∀ l ∈ ls, l.Moves 0 1) (hlast : last.label? = none)
    {j : Nat} (hj : j ≤ ls.length) {d : Int} :
    DepthAt lines (k + j) (d + j) ↔ DepthAt lines k d := by
  induction j with
  | zero => simp
  | succ j ih =>
    rw [← ih (by omega), ← Nat.add_assoc, Int.natCast_succ]
    have hline : lines[k + j]? = some ls[j] := by
      rw [hat.getElem?_add (by simp; omega), List.getElem?_append_left hj, List.getElem?_eq_getElem hj]
    have hnext : ∃ l', lines[k + j + 1]? = some l' ∧ l'.label? = none := by
      rw [Nat.add_assoc, hat.getElem?_add (by simp; omega)]
      rcases Nat.lt_or_ge (j + 1) ls.length with hlt | hge
      · rw [List.getElem?_append_left hlt, List.getElem?_eq_getElem hlt]
        exact ⟨_, rfl, (Line.passes_of_plain (hls _ (List.getElem_mem hlt)).plain).2.1⟩
      · rw [List.getElem?_append_right hge, show j + 1 - ls.length = 0 by omega]
        exact ⟨last, rfl, hlast⟩
    obtain ⟨l', hl', hlabel⟩ := hnext
    have hstep := depthAt_succ_iff hline (hls _ (List.getElem_mem hj)) hl' hlabel (d := d + j)
    rwa [show d + (j : Int) - (0 : Nat) + (1 : Nat) = d + (j + 1) by omega] at hstep

namespace Frame

variable {f : Frame} {k : Nat} {i : Instr} {ls : List Line}

structure CallLines (c : Call) (ls : List Line) : Prop where
  shape : ∃ loads line rest, ls = loads ++ line :: rest ∧
    loads.length = (Instr.call c).operands.length ∧ (∀ l ∈ loads, l.Moves 0 1) ∧
    line.isControl = false ∧ loads.length ≤ line.pops ∧ rest.length ≤ 1
  levels : Levels ls

theorem Selects.callLines {c : Call} (h : f.Selects k (.call c) ls) (hc : c.Covered) :
    CallLines c ls := by
  cases h with
  | @call _ loads rest _ hloads ht hrest =>
    obtain ⟨ps, r, hps, hr, rfl⟩ := ClassCode.methodType_eq_ok ht
    obtain ⟨hlength, hmoves⟩ := moves_loadAll hloads
    have hpops : loads.length ≤ (Line.invoke c.dispatch c.owner c.method ⟨ps, r⟩).pops := by
      rw [hlength, Line.pops, length_fieldTypes hps]
      exact hc.operands
    have hfits := fits_result hrest hc.dest
    obtain ⟨hone, hplain⟩ := plain_result hrest
    refine ⟨⟨loads, _, rest, rfl, hlength, hmoves, rfl, hpops, hone⟩, .of_unlabelled ?_ ?_⟩
    · simp only [List.forall_mem_append, List.forall_mem_cons]
      exact ⟨fun l hl => (Line.passes_of_plain (hmoves l hl).plain).2, ⟨rfl, rfl⟩,
        fun l hl => (Line.passes_of_plain (hplain l hl)).2⟩
    · -- all operands are gone when the result is there
      have hfold := (fits_loadAll (d := 0) hloads .nil).foldl_eq
      rw [List.append_nil, Nat.zero_add, ← hlength] at hfold
      have hafter : (Line.invoke c.dispatch c.owner c.method ⟨ps, r⟩).depthAfter loads.length =
          if c.ret.isVoid then 0 else 1 := by
        rw [Line.depthAfter, if_pos (by rfl), Nat.sub_eq_zero_of_le hpops, Nat.zero_add, Line.pushes,
          (ClassCode.encodes_of_fieldType hr).isVoid]
      rw [List.foldl_append, hfold, List.foldl_cons, hafter]
      exact hfits.foldl_eq

theorem levels_ret {v : Option Operand} (h : f.Selects k (.ret v) ls) : Levels ls := by
  cases h with
  | ret hloads hl =>
    obtain ⟨c, rfl⟩ := Line.eq_ret_of_leave hl
    refine .of_unlabelled ?_ (by rw [List.foldl_append]; rfl)
    simp only [List.forall_mem_append, List.forall_mem_singleton]
    exact ⟨fun l hl => (Line.passes_of_plain (plain_loadAll hloads l hl)).2, rfl, rfl⟩

theorem Selects.levels (h : f.Selects k i ls) (hi : i.Covered)
    (harray : f.method.returnTy.isVoid = true → f.method.returnTy.isArray = false) :
    Levels ls := by
  cases i with
  | call c => exact (h.callLines hi).levels
  | ret v => exact levels_ret h
  | goto l | branch o l | label l => exact .of_fits (h.fits hi harray)
  | assign _ _ | binary _ _ _ _ | unary _ _ _ | new _ _ | newArray _ _ _ | arrayLoad _ _ _
  | arrayLength _ _ | getField _ _ _ | putField _ _ _ =>
    exact .of_fits (h.fits trivial harray)

theorem length_operator_le {op : BinaryOp} {l r : Ty} (h : operator k op l r = .ok ls) :
    ls.length ≤ 6 := by
  rcases operator_cases h with ⟨w, _, rfl⟩ | ⟨_, c, t, _, _, rfl⟩
  · simp
  · simp [compareLines]

theorem Selects.length_le (h : f.Selects k i ls) (hi : ∀ c, i ≠ .call c) : ls.length ≤ 9 := by
  cases h with
  | call _ _ _ => exact absurd rfl (hi _)
  | assignElement hls _ | arrayLoad hls _ _ => simp [(moves_loadAll hls).1]
  | binary hls hos _ =>
    have hoperator := length_operator_le hos
    simp only [List.length_append, (moves_loadAll hls).1, List.length_cons, List.length_nil]
    omega
  | @unary _ op _ _ _ _ _ => cases op <;> simp [unaryLines]
  | @ret v _ _ hls _ => cases v <;> simp [(moves_loadAll hls).1]
  | assignVar _ _ | assignTemp _ _ | new _ | newArray _ _ _ | arrayLength _ _ | getField _ _
  | putField _ _ | goto | branch _ | label _ => simp

end Frame

theorem exists_block_of_lt {blocks : List (List Line)} {pc : Nat} (h : pc < blocks.flatten.length) :
    ∃ (i : Nat) (ls : List Line) (j : Nat), blocks[i]? = some ls ∧ j < ls.length ∧
      pc = (blocks.take i).flatten.length + j := by
  induction blocks generalizing pc with
  | nil => simp at h
  | cons ls blocks ih =>
    rw [List.flatten_cons, List.length_append] at h
    rcases Nat.lt_or_ge pc ls.length with hlt | hge
    · exact ⟨0, ls, pc, rfl, hlt, by simp⟩
    · have hrest : pc - ls.length < blocks.flatten.length := by omega
      obtain ⟨i, ms, j, hblock, hj, hpc⟩ := ih hrest
      refine ⟨i + 1, ms, j, hblock, hj, ?_⟩
      rw [List.take_succ_cons, List.flatten_cons, List.length_append]
      omega

theorem depthBefore_block {blocks : List (List Line)} (h : ∀ ls ∈ blocks, Levels ls) {i : Nat}
    {ls : List Line} (hblock : blocks[i]? = some ls) {j : Nat} (hj : j ≤ ls.length) :
    depthBefore 0 blocks.flatten ((blocks.take i).flatten.length + j) = depthBefore 0 ls j := by
  have hfront : Levels (blocks.take i).flatten :=
    Levels.flatten fun ls hls => h ls (List.mem_of_mem_take hls)
  rw [flatten_split hblock, hfront.depthBefore_append, Levels.depthBefore_append_left j hj]

namespace Frame

variable {f : Frame} {a : MethodAssembly}

theorem Assembles.levels (ha : f.Assembles a) (hm : ∀ i ∈ f.method.instrs, i.Covered) :
    ∀ ls ∈ a.blocks, Levels ls := by
  obtain ⟨t, ht⟩ := ha.returnTy
  have harray := (ClassCode.encodes_of_fieldType ht).array
  intro ls hls
  obtain ⟨j, hj⟩ := List.getElem?_of_mem hls
  obtain ⟨n, i, hi, hselect⟩ := exists_instr ha.blocks hj
  exact hselect.levels (hm _ (List.mem_of_getElem? hi)) harray

theorem Assembles.depthAt_start_le (ha : f.Assembles a) (hm : ∀ i ∈ f.method.instrs, i.Covered)
    {i : Nat} {d : Int} (hd : DepthAt a.lines (a.start i) d) : d ≤ 0 := by
  have hlevels := ha.levels hm
  have hle := (Levels.flatten hlevels).depthAt_le hd
  have hfront : Levels (a.blocks.take i).flatten :=
    Levels.flatten fun ls hls => hlevels ls (List.mem_of_mem_take hls)
  rwa [depthBefore, MethodAssembly.start, take_flatten_length, hfront.ends] at hle

theorem Assembles.depthAt_call_iff (ha : f.Assembles a) (hm : ∀ i ∈ f.method.instrs, i.Covered)
    {i : Nat} {c : Call} (hi : f.method.instrs[i]? = some (.call c)) {j : Nat}
    (hj : j ≤ (Instr.call c).operands.length) {d : Int} :
    DepthAt a.lines (a.start i + j) (d + j) ↔ DepthAt a.lines (a.start i) d := by
  obtain ⟨n, ls, hblock, hselect⟩ := exists_selects ha.blocks hi
  obtain ⟨loads, line, rest, rfl, hlength, hmoves, hplain, _⟩ :=
    (hselect.callLines (hm _ (List.mem_of_getElem? hi))).shape
  have hat := (MethodAssembly.located_block hblock).1
  rw [List.append_cons] at hat
  exact depthAt_add_iff hat.left hmoves (Line.passes_of_plain hplain).2.1 (hlength ▸ hj)

theorem CallLines.depthBefore_le_one {c : Call} {ls : List Line} (h : CallLines c ls) {j : Nat}
    (hcall : (Instr.call c).operands.length < j) (hj : j < ls.length) :
    depthBefore 0 ls j ≤ 1 := by
  obtain ⟨loads, line, rest, rfl, hlength, _, hplain, hpops, hrest⟩ := h.shape
  rw [List.length_append, List.length_cons] at hj
  obtain rfl : j = loads.length + 1 := by omega
  have hline : (loads ++ line :: rest)[loads.length]? = some line := by simp
  have hbefore := depthBefore_le (loads ++ line :: rest) loads.length
  have hpushes := line.pushes_le_one
  rw [depthBefore_succ hline, Line.depthAfter, if_pos (Line.passes_of_plain hplain).1]
  omega

/-- The stack is above the limit exactly where a call, begun at some depth, loads too many operands. -/
theorem Assembles.depth_le_iff (ha : f.Assembles a) (hm : ∀ i ∈ f.method.instrs, i.Covered) :
    (∀ pc d, DepthAt a.lines pc d → d ≤ methodLimit) ↔
      ∀ i c, f.method.instrs[i]? = some (.call c) → ∀ d, DepthAt a.lines (a.start i) d →
        d + (Instr.call c).operands.length ≤ methodLimit := by
  have hlevels := ha.levels hm
  constructor
  · intro h i c hi d hd
    exact h _ _ ((ha.depthAt_call_iff hm hi (Nat.le_refl _)).2 hd)
  · intro h pc d hd
    have hle : d ≤ depthBefore 0 a.lines pc := (Levels.flatten hlevels).depthAt_le hd
    have hlimit : methodLimit = 99 := rfl
    rcases Nat.lt_or_ge pc a.lines.length with hlt | hge
    · obtain ⟨i, ls, j, hblock, hj, hpc⟩ := exists_block_of_lt hlt
      obtain rfl : pc = a.start i + j := hpc
      have hbefore : depthBefore 0 a.lines (a.start i + j) = depthBefore 0 ls j :=
        depthBefore_block hlevels hblock hj.le
      obtain ⟨n, instr, hi, hselect⟩ := exists_instr ha.blocks hblock
      by_cases hcall : ∃ c, instr = .call c
      · obtain ⟨c, rfl⟩ := hcall
        rcases Nat.lt_or_ge (Instr.call c).operands.length j with hbehind | hload
        · have hone := (hselect.callLines
            (hm _ (List.mem_of_getElem? hi))).depthBefore_le_one hbehind hj
          omega
        · have hstart := (ha.depthAt_call_iff hm hi hload (d := d - j)).1 (by simpa using hd)
          have hoperands := h i c hi _ hstart
          omega
      · have hlines := hselect.length_le (by simpa using hcall)
        have hcount := depthBefore_le ls j
        omega
    · have hends : a.lines.foldl Line.depthAfter 0 = 0 := (Levels.flatten hlevels).ends
      rw [depthBefore, List.take_of_length_le hge, hends] at hle
      omega

end Frame

/-! ### Registers -/

def Line.register? : Line → Option Nat
  | .load _ n | .store _ n => some n
  | .push _ | .pushNull | .word _ | .negate | .pop | .label _ | .goto _ | .ifTrue _ | .jumpIf _ _
  | .new _ | .newIntArray | .newBoolArray | .newObjectArray _ | .arrayLoad _ | .arrayStore _
  | .arrayLength | .getField _ _ _ | .putField _ _ _ | .invoke _ _ _ _ | .ret _ => none

def Line.Within (limit : Nat) (l : Line) : Prop := ∀ r ∈ l.register?, r < limit

theorem Line.within_of_none {l : Line} (h : l.register? = none) (limit : Nat) : l.Within limit := by
  simp [Line.Within, h]

namespace Frame

theorem register?_allocate {f : Frame} {t : Ty} {l : Line} (h : f.allocate t = .ok l) :
    l.register? = none := by
  rcases allocate_cases h with rfl | rfl | ⟨name, rfl⟩ <;> rfl

theorem register?_operator {k : Nat} {op : BinaryOp} {l r : Ty} {ls : List Line}
    (h : operator k op l r = .ok ls) : ∀ l ∈ ls, l.register? = none := by
  rcases operator_cases h with ⟨w, _, rfl⟩ | ⟨_, c, t, _, _, rfl⟩
  · simp [Line.register?]
  · simp [compareLines, Line.register?]

theorem register?_unaryLines (op : UnaryOp) : ∀ l ∈ unaryLines op, l.register? = none := by
  cases op <;> simp [unaryLines, Line.register?]

section

variable {f : Frame} {limit : Nat} (hpos : 0 < limit)
  (hget : ∀ s n, f.registers.get? s = some n → n < limit)

include hget

theorem within_storeTemp {t : Temp} {l : Line} (h : f.storeTemp t = .ok l) : l.Within limit := by
  obtain ⟨n, c, hn, _, rfl⟩ := storeTemp_eq_ok h
  simpa [Line.Within, Line.register?] using hget _ _ (Registers.temp_eq_ok_iff.1 hn)

theorem within_storeVar {name : String} {t : Ty} {l : Line} (h : f.storeVar name t = .ok l) :
    l.Within limit := by
  obtain ⟨n, c, hn, _, rfl⟩ := storeVar_eq_ok h
  simpa [Line.Within, Line.register?] using hget _ _ (Registers.var_eq_ok_iff.1 hn)

theorem within_result {dest : Option Temp} {ret : Ty} {ls : List Line}
    (h : f.result dest ret = .ok ls) : ∀ l ∈ ls, l.Within limit := by
  rcases result_cases h with ⟨d, s, _, hs, rfl⟩ | ⟨_, rfl⟩
  · exact List.forall_mem_singleton.2 (within_storeTemp hget hs)
  · split
    · simp
    · exact List.forall_mem_singleton.2 (Line.within_of_none rfl _)

include hpos

theorem lt_of_operand {o : Operand} {n : Nat} (h : f.registers.operand o = .ok n) : n < limit := by
  cases o with
  | var name t => exact hget _ _ (Registers.var_eq_ok_iff.1 h)
  | temp d => exact hget _ _ (Registers.temp_eq_ok_iff.1 h)
  | this c =>
    simp only [Registers.operand] at h
    split at h <;> cases h
    exact hpos
  | int _ | bool _ | null _ => cases h

theorem within_load {o : Operand} {l : Line} (h : f.load o = .ok l) : l.Within limit := by
  rcases load_cases h with ⟨v, rfl⟩ | rfl | ⟨n, c, hn, rfl⟩
  · exact Line.within_of_none rfl _
  · exact Line.within_of_none rfl _
  · simpa [Line.Within, Line.register?] using lt_of_operand hpos hget hn

theorem within_loadAll {os : List Operand} {ls : List Line} (h : f.loadAll os = .ok ls) :
    ∀ l ∈ ls, l.Within limit := by
  induction os generalizing ls with
  | nil =>
    cases h
    simp
  | cons o os ih =>
    obtain ⟨l, ls, hl, hls, rfl⟩ := loadAll_cons_eq_ok.1 h
    exact List.forall_mem_cons.2 ⟨within_load hpos hget hl, ih hls⟩

theorem within_selects {k : Nat} {i : Instr} {ls : List Line} (h : f.Selects k i ls) :
    ∀ l ∈ ls, l.Within limit := by
  have hnone : ∀ {l : Line}, l.register? = none → l.Within limit := fun h => Line.within_of_none h _
  have hthis : (Line.load .object 0).Within limit := by simpa [Line.Within, Line.register?] using hpos
  have hload : ∀ {o : Operand} {l : Line}, f.load o = .ok l → l.Within limit := within_load hpos hget
  have hloads : ∀ {os : List Operand} {ls : List Line}, f.loadAll os = .ok ls →
      ∀ l ∈ ls, l.Within limit := within_loadAll hpos hget
  have hstore : ∀ {d : Temp} {l : Line}, f.storeTemp d = .ok l → l.Within limit :=
    within_storeTemp hget
  cases h with
  | assignVar hl hs => simp [hload hl, within_storeVar hget hs]
  | assignTemp hl hs => simp [hload hl, hstore hs]
  | assignElement hls _ =>
    exact List.forall_mem_append.2 ⟨hloads hls, List.forall_mem_singleton.2 (hnone rfl)⟩
  | binary hls hos hs =>
    rw [List.forall_mem_append, List.forall_mem_append, List.forall_mem_singleton]
    exact ⟨hloads hls, fun l hl => hnone (register?_operator hos l hl), hstore hs⟩
  | unary hl hs =>
    rw [List.forall_mem_cons, List.forall_mem_append, List.forall_mem_singleton]
    exact ⟨hload hl, fun l hl => hnone (register?_unaryLines _ l hl), hstore hs⟩
  | call hls _ hrs =>
    rw [List.forall_mem_append, List.forall_mem_cons]
    exact ⟨hloads hls, hnone rfl, within_result hget hrs⟩
  | new hs =>
    rw [List.forall_mem_cons, List.forall_mem_singleton]
    exact ⟨hnone rfl, hstore hs⟩
  | newArray hl ha hs => simp [hload hl, hnone (register?_allocate ha), hstore hs]
  | arrayLoad hls _ hs =>
    rw [List.forall_mem_append, List.forall_mem_cons, List.forall_mem_singleton]
    exact ⟨hloads hls, hnone rfl, hstore hs⟩
  | arrayLength hl hs =>
    rw [List.forall_mem_cons, List.forall_mem_cons, List.forall_mem_singleton]
    exact ⟨hload hl, hnone rfl, hstore hs⟩
  | getField _ hs =>
    rw [List.forall_mem_cons, List.forall_mem_cons, List.forall_mem_singleton]
    exact ⟨hthis, hnone rfl, hstore hs⟩
  | putField hl _ =>
    rw [List.forall_mem_cons, List.forall_mem_cons, List.forall_mem_singleton]
    exact ⟨hthis, hload hl, hnone rfl⟩
  | ret hls hl =>
    obtain ⟨c, rfl⟩ := Line.eq_ret_of_leave hl
    exact List.forall_mem_append.2 ⟨hloads hls, List.forall_mem_singleton.2 (hnone rfl)⟩
  | branch hc =>
    rw [List.forall_mem_cons, List.forall_mem_singleton]
    exact ⟨hload hc, hnone rfl⟩
  | goto | label _ => exact List.forall_mem_singleton.2 (hnone rfl)

end

end Frame

/-- What a method uses of the limits that it declares. -/
structure MethodAssembly.Usage (a : MethodAssembly) (m : MethodCode) : Prop where
  registers : ∀ l ∈ a.lines, ∀ r ∈ l.register?, r < methodLimit
  starts : ∀ i d, DepthAt a.lines (a.start i) d → d ≤ 0
  /-- The stack is within the limit on all paths exactly if no call that is begun loads too much. -/
  stack : (∀ pc d, DepthAt a.lines pc d → d ≤ methodLimit) ↔
    ∀ i c, m.instrs[i]? = some (.call c) → ∀ d, DepthAt a.lines (a.start i) d →
      d + (Instr.call c).operands.length ≤ methodLimit

theorem MethodAssembly.Usage.depth_le {a : MethodAssembly} {m : MethodCode} (h : a.Usage m)
    (hcalls : ∀ i ∈ m.instrs, i.operands.length ≤ methodLimit) :
    ∀ pc d, DepthAt a.lines pc d → d ≤ methodLimit := by
  refine h.stack.2 fun i c hi d hd => ?_
  have hstart := h.starts i d hd
  have hoperands := hcalls _ (List.mem_of_getElem? hi)
  omega

namespace ClassCode

variable {c : ClassCode}

theorem next_le_of_logMethod {m : MethodCode} {a : MethodAssembly} (h : c.assembleMethod m = .ok a)
    (hlog : ∀ e ∈ c.logMethod m, e.level ≠ .warn) {f : Frame} (hf : c.frame m = .ok f) :
    f.registers.next ≤ methodLimit := by
  simp only [assembleMethod, bind_eq_ok_iff] at h
  obtain ⟨_, _, t, ht, _⟩ := h
  by_contra hnext
  simp only [logMethod, hf, ht, if_pos (Nat.lt_of_not_le hnext)] at hlog
  exact hlog _ (List.mem_cons_of_mem _ (List.mem_append_left _ (List.mem_singleton.2 rfl))) rfl

theorem next_le_of_logMethods {ms : List MethodCode} {as : List MethodAssembly}
    (h : c.assembleMethods ms = .ok as) (hlog : ∀ e ∈ c.logMethods ms, e.level ≠ .warn) :
    ∀ m ∈ ms, ∀ f, c.frame m = .ok f → f.registers.next ≤ methodLimit := by
  induction ms generalizing as with
  | nil => simp
  | cons m ms ih =>
    simp only [assembleMethods, bind_eq_ok_iff, pure_eq_ok_iff] at h
    obtain ⟨a, ha, as, has, rfl⟩ := h
    simp only [logMethods, ha, List.forall_mem_append] at hlog
    exact List.forall_mem_cons.2 ⟨fun f => next_le_of_logMethod ha hlog.1, ih has hlog.2⟩

theorem usage_of_assembleMethod {m : MethodCode} {a : MethodAssembly}
    (h : c.assembleMethod m = .ok a) (hm : ∀ i ∈ m.instrs, i.Covered)
    (hnext : ∀ f, c.frame m = .ok f → f.registers.next ≤ methodLimit) : a.Usage m := by
  obtain ⟨f, hf, _⟩ := bind_eq_ok_iff.1 h
  have hlimit := hnext f hf
  obtain ⟨_, hmethod, hregisters⟩ := frame_eq_ok hf
  have hassembles := assembles_of_assembleMethod hf h
  subst hmethod
  refine ⟨?_, fun i d => hassembles.depthAt_start_le hm, hassembles.depth_le_iff hm⟩
  refine hassembles.forall_lines fun _ _ _ _ hselect => ?_
  refine Frame.within_selects (by decide) (fun s n hs => ?_) hselect
  have hbounds := (MethodCode.registers_spec hregisters).1.bounds s n hs
  omega

end ClassCode

namespace Program

theorem usage_of_assemble {p : Program} {o : Options} {code : ClassCode} {σ : Supply}
    {a : ClassAssembly} (hl : p.lowered o = .ok code σ) (ha : code.assemble = .ok a)
    (hlog : ∀ e ∈ p.logEmission o, e.level ≠ .warn) :
    List.Forall₂ (fun m b => b.Usage m) code.methods a.methods := by
  have hcovered := covered_of_lower hl
  have hemission : code.logAssembly ⊆ p.logEmission o := by
    intro e he
    simp only [logEmission, hl, List.mem_append]
    exact .inr he
  simp only [ClassCode.assemble, bind_eq_ok_iff, pure_eq_ok_iff] at ha
  obtain ⟨fields, hfields, methods, hmethods, rfl⟩ := ha
  have hnext := ClassCode.next_le_of_logMethods hmethods fun e he => hlog e (hemission (by
    simp only [ClassCode.logAssembly, hfields, List.mem_append]
    exact .inl he))
  have hboth : ∀ m ∈ code.methods, (∀ i ∈ m.instrs, i.Covered) ∧
      ∀ f, code.frame m = .ok f → f.registers.next ≤ methodLimit :=
    fun m hm => ⟨hcovered m hm, hnext m hm⟩
  refine ((List.forall₂_and_left _ _).2 ⟨hboth, ClassCode.forall₂_assembleMethods hmethods⟩).imp ?_
  intro m b h
  exact ClassCode.usage_of_assembleMethod h.2 h.1.1 h.1.2

/-- Assembly for which nothing is warned of stays within the limits that its methods declare, for the
registers always, and for the stack exactly if no call that is begun loads too many operands. -/
theorem usage_of_compile {p : Program} {o : Options} {c : Compiled} {text : String}
    (hc : p.compile o = .ok c) (ht : c.assembly = some text)
    (hlog : ∀ e ∈ p.logEmission o, e.level ≠ .warn) :
    ∃ code σ a, p.lowered o = .ok code σ ∧ code.assemble = .ok a ∧ a.text = text ∧
      List.Forall₂ (fun m b => b.Usage m) code.methods a.methods := by
  obtain ⟨a, hassembled, htext⟩ := exists_assembly_iff.1 ⟨c, hc, ht⟩
  obtain ⟨code, σ, hl, ha⟩ := assembled_eq_ok_iff.1 hassembled
  exact ⟨code, σ, a, hl, ha, htext, usage_of_assemble hl ha hlog⟩

/-- `import lib.Io; class T { void m() { Io.f(1, ..., 1); } }`, with `n` arguments. -/
def wide (n : Nat) : Program where
  imports := [{ path := "lib.Io" }]
  classDecl := {
    name := "T"
    methods := [{
      name := "m", returns := { name := "void" }
      body := [.expr (.call (some (.name "Io" {})) "f"
        (List.replicate n (.literal (.int 1) {})) {}) {}] }] }

/-- As many arguments as fit. -/
theorem usage_wide :
    ∃ c text, (wide 99).compile { optimize := false } = .ok c ∧ c.isSuccess = true ∧
      c.assembly = some text ∧
      (∀ e ∈ (wide 99).logEmission { optimize := false }, e.level ≠ .warn) ∧
      ∃ code σ a, (wide 99).lowered { optimize := false } = .ok code σ ∧ code.assemble = .ok a ∧
        a.text = text ∧ List.Forall₂ (fun m b => b.Usage m ∧
          ∀ pc d, DepthAt b.lines pc d → d ≤ methodLimit) code.methods a.methods := by
  have hlog : ∀ e ∈ (wide 99).logEmission { optimize := false }, e.level ≠ .warn := by
    decide +kernel
  have hoperands : (((Symbols.ofProgram (wide 99)).lower (wide 99)).run' {}).any fun code =>
      code.methods.all fun m => m.instrs.all fun i => i.operands.length ≤ methodLimit := by
    decide +kernel
  obtain ⟨c, hc, hsuccess⟩ :=
    exists_isSuccess (x := (wide 99).compile { optimize := false }) (by decide +kernel)
  obtain ⟨text, ht⟩ := Option.isSome_iff_exists.1 ((Bool.and_eq_true _ _).mp hsuccess).2
  obtain ⟨code, σ, a, hl, ha, htext, husage⟩ := usage_of_compile hc ht hlog
  obtain ⟨code', σ', hl', hoperands⟩ := Lower.exists_of_any hoperands
  obtain ⟨rfl, rfl⟩ : code' = code ∧ σ' = σ := by simpa using hl'.symm.trans hl
  have hcalls : ∀ m ∈ code'.methods, ∀ i ∈ m.instrs, i.operands.length ≤ methodLimit := by
    simpa using hoperands
  refine ⟨c, text, hc, hsuccess, ht, hlog, code', σ', a, hl, ha, htext, ?_⟩
  refine ((List.forall₂_and_left _ _).2 ⟨hcalls, husage⟩).imp fun m b h => ?_
  exact ⟨h.2, h.2.depth_le h.1⟩

/-- With one argument more the stack is above the limit, and nothing is warned of. -/
theorem limit_lt_depth_wide :
    ∃ c, (wide 100).compile { optimize := false } = .ok c ∧ c.isSuccess = true ∧
      (∀ e ∈ (wide 100).logEmission { optimize := false }, e.level ≠ .warn) ∧
      ∃ code σ a, (wide 100).lowered { optimize := false } = .ok code σ ∧ code.assemble = .ok a ∧
        ∃ b ∈ a.methods, ∃ pc d, DepthAt b.lines pc d ∧ methodLimit < d := by
  have hlog : ∀ e ∈ (wide 100).logEmission { optimize := false }, e.level ≠ .warn := by
    decide +kernel
  have hoperands : (((Symbols.ofProgram (wide 100)).lower (wide 100)).run' {}).any fun code =>
      code.methods.head?.any fun m => m.instrs[0]?.any fun i => i.operands.length = 100 := by
    decide +kernel
  obtain ⟨c, hc, hsuccess⟩ :=
    exists_isSuccess (x := (wide 100).compile { optimize := false }) (by decide +kernel)
  obtain ⟨_, code, σ, hl, _, a, ha⟩ := isSuccess_compile_iff.1 ⟨c, hc, hsuccess⟩
  obtain ⟨code', σ', hl', hoperands⟩ := Lower.exists_of_any hoperands
  obtain ⟨rfl, rfl⟩ : code' = code ∧ σ' = σ := by simpa using hl'.symm.trans hl
  refine ⟨c, hc, hsuccess, hlog, code', σ', a, hl, ha, ?_⟩
  have husage := usage_of_assemble hl ha hlog
  obtain ⟨m, hm, hfirst⟩ := (Option.any_eq_true _ _).1 hoperands
  obtain ⟨i, hi, hlength⟩ := (Option.any_eq_true _ _).1 hfirst
  obtain ⟨ms, hms⟩ := List.head?_eq_some_iff.1 hm
  rw [hms] at husage
  generalize a.methods = as at husage
  cases husage with
  | @cons _ b _ bs hb _ =>
    refine ⟨b, List.mem_cons_self, ?_⟩
    by_contra hnone
    have hdepth : ∀ pc d, DepthAt b.lines pc d → d ≤ methodLimit :=
      fun pc d hd => Int.not_lt.1 fun hlt => hnone ⟨pc, d, hd, hlt⟩
    rw [decide_eq_true_eq] at hlength
    cases i with
    | call k =>
      have hle := hb.stack.1 hdepth 0 k hi 0 .refl
      rw [hlength] at hle
      revert hle
      decide
    | assign d v => cases d <;> simp [Instr.operands, Dest.operands] at hlength
    | ret v => cases v <;> simp [Instr.operands] at hlength
    | binary _ _ _ _ | unary _ _ _ | new _ _ | newArray _ _ _ | arrayLoad _ _ _ | arrayLength _ _
    | getField _ _ _ | putField _ _ _ | goto _ | branch _ _ | label _ =>
      simp [Instr.operands] at hlength

end Program

end SingleClass
