import SingleClass.Proofs.Lowering.Renumbering
import SingleClass.Proofs.Lowering.Typing
set_option autoImplicit false

/-!
Temporaries are assigned once over all the code that one supply serves. Lowering, failed or not,
leaves the supply at least as far as it found it (`Symbols.grows_lower`), so units that are lowered one
after the other define ever higher temporaries. Inside a method each temporary is read on the straight
line that its definition stands on (`ReadsSupplied`).
-/

namespace SingleClass

def Dest.operands : Dest → List Operand
  | .element array index => [array, index]
  | .var .. | .temp _ => []

def Instr.operands : Instr → List Operand
  | .assign d v => d.operands ++ [v]
  | .binary _ _ l r => [l, r]
  | .unary _ _ o => [o]
  | .call c => c.receiver.toList ++ c.args
  | .newArray _ _ size => [size]
  | .arrayLoad _ array index => [array, index]
  | .arrayLength _ array => [array]
  | .putField _ _ v => [v]
  | .ret v => v.toList
  | .branch c _ => [c]
  | .new .. | .getField .. | .goto _ | .label _ => []

/-- The code gives the temporary its value and goes straight on from there to its end. -/
def Supplies (code : List Instr) (t : Temp) : Prop :=
  ∃ before i after, code = before ++ i :: after ∧ i.defined? = some t ∧
    ∀ j ∈ after, j.isControl = false

/-- What stands before an instruction supplies the temporaries that the instruction reads. -/
def ReadsSupplied (code : List Instr) : Prop :=
  ∀ before i after, code = before ++ i :: after → ∀ t, .temp t ∈ i.operands → Supplies before t

def Operand.SuppliedBy (code : List Instr) (o : Operand) : Prop :=
  ∀ t, o = .temp t → Supplies code t

namespace Supplies

theorem single {i : Instr} {t : Temp} (h : i.defined? = some t) : Supplies [i] t :=
  ⟨[], i, [], rfl, h, by simp⟩

theorem append {code rest : List Instr} {t : Temp} (h : Supplies code t)
    (hr : ∀ i ∈ rest, i.isControl = false) : Supplies (code ++ rest) t := by
  obtain ⟨before, i, after, rfl, hi, hafter⟩ := h
  exact ⟨before, i, after ++ rest, by simp, hi, List.forall_mem_append.2 ⟨hafter, hr⟩⟩

theorem prepend {code : List Instr} {t : Temp} (h : Supplies code t) (front : List Instr) :
    Supplies (front ++ code) t := by
  obtain ⟨before, i, after, rfl, hi, hafter⟩ := h
  exact ⟨front ++ before, i, after, by simp, hi, hafter⟩

end Supplies

namespace Operand.SuppliedBy

theorem append {code rest : List Instr} {o : Operand} (h : o.SuppliedBy code)
    (hr : ∀ i ∈ rest, i.isControl = false) : o.SuppliedBy (code ++ rest) :=
  fun t ht => (h t ht).append hr

theorem prepend {code : List Instr} {o : Operand} (h : o.SuppliedBy code) (front : List Instr) :
    o.SuppliedBy (front ++ code) :=
  fun t ht => (h t ht).prepend front

theorem of_defined {i : Instr} {t : Temp} (h : i.defined? = some t) (code : List Instr) :
    (Operand.temp t).SuppliedBy (code ++ [i]) := by
  intro t' ht
  cases ht
  exact (Supplies.single h).prepend code

end Operand.SuppliedBy

theorem split_append {code rest before after : List Instr} {i : Instr}
    (h : code ++ rest = before ++ i :: after) :
    (∃ mid, code = before ++ i :: mid) ∨ ∃ mid, before = code ++ mid ∧ rest = mid ++ i :: after := by
  rcases List.append_eq_append_iff.1 h with ⟨mid, rfl, hrest⟩ | ⟨mid, rfl, hafter⟩
  · exact .inr ⟨mid, rfl, hrest⟩
  · cases mid with
    | nil => exact .inr ⟨[], by simp, hafter.symm⟩
    | cons j mid =>
      rw [List.cons_append, List.cons.injEq] at hafter
      exact .inl ⟨mid, by rw [hafter.1]⟩

namespace ReadsSupplied

theorem nil : ReadsSupplied [] := by
  intro before i after h
  simp at h

theorem of_operands {code : List Instr} (h : ∀ i ∈ code, i.operands = []) : ReadsSupplied code := by
  intro before i after heq t ht
  have := h i (by simp [heq])
  simp [this] at ht

theorem append {code rest : List Instr} (h : ReadsSupplied code) (hr : ReadsSupplied rest) :
    ReadsSupplied (code ++ rest) := by
  intro before i after heq t ht
  rcases split_append heq with ⟨mid, hcode⟩ | ⟨mid, rfl, hrest⟩
  · exact h before i mid hcode t ht
  · exact (hr mid i after hrest t ht).prepend code

theorem snoc {code : List Instr} {i : Instr} (h : ReadsSupplied code)
    (hi : ∀ o ∈ i.operands, o.SuppliedBy code) : ReadsSupplied (code ++ [i]) := by
  intro before j after heq t ht
  rcases split_append heq with ⟨mid, hcode⟩ | ⟨mid, rfl, hrest⟩
  · exact h before j mid hcode t ht
  · cases mid with
    | nil =>
      rw [List.nil_append, List.cons.injEq] at hrest
      rw [List.append_nil]
      exact hi _ (hrest.1 ▸ ht) t rfl
    | cons k mid => simp at hrest

end ReadsSupplied

/-- Code in which reads are supplied, and which supplies its operand. -/
structure Fragment.Supplied (f : Fragment) : Prop where
  code : ReadsSupplied f.code
  operand : f.operand.SuppliedBy f.code

theorem Fragment.supplied_snoc {code : List Instr} {i : Instr} {t : Temp} (h : ReadsSupplied code)
    (hi : ∀ o ∈ i.operands, o.SuppliedBy code) (ht : i.defined? = some t) :
    Fragment.Supplied { code := code ++ [i], operand := .temp t } :=
  ⟨h.snoc hi, .of_defined ht code⟩

theorem Fragment.supplied_single {i : Instr} {t : Temp} (hi : ∀ o ∈ i.operands, o.SuppliedBy [])
    (ht : i.defined? = some t) : Fragment.Supplied { code := [i], operand := .temp t } :=
  supplied_snoc .nil hi ht

def SuppliedAll (fs : List Fragment) : Prop :=
  ReadsSupplied (fs.flatMap (·.code)) ∧ ∀ f ∈ fs, f.operand.SuppliedBy (fs.flatMap (·.code))

theorem SuppliedAll.cons {f : Fragment} {fs : List Fragment} {σ σ' : Supply} (hf : f.Supplied)
    (hfs : SuppliedAll fs) (hs : Straight σ σ' (fs.flatMap (·.code))) : SuppliedAll (f :: fs) := by
  refine ⟨hf.code.append hfs.1, ?_⟩
  intro g hg
  rcases List.mem_cons.1 hg with rfl | hg
  · exact hf.operand.append hs.plain
  · exact (hfs.2 g hg).prepend f.code

namespace Scope

mutual

theorem Lowers.supplied {s : Scope} {e : Expr} {want : Expectation} {σ σ' : Supply} {f : Fragment}
    (h : s.Lowers e want σ f σ') : f.Supplied := by
  match h with
  | .literal (v := v) =>
    refine ⟨.nil, ?_⟩
    intro t ht
    cases v <;> cases ht
  | .var _ _ | .this _ => exact ⟨.nil, fun t ht => by cases ht⟩
  | .field _ => exact Fragment.supplied_single (by simp [Instr.operands]) rfl
  | .binary hl hr =>
    have hls := hl.supplied
    have hrs := hr.supplied
    refine Fragment.supplied_snoc (hls.code.append hrs.code) ?_ rfl
    simpa [Instr.operands] using
      ⟨hls.operand.append hr.straight.1.plain, hrs.operand.prepend _⟩
  | .unary he =>
    have hes := he.supplied
    refine Fragment.supplied_snoc hes.code ?_ rfl
    simpa [Instr.operands] using hes.operand
  | .paren he => exact he.supplied
  | .index ha hi =>
    have has := ha.supplied
    have his := hi.supplied
    refine Fragment.supplied_snoc (has.code.append his.code) ?_ rfl
    simpa [Instr.operands] using
      ⟨has.operand.append hi.straight.1.plain, his.operand.prepend _⟩
  | .length ha =>
    have has := ha.supplied
    refine Fragment.supplied_snoc has.code ?_ rfl
    simpa [Instr.operands] using has.operand
  | .call hc =>
    obtain ⟨hcode, hdest⟩ := hc.supplied
    exact ⟨hcode, fun t ht => by cases ht; exact hdest _ rfl⟩
  | .newObject (c := c) =>
    have hnew := Fragment.supplied_single (i := .new ⟨σ.temps, .named c⟩ c)
      (by simp [Instr.operands]) rfl
    refine ⟨hnew.code.snoc ?_, hnew.operand.append ?_⟩
    · simpa [Instr.operands, constructorCall] using hnew.operand
    · simp [Instr.isControl]
  | .newArray he =>
    have hes := he.supplied
    refine Fragment.supplied_snoc hes.code ?_ rfl
    simpa [Instr.operands] using hes.operand
  | .arrayInit hp => exact hp.supplied

theorem LowersCall.supplied {s : Scope} {t : Option Expr} {m : String} {as : List Expr} {p : Span}
    {want : Expectation} {σ σ' : Supply} {code : List Instr} {dest : Option Temp}
    (h : s.LowersCall t m as p want σ code dest σ') :
    ReadsSupplied code ∧ ∀ d ∈ dest, Supplies code d := by
  match h with
  | .mk hsite hargs hbound =>
    obtain ⟨hsc, hso⟩ := hsite.supplied
    obtain ⟨hac, hao⟩ := hargs.supplied
    refine ⟨(hsc.append hac).snoc ?_, ?_⟩
    · intro o ho
      rcases List.mem_append.1 ho with ho | ho
      · exact (hso o (by simpa [CallSite.instr] using ho)).append hargs.straight.1.plain
      · rw [hbound, CallSite.instr, BoundCall.args_of] at ho
        obtain ⟨f, hf, rfl⟩ := List.mem_map.1 ho
        exact (hao f hf).prepend _
    · intro d hd
      refine Supplies.prepend (Supplies.single ?_) _
      exact hd

theorem LowersSite.supplied {s : Scope} {t : Option Expr} {m : String} {σ σ' : Supply}
    {site : CallSite} (h : s.LowersSite t m σ site σ') :
    ReadsSupplied site.code ∧ ∀ o ∈ site.receiver, o.SuppliedBy site.code := by
  match h with
  | .implicit _ => exact ⟨.nil, fun o ho t ht => by cases ho; cases ht⟩
  | .static _ => exact ⟨.nil, by simp⟩
  | .receiver _ _ _ ht =>
    have hts := ht.supplied
    exact ⟨hts.code, fun o ho => by cases ho; exact hts.operand⟩

theorem LowersArgs.supplied {s : Scope} {ps : List Passed} {σ σ' : Supply} {fs : List Fragment}
    (h : s.LowersArgs ps σ fs σ') : SuppliedAll fs := by
  match h with
  | .nil => exact ⟨.nil, by simp⟩
  | .direct he hr => exact .cons he.supplied hr.supplied hr.straight.1
  | .packed hp hr => exact .cons hp.supplied hr.supplied hr.straight.1

theorem Packs.supplied {s : Scope} {element : Ty} {es : List Expr} {σ σ' : Supply} {f : Fragment}
    (h : s.Packs element es σ f σ') : f.Supplied := by
  match h with
  | .mk hlen hst =>
    have halloc := Fragment.supplied_single
      (i := .newArray ⟨σ.temps, element.array⟩ element (.int (.ofNat es.length)))
      (by simp [Instr.operands, Operand.SuppliedBy]) rfl
    exact ⟨hst.supplied halloc.code halloc.operand, halloc.operand.append hst.straight.plain⟩

theorem Stores.supplied {s : Scope} {array : Temp} {element : Ty} {i : Nat} {es : List Expr}
    {σ σ' : Supply} {code : List Instr} (h : s.Stores array element i es σ code σ') :
    ∀ ⦃front : List Instr⦄, ReadsSupplied front → (Operand.temp array).SuppliedBy front →
      ReadsSupplied (front ++ code) := by
  match h with
  | .nil =>
    intro front hf _
    rwa [List.append_nil]
  | .cons (f := f) (i := i) he hr =>
    have hes := he.supplied
    have ih := hr.supplied
    intro front hf ha
    have harray := ha.append he.straight.1.plain
    have hstore : ReadsSupplied (front ++ f.code ++
        [.assign (.element (.temp array) (.int (.ofNat i))) f.operand]) := by
      refine (hf.append hes.code).snoc ?_
      simp only [Instr.operands, Dest.operands, List.cons_append, List.nil_append,
        List.forall_mem_cons]
      refine ⟨harray, ?_, hes.operand.prepend front, by simp⟩
      intro t ht
      cases ht
    have := ih hstore (harray.append (by simp [Instr.isControl]))
    simpa using this

end

theorem LowersEffect.supplied {s : Scope} {e : Expr} {σ σ' : Supply} {code : List Instr}
    (h : s.LowersEffect e σ code σ') : ReadsSupplied code := by
  cases h with
  | call _ hc => exact hc.supplied.1
  | value _ hl => exact hl.supplied.code

theorem LowersAssign.supplied {s : Scope} {target value : Expr} {σ σ' : Supply}
    {code : List Instr} (h : s.LowersAssign target value σ code σ') : ReadsSupplied code := by
  cases h with
  | var _ _ hv | field _ hv =>
    refine hv.supplied.code.snoc ?_
    simpa [Instr.operands, Dest.operands] using hv.supplied.operand
  | element ha hi hv =>
    refine ((ha.supplied.code.append hi.supplied.code).append hv.supplied.code).snoc ?_
    simp only [Instr.operands, Dest.operands, List.cons_append, List.nil_append,
      List.forall_mem_cons]
    have hva := hv.straight.1.plain
    exact ⟨(ha.supplied.operand.append hi.straight.1.plain).append hva,
      (hi.supplied.operand.prepend _).append hva, hv.supplied.operand.prepend _, by simp⟩

theorem supplied_branch {f : Fragment} (h : f.Supplied) (l : Label) :
    ReadsSupplied (f.code ++ [.branch f.operand l]) :=
  h.code.snoc (by simpa [Instr.operands] using h.operand)

theorem supplied_cond {n : Nat} {cf : Fragment} {tc ec : List Instr} (hc : cf.Supplied)
    (ht : ReadsSupplied tc) (he : ReadsSupplied ec) : ReadsSupplied (condCode n cf tc ec) := by
  unfold condCode
  exact ((((supplied_branch hc _).append he).append (.of_operands (by simp [Instr.operands]))).append
    ht).append (.of_operands (by simp [Instr.operands]))

theorem supplied_loop {n : Nat} {cf : Fragment} {bc : List Instr} (hc : cf.Supplied)
    (hb : ReadsSupplied bc) : ReadsSupplied (loopCode n cf bc) := by
  have hentry : ReadsSupplied [.label ⟨"whilecond", n⟩] := .of_operands (by simp [Instr.operands])
  have hskip : ReadsSupplied [.goto ⟨"whileend", n⟩, .label ⟨"whilebody", n⟩] :=
    .of_operands (by simp [Instr.operands])
  have hback : ReadsSupplied [.goto ⟨"whilecond", n⟩, .label ⟨"whileend", n⟩] :=
    .of_operands (by simp [Instr.operands])
  rw [loopCode_eq]
  exact hentry.append ((supplied_branch hc _).append (hskip.append (hb.append hback)))

mutual

theorem LowersStmt.supplied {s : Scope} {t : Stmt} {σ σ' : Supply} {code : List Instr}
    (h : s.LowersStmt t σ code σ') : ReadsSupplied code := by
  match h with
  | .block hb => exact hb.supplied
  | .condThen hc ht => exact supplied_cond hc.supplied ht.supplied .nil
  | .condElse hc he ht => exact supplied_cond hc.supplied ht.supplied he.supplied
  | .loop hc hb => exact supplied_loop hc.supplied hb.supplied
  | .expr he => exact he.supplied
  | .assign ha => exact ha.supplied
  | .retNone => exact .of_operands (by simp [Instr.operands])
  | .retSome hv =>
    refine hv.supplied.code.snoc ?_
    simpa [Instr.operands] using hv.supplied.operand

theorem LowersBody.supplied {s : Scope} {ts : List Stmt} {σ σ' : Supply} {code : List Instr}
    (h : s.LowersBody ts σ code σ') : ReadsSupplied code := by
  match h with
  | .nil => exact .nil
  | .cons ht hr => exact ht.supplied.append hr.supplied

end

theorem supplied_closing (ret : Ty) (code : List Instr) : ReadsSupplied (closing ret code) := by
  have hzero : (Operand.zero ret).SuppliedBy [] := by
    intro t ht
    unfold Operand.zero at ht
    split at ht
    · cases ht
    · split at ht <;> cases ht
  unfold closing
  split <;> split
  · exact .nil
  · exact .of_operands (by simp [Instr.operands])
  · exact .nil
  · exact ReadsSupplied.nil.snoc (by simpa [Instr.operands] using hzero)

end Scope

namespace Lower

variable {A : Type}

def leaves (x : Lower A) (σ : Supply) : Supply :=
  match x σ with
  | .ok _ σ' | .error _ σ' => σ'

def Grows (x : Lower A) : Prop := ∀ σ, σ.temps ≤ (x.leaves σ).temps

theorem Grows.of_replays {x : Lower A} {f : Supply → A → A} (h : ∀ b, Replays b (f b) x x) :
    x.Grows := by
  intro σ
  have hσ := h σ {}
  rw [σ.behind_fresh] at hσ
  unfold leaves
  rw [hσ]
  cases x {} with
  | ok a τ => exact Nat.le_add_left _ _
  | error e τ => exact Nat.le_add_left _ _

end Lower

theorem Symbols.grows_lower (S : Symbols) (p : Program) : (S.lower p).Grows :=
  .of_replays fun _ => S.replays_lower p

def ClassCode.instrs (c : ClassCode) : List Instr := c.methods.flatMap (·.instrs)

/-- What a supply is used for: to lower a program, or to take the notes away. -/
inductive Request where
  | lower (program : Program)
  | takeNotes

/-- The units that requests give on one supply. A failed request gives none, and what it took from
the supply stays taken. -/
def Symbols.serve (S : Symbols) : List Request → Supply → List ClassCode
  | [], _ => []
  | .lower p :: rs, σ =>
    match S.lower p σ with
    | .ok code σ' => code :: S.serve rs σ'
    | .error _ σ' => S.serve rs σ'
  | .takeNotes :: rs, σ => S.serve rs { σ with notes := [] }

namespace Symbols

theorem LowersMethods.defines {S : Symbols} {ds : List (MethodDecl × Signature)} {σ σ' : Supply}
    {ms : List MethodCode} (h : S.LowersMethods ds σ ms σ') :
    Defines σ.temps σ'.temps (ms.flatMap (·.instrs)) := by
  induction h with
  | nil => exact .nil _
  | @cons d sig ds σ σ₁ σ₂ body ms hd hs ih =>
    have hbody := hd.laid.temps
    have hclosing : Defines σ₁.temps σ₁.temps (closing sig.returnTy.asValue body) :=
      ⟨Nat.le_refl _, by simp [Scope.definitions_closing]⟩
    exact (hbody.append hclosing).append ih

theorem LowersMethods.supplied {S : Symbols} {ds : List (MethodDecl × Signature)} {σ σ' : Supply}
    {ms : List MethodCode} (h : S.LowersMethods ds σ ms σ') : ∀ m ∈ ms, ReadsSupplied m.instrs := by
  intro m hm
  obtain ⟨d, sig, σ₁, σ₂, body, _, hb, rfl⟩ := h.of_mem hm
  exact hb.supplied.append (Scope.supplied_closing _ _)

theorem defines_of_lower {S : Symbols} {p : Program} {σ σ' : Supply} {code : ClassCode}
    (h : S.lower p σ = .ok code σ') : Defines σ.temps σ'.temps code.instrs := by
  obtain ⟨ms, hms, rfl⟩ := lower_eq_ok_iff.1 h
  exact hms.defines

theorem supplied_of_lower {S : Symbols} {p : Program} {σ σ' : Supply} {code : ClassCode}
    (h : S.lower p σ = .ok code σ') : ∀ m ∈ code.methods, ReadsSupplied m.instrs := by
  obtain ⟨ms, hms, rfl⟩ := lower_eq_ok_iff.1 h
  exact hms.supplied

theorem increasing_serve (S : Symbols) (rs : List Request) (σ : Supply) :
    (∀ n ∈ (definitions ((S.serve rs σ).flatMap ClassCode.instrs)).map (·.id), σ.temps ≤ n) ∧
      ((definitions ((S.serve rs σ).flatMap ClassCode.instrs)).map (·.id)).Pairwise (· < ·) := by
  induction rs generalizing σ with
  | nil => simp [serve]
  | cons r rs ih =>
    cases r with
    | takeNotes => exact ih { σ with notes := [] }
    | lower p =>
      have hgrows := S.grows_lower p σ
      unfold Lower.leaves at hgrows
      rw [serve]
      cases hl : S.lower p σ with
      | error e σ' =>
        rw [hl] at hgrows
        obtain ⟨hle, hlt⟩ := ih σ'
        exact ⟨fun n hn => Nat.le_trans hgrows (hle n hn), hlt⟩
      | ok code σ' =>
        rw [hl] at hgrows
        obtain ⟨hle, hlt⟩ := ih σ'
        have hids := (defines_of_lower hl).ids
        simp only [List.flatMap_cons, definitions_append, List.map_append, hids]
        refine ⟨?_, List.pairwise_append.2 ⟨List.pairwise_lt_range', hlt, ?_⟩⟩
        · intro n hn
          rcases List.mem_append.1 hn with hn | hn
          · exact (List.mem_range'_1.1 hn).1
          · exact Nat.le_trans hgrows (hle n hn)
        · intro n hn k hk
          have hn := List.mem_range'_1.1 hn
          have hk := hle k hk
          have hgrows : σ.temps ≤ σ'.temps := hgrows
          omega

theorem supplied_serve (S : Symbols) (rs : List Request) (σ : Supply) :
    ∀ c ∈ S.serve rs σ, ∀ m ∈ c.methods, ReadsSupplied m.instrs := by
  induction rs generalizing σ with
  | nil => simp [serve]
  | cons r rs ih =>
    cases r with
    | takeNotes => exact ih { σ with notes := [] }
    | lower p =>
      rw [serve]
      cases hl : S.lower p σ with
      | error e σ' => exact ih σ'
      | ok code σ' => exact List.forall_mem_cons.2 ⟨supplied_of_lower hl, ih σ'⟩

/-- Over all that requests give, each temporary is defined once and in rising order, and read only on
the line that defines it. One program on a fresh supply defines the temporaries from zero on. -/
theorem singleAssignment_serve (S : Symbols) :
    (∀ (rs : List Request) (σ : Supply),
        ((definitions ((S.serve rs σ).flatMap ClassCode.instrs)).map (·.id)).Pairwise (· < ·) ∧
          ∀ c ∈ S.serve rs σ, ∀ m ∈ c.methods, ReadsSupplied m.instrs) ∧
      ∀ (p : Program) (code : ClassCode) (σ' : Supply), S.lower p {} = .ok code σ' →
        (definitions code.instrs).map (·.id) = List.range σ'.temps := by
  refine ⟨fun rs σ => ⟨(S.increasing_serve rs σ).2, S.supplied_serve rs σ⟩, ?_⟩
  intro p code σ' hl
  rw [(defines_of_lower hl).ids]
  exact (List.range_eq_range' ..).symm

end Symbols

/-- `class Sum { int add() { return -1 + lost; } }` -/
def Program.lost : Program where
  classDecl := {
    name := "Sum"
    methods := [{
      name := "add", returns := { name := "int" }
      body := [.ret (some (.binary .add (.unary .neg (.literal (.int 1) {}) {}) (.name "lost" {})
        {})) {}] }] }

/-- A failure between two programs costs a temporary and no unit. -/
theorem Program.singleAssignment_sum :
    let S := Symbols.ofProgram Program.sum
    let units := S.serve [.lower sum, .lower lost, .takeNotes, .lower sum] {}
    units.length = 2 ∧ (definitions (units.flatMap ClassCode.instrs)).length = 26 ∧
      ((definitions (units.flatMap ClassCode.instrs)).map (·.id)).Pairwise (· < ·) ∧
      (∀ c ∈ units, ∀ m ∈ c.methods, ReadsSupplied m.instrs) ∧
      ∃ code σ', S.lower sum {} = .ok code σ' ∧
        (definitions code.instrs).map (·.id) = List.range σ'.temps := by
  have h : (((Symbols.ofProgram Program.sum).lower Program.sum).run' {}).any fun _ => true := by
    decide +kernel
  obtain ⟨code, σ', hl, _⟩ := Lower.exists_of_any h
  obtain ⟨hserve, hfresh⟩ := (Symbols.ofProgram Program.sum).singleAssignment_serve
  obtain ⟨hlt, hreads⟩ := hserve [.lower sum, .lower lost, .takeNotes, .lower sum] {}
  exact ⟨by decide +kernel, by decide +kernel, hlt, hreads, code, σ', hl, hfresh sum code σ' hl⟩

end SingleClass
