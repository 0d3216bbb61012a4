import SingleClass.Proofs.Behaviour.Code
import SingleClass.Proofs.Lowering.Derivation
set_option autoImplicit false

/-!
What lowering takes from its supply. The code of an expression is a straight line that defines the
temporaries between the two counters, each once and in order (`Lowers.straight`). The code of a
statement does so too, and its label markers are distinct and numbered between the two counters
(`LowersStmt.laid`).
-/

namespace SingleClass

def markers (code : List Instr) : List Label := code.filterMap Instr.label?

def definitions (code : List Instr) : List Temp := code.filterMap Instr.defined?

@[simp] theorem markers_nil : markers [] = [] := rfl
@[simp] theorem definitions_nil : definitions [] = [] := rfl

@[simp] theorem markers_append (c d : List Instr) : markers (c ++ d) = markers c ++ markers d :=
  List.filterMap_append

@[simp] theorem definitions_append (c d : List Instr) :
    definitions (c ++ d) = definitions c ++ definitions d :=
  List.filterMap_append

theorem markers_cons (i : Instr) (c : List Instr) : markers (i :: c) = i.label?.toList ++ markers c := by
  unfold markers
  rw [List.filterMap_cons]
  cases i.label? <;> rfl

theorem definitions_cons (i : Instr) (c : List Instr) :
    definitions (i :: c) = i.defined?.toList ++ definitions c := by
  unfold definitions
  rw [List.filterMap_cons]
  cases i.defined? <;> rfl

def Instr.isControl : Instr → Bool
  | .label _ | .ret _ | .goto _ | .branch _ _ => true
  | _ => false

def Operand.Below (n : Nat) : Operand → Prop
  | .temp t => t.id < n
  | _ => True

theorem Operand.Below.mono {n k : Nat} {o : Operand} (h : o.Below n) (hk : n ≤ k) : o.Below k := by
  cases o with
  | temp t => exact Nat.lt_of_lt_of_le h hk
  | _ => trivial

structure Defines (a b : Nat) (code : List Instr) : Prop where
  le : a ≤ b
  ids : (definitions code).map (·.id) = List.range' a (b - a)

namespace Defines

theorem nil (a : Nat) : Defines a a [] := ⟨Nat.le_refl a, by simp⟩

theorem append {a b c : Nat} {code rest : List Instr} (h : Defines a b code)
    (hr : Defines b c rest) : Defines a c (code ++ rest) := by
  have hab := h.le
  have hbc := hr.le
  refine ⟨by omega, ?_⟩
  rw [definitions_append, List.map_append, h.ids, hr.ids]
  have hb : b = a + (b - a) := by omega
  have hc : c - a = (b - a) + (c - b) := by omega
  rw [hc, ← List.range'_append_1, ← hb]

theorem single {i : Instr} {t : Temp} (h : i.defined? = some t) : Defines t.id (t.id + 1) [i] := by
  refine ⟨by omega, ?_⟩
  simp [definitions, h]

theorem none {i : Instr} (h : i.defined? = none) (a : Nat) : Defines a a [i] := by
  refine ⟨Nat.le_refl a, ?_⟩
  simp [definitions, h]

end Defines

/-- Code without labels, jumps and returns that takes only temporaries from the supply. -/
structure Straight (σ σ' : Supply) (code : List Instr) : Prop where
  temps : Defines σ.temps σ'.temps code
  labels : σ'.labels = σ.labels
  plain : ∀ i ∈ code, i.isControl = false

namespace Straight

theorem nil (σ : Supply) : Straight σ σ [] := ⟨.nil _, rfl, by simp⟩

theorem append {σ σ₁ σ₂ : Supply} {code rest : List Instr} (h : Straight σ σ₁ code)
    (hr : Straight σ₁ σ₂ rest) : Straight σ σ₂ (code ++ rest) := by
  refine ⟨h.temps.append hr.temps, hr.labels.trans h.labels, ?_⟩
  intro i hi
  rcases List.mem_append.1 hi with hi | hi
  · exact h.plain i hi
  · exact hr.plain i hi

theorem snoc {σ σ₁ : Supply} {code : List Instr} {i : Instr} {t : Ty} (h : Straight σ σ₁ code)
    (hi : i.defined? = some ⟨σ₁.temps, t⟩) (hc : i.isControl = false) :
    Straight σ σ₁.takeTemp (code ++ [i]) :=
  h.append ⟨Defines.single hi, rfl, by simpa using hc⟩

theorem effect {i : Instr} (hi : i.defined? = none) (hc : i.isControl = false) (σ : Supply) :
    Straight σ σ [i] :=
  ⟨.none hi _, rfl, by simpa using hc⟩

theorem le {σ σ' : Supply} {code : List Instr} (h : Straight σ σ' code) : σ.temps ≤ σ'.temps :=
  h.temps.le

theorem markers_eq {σ σ' : Supply} {code : List Instr} (h : Straight σ σ' code) :
    markers code = [] := by
  unfold markers
  rw [List.filterMap_eq_nil_iff]
  intro i hi
  have := h.plain i hi
  cases i <;> simp_all [Instr.isControl, Instr.label?]

theorem congr {σ σ' τ : Supply} {code : List Instr} (h : Straight σ σ' code)
    (ht : τ.temps = σ'.temps) (hl : τ.labels = σ'.labels) : Straight σ τ code :=
  ⟨ht ▸ h.temps, hl.trans h.labels, h.plain⟩

end Straight

@[simp] theorem Supply.temps_settle (σ : Supply) (callee : Option Signature) (want : Expectation)
    (m : String) (p : Span) : (σ.settle callee want m p).temps = σ.temps := by
  unfold Supply.settle
  split <;> rfl

@[simp] theorem Supply.labels_settle (σ : Supply) (callee : Option Signature) (want : Expectation)
    (m : String) (p : Span) : (σ.settle callee want m p).labels = σ.labels := by
  unfold Supply.settle
  split <;> rfl

theorem Straight.call {σ σ₁ : Supply} {code : List Instr} {c : Call} {want : Expectation} {ret : Ty}
    (h : Straight σ σ₁ code) (hd : c.dest = want.dest ret σ₁) :
    Straight σ (σ₁.takeDest want ret) (code ++ [.call c]) := by
  unfold Expectation.dest at hd
  unfold Supply.takeDest
  split
  · rename_i hw
    rw [if_pos hw] at hd
    exact h.append (.effect (i := .call c) hd rfl σ₁)
  · rename_i hw
    rw [if_neg hw] at hd
    exact h.snoc (i := .call c) hd rfl

namespace Scope

mutual

theorem Lowers.straight {s : Scope} {e : Expr} {want : Expectation} {σ σ' : Supply} {f : Fragment}
    (h : s.Lowers e want σ f σ') : Straight σ σ' f.code ∧ f.operand.Below σ'.temps := by
  match h with
  | .literal (v := v) =>
    refine ⟨.nil _, ?_⟩
    cases v <;> trivial
  | .var hb hf => exact ⟨.nil _, trivial⟩
  | .field hf => exact ⟨(Straight.nil σ).snoc rfl rfl, Nat.lt_succ_self _⟩
  | .this hs => exact ⟨.nil _, trivial⟩
  | .binary hl hr =>
    obtain ⟨hlc, _⟩ := hl.straight
    obtain ⟨hrc, _⟩ := hr.straight
    exact ⟨(hlc.append hrc).snoc rfl rfl, Nat.lt_succ_self _⟩
  | .unary he => exact ⟨he.straight.1.snoc rfl rfl, Nat.lt_succ_self _⟩
  | .paren he => exact he.straight
  | .index ha hi =>
    exact ⟨(ha.straight.1.append hi.straight.1).snoc rfl rfl, Nat.lt_succ_self _⟩
  | .length ha => exact ⟨ha.straight.1.snoc rfl rfl, Nat.lt_succ_self _⟩
  | .call hc => exact ⟨hc.straight.1, hc.straight.2 _ rfl⟩
  | .newObject =>
    exact ⟨((Straight.nil σ).snoc (t := .named _) rfl rfl).append (.effect rfl rfl _),
      Nat.lt_succ_self _⟩
  | .newArray he => exact ⟨he.straight.1.snoc rfl rfl, Nat.lt_succ_self _⟩
  | .arrayInit h => exact h.straight

theorem LowersCall.straight {s : Scope} {t : Option Expr} {m : String} {as : List Expr} {p : Span}
    {want : Expectation} {σ σ' : Supply} {code : List Instr} {dest : Option Temp}
    (h : s.LowersCall t m as p want σ code dest σ') :
    Straight σ σ' code ∧ ∀ d ∈ dest, d.id < σ'.temps := by
  match h with
  | @LowersCall.mk _ _ _ _ _ _ _ σ₁ σ₂ site fs bound hsite hargs hbound =>
    have hcode := (hsite.straight.1.append hargs.straight.1).congr
      (Supply.temps_settle σ₂ site.callee want m p) (Supply.labels_settle σ₂ site.callee want m p)
    refine ⟨hcode.call rfl, ?_⟩
    intro d hd
    obtain ⟨rfl, hwant, hvoid⟩ := Expectation.of_mem_dest hd
    simp [Supply.takeDest, hwant, hvoid, Supply.takeTemp]

theorem LowersSite.straight {s : Scope} {t : Option Expr} {m : String} {σ σ' : Supply}
    {site : CallSite} (h : s.LowersSite t m σ site σ') :
    Straight σ σ' site.code ∧ ∀ o ∈ site.receiver, o.Below σ'.temps := by
  match h with
  | .implicit hs =>
    refine ⟨.nil _, ?_⟩
    intro o ho
    cases ho
    trivial
  | .static hi => exact ⟨.nil _, by simp⟩
  | .receiver hn hty ho ht =>
    have htarget := ht.straight
    refine ⟨htarget.1, ?_⟩
    intro o ho
    cases ho
    exact htarget.2

theorem LowersArgs.straight {s : Scope} {ps : List Passed} {σ σ' : Supply} {fs : List Fragment}
    (h : s.LowersArgs ps σ fs σ') :
    Straight σ σ' (fs.flatMap (·.code)) ∧ ∀ f ∈ fs, f.operand.Below σ'.temps := by
  match h with
  | .nil => exact ⟨.nil _, by simp⟩
  | .direct he hs =>
    have hfirst := he.straight
    have hrest := hs.straight
    refine ⟨hfirst.1.append hrest.1, ?_⟩
    intro f hf
    rcases List.mem_cons.1 hf with rfl | hf
    · exact hfirst.2.mono hrest.1.le
    · exact hrest.2 f hf
  | .packed hp hs =>
    have hfirst := hp.straight
    have hrest := hs.straight
    refine ⟨hfirst.1.append hrest.1, ?_⟩
    intro f hf
    rcases List.mem_cons.1 hf with rfl | hf
    · exact hfirst.2.mono hrest.1.le
    · exact hrest.2 f hf

theorem Packs.straight {s : Scope} {element : Ty} {es : List Expr} {σ σ' : Supply} {f : Fragment}
    (h : s.Packs element es σ f σ') : Straight σ σ' f.code ∧ f.operand.Below σ'.temps := by
  match h with
  | .mk hlen h =>
    have hs := h.straight
    have halloc : Straight σ σ.takeTemp [.newArray ⟨σ.temps, element.array⟩ element
        (.int (.ofNat es.length))] := (Straight.nil σ).snoc rfl rfl
    exact ⟨halloc.append hs, hs.le⟩

theorem Stores.straight {s : Scope} {array : Temp} {element : Ty} {i : Nat} {es : List Expr}
    {σ σ' : Supply} {code : List Instr} (h : s.Stores array element i es σ code σ') :
    Straight σ σ' code := by
  match h with
  | .nil => exact .nil _
  | .cons (f := f) he hs =>
    have hstore := Straight.effect (i := .assign (.element (.temp array) (.int (.ofNat i))) f.operand)
      rfl rfl
    exact he.straight.1.append ((hstore _).append hs.straight)

end

end Scope

def structureKinds : List String := ["then", "endif", "whilecond", "whilebody", "whileend"]

/-- The markers of the code are distinct and numbered from `a` up to `b`. -/
structure Marks (a b : Nat) (code : List Instr) : Prop where
  le : a ≤ b
  nodup : (markers code).Nodup
  number : ∀ l ∈ markers code, a ≤ l.number ∧ l.number < b
  kind : ∀ l ∈ markers code, l.kind ∈ structureKinds

namespace Marks

theorem none {code : List Instr} (h : markers code = []) (a : Nat) : Marks a a code :=
  ⟨Nat.le_refl a, by simp [h], by simp [h], by simp [h]⟩

theorem append {a b c : Nat} {code rest : List Instr} (h : Marks a b code) (hr : Marks b c rest) :
    Marks a c (code ++ rest) := by
  have hab := h.le
  have hbc := hr.le
  refine ⟨by omega, ?_, ?_, ?_⟩
  · rw [markers_append, List.nodup_append]
    refine ⟨h.nodup, hr.nodup, ?_⟩
    intro l hl k hk hlk
    subst hlk
    have h₁ := h.number l hl
    have h₂ := hr.number l hk
    omega
  · intro l hl
    rw [markers_append] at hl
    rcases List.mem_append.1 hl with hl | hl
    · have := h.number l hl
      omega
    · have := hr.number l hl
      omega
  · intro l hl
    rw [markers_append] at hl
    rcases List.mem_append.1 hl with hl | hl
    · exact h.kind l hl
    · exact hr.kind l hl

theorem wrap {a b : Nat} {code inner : List Instr} (h : Marks (a + 1) b inner) (own : List Label)
    (hm : (markers code).Perm (own ++ markers inner)) (hnodup : own.Nodup)
    (hown : ∀ l ∈ own, l.number = a ∧ l.kind ∈ structureKinds) : Marks a b code := by
  have hle := h.le
  refine ⟨by omega, ?_, ?_, ?_⟩
  · rw [hm.nodup_iff, List.nodup_append]
    refine ⟨hnodup, h.nodup, ?_⟩
    intro l hl k hk hlk
    subst hlk
    have h₁ := (hown l hl).1
    have h₂ := h.number l hk
    omega
  · intro l hl
    rcases List.mem_append.1 (hm.mem_iff.1 hl) with hl | hl
    · have := (hown l hl).1
      omega
    · have := h.number l hl
      omega
  · intro l hl
    rcases List.mem_append.1 (hm.mem_iff.1 hl) with hl | hl
    · exact (hown l hl).2
    · exact h.kind l hl

end Marks

/-- Code that takes temporaries and labels from the supply. -/
structure Laid (σ σ' : Supply) (code : List Instr) : Prop where
  temps : Defines σ.temps σ'.temps code
  labels : Marks σ.labels σ'.labels code

theorem Straight.laid {σ σ' : Supply} {code : List Instr} (h : Straight σ σ' code) :
    Laid σ σ' code := by
  refine ⟨h.temps, ?_⟩
  rw [h.labels]
  exact .none h.markers_eq _

namespace Laid

theorem append {σ σ₁ σ₂ : Supply} {code rest : List Instr} (h : Laid σ σ₁ code)
    (hr : Laid σ₁ σ₂ rest) : Laid σ σ₂ (code ++ rest) :=
  ⟨h.temps.append hr.temps, h.labels.append hr.labels⟩

theorem snoc {σ σ' : Supply} {code : List Instr} {i : Instr} (h : Laid σ σ' code)
    (hi : i.defined? = none) (hl : i.label? = none) : Laid σ σ' (code ++ [i]) :=
  h.append ⟨.none hi _, .none (by simp [markers, hl]) _⟩

theorem cond {σ σ₁ σ₂ : Supply} {cf : Fragment} {tc ec : List Instr}
    (hc : Straight σ.takeLabel σ₁ cf.code) (h : Laid σ₁ σ₂ (ec ++ tc)) :
    Laid σ σ₂ (condCode σ.labels cf tc ec) := by
  have hall := hc.laid.append h
  refine ⟨⟨hall.temps.le, ?_⟩, ?_⟩
  · refine Eq.trans ?_ hall.temps.ids
    simp [condCode, definitions_cons, Instr.defined?]
  · refine hall.labels.wrap [⟨"then", σ.labels⟩, ⟨"endif", σ.labels⟩] ?_ (by simp)
      (by simp [structureKinds])
    have hm : markers (condCode σ.labels cf tc ec) =
        markers ec ++ [⟨"then", σ.labels⟩] ++ markers tc ++ [⟨"endif", σ.labels⟩] := by
      simp [condCode, markers_cons, hc.markers_eq, Instr.label?]
    rw [hm, markers_append, markers_append, hc.markers_eq, List.perm_iff_count]
    intro l
    simp only [List.count_append, List.count_cons, List.count_nil]
    omega

theorem loop {σ σ₁ σ₂ : Supply} {cf : Fragment} {bc : List Instr}
    (hc : Straight σ.takeLabel σ₁ cf.code) (h : Laid σ₁ σ₂ bc) :
    Laid σ σ₂ (loopCode σ.labels cf bc) := by
  have hall := hc.laid.append h
  refine ⟨⟨hall.temps.le, ?_⟩, ?_⟩
  · refine Eq.trans ?_ hall.temps.ids
    simp [loopCode, definitions_cons, Instr.defined?]
  · refine hall.labels.wrap [⟨"whilecond", σ.labels⟩, ⟨"whilebody", σ.labels⟩,
      ⟨"whileend", σ.labels⟩] ?_ (by simp) (by simp [structureKinds])
    have hm : markers (loopCode σ.labels cf bc) =
        [⟨"whilecond", σ.labels⟩] ++ [⟨"whilebody", σ.labels⟩] ++ markers bc ++
          [⟨"whileend", σ.labels⟩] := by
      simp [loopCode, markers_cons, hc.markers_eq, Instr.label?]
    rw [hm, markers_append, hc.markers_eq, List.perm_iff_count]
    intro l
    simp only [List.count_append, List.count_cons, List.count_nil]
    omega

end Laid

namespace Scope

theorem LowersEffect.straight {s : Scope} {e : Expr} {σ σ' : Supply} {code : List Instr}
    (h : s.LowersEffect e σ code σ') : Straight σ σ' code := by
  cases h with
  | call he hc => exact hc.straight.1
  | value he hl => exact hl.straight.1

theorem LowersAssign.straight {s : Scope} {target value : Expr} {σ σ' : Supply}
    {code : List Instr} (h : s.LowersAssign target value σ code σ') : Straight σ σ' code := by
  cases h with
  | var hb hf hv => exact hv.straight.1.append (.effect rfl rfl _)
  | field hf hv => exact hv.straight.1.append (.effect rfl rfl _)
  | element ha hi hv =>
    exact ((ha.straight.1.append hi.straight.1).append hv.straight.1).append (.effect rfl rfl _)

mutual

theorem LowersStmt.laid {s : Scope} {t : Stmt} {σ σ' : Supply} {code : List Instr}
    (h : s.LowersStmt t σ code σ') : Laid σ σ' code :=
  match h with
  | .block h => h.laid
  | .condThen hc ht => .cond hc.straight.1 ht.laid
  | .condElse hc he ht => .cond hc.straight.1 (he.laid.append ht.laid)
  | .loop hc hb => .loop hc.straight.1 hb.laid
  | .expr h => h.straight.laid
  | .assign h => h.straight.laid
  | .retNone => (Straight.nil σ).laid.snoc rfl rfl
  | .retSome h => h.straight.1.laid.snoc rfl rfl

theorem LowersBody.laid {s : Scope} {ts : List Stmt} {σ σ' : Supply} {code : List Instr}
    (h : s.LowersBody ts σ code σ') : Laid σ σ' code :=
  match h with
  | .nil => (Straight.nil σ).laid
  | .cons ht hs => ht.laid.append hs.laid

end

end Scope

theorem LabelTable.ofMarkers_eq {ms : List (Label × Nat)} (h : (ms.map (·.1)).Nodup) :
    LabelTable.ofMarkers ms = ms := by
  have hfold : ∀ (done rest : List (Label × Nat)), ((done ++ rest).map (·.1)).Nodup →
      rest.foldl (fun t m => LabelTable.mark t m.1 m.2) done = done ++ rest := by
    intro done rest
    induction rest generalizing done with
    | nil => simp
    | cons m ms ih =>
      intro hn
      have hm : LabelTable.mark done m.1 m.2 = done ++ [m] := by
        unfold LabelTable.mark
        congr 1
        rw [List.filter_eq_self]
        intro e he
        simp only [List.map_append, List.map_cons, List.nodup_append] at hn
        have := hn.2.2 e.1 (List.mem_map.2 ⟨e, he, rfl⟩) m.1 (by simp)
        simpa using this
      rw [List.foldl_cons, hm, ih (done ++ [m]) (by simpa using hn)]
      simp
  exact hfold [] ms h

theorem LabelTable.position?_of_mem {t : LabelTable} (h : (t.map (·.1)).Nodup) {l : Label} {k : Nat}
    (hm : (l, k) ∈ t) : t.position? l = some k := by
  unfold LabelTable.position?
  induction t with
  | nil => simp at hm
  | cons e t ih =>
    rw [List.map_cons, List.nodup_cons] at h
    rcases List.mem_cons.1 hm with rfl | hm
    · simp
    · have hne : e.1 ≠ l := by
        intro he
        exact h.1 (he ▸ List.mem_map.2 ⟨_, hm, rfl⟩)
      simpa [hne] using ih h.2 hm

theorem map_fst_markers (code : List Instr) (k : Nat) :
    ((code.zipIdx k).filterMap fun (i, position) => i.label?.map (·, position)).map (·.1) =
      markers code := by
  induction code generalizing k with
  | nil => rfl
  | cons i code ih =>
    rw [markers_cons, List.zipIdx_cons, List.filterMap_cons]
    cases hi : i.label? with
    | none => simpa [hi] using ih (k + 1)
    | some l => simpa [hi] using ih (k + 1)

theorem LabelTable.ofInstrs_eq {code : List Instr} (h : (markers code).Nodup) :
    LabelTable.ofInstrs code =
      code.zipIdx.filterMap fun (i, position) => i.label?.map (·, position) := by
  refine LabelTable.ofMarkers_eq ?_
  rwa [map_fst_markers]

theorem LabelTable.position?_ofInstrs {code : List Instr} (h : (markers code).Nodup) {k : Nat}
    {l : Label} (hk : code[k]? = some (.label l)) :
    (LabelTable.ofInstrs code).position? l = some k := by
  rw [LabelTable.ofInstrs_eq h]
  refine LabelTable.position?_of_mem (by rwa [map_fst_markers]) ?_
  refine List.mem_filterMap.2 ⟨(.label l, k), ?_, rfl⟩
  rwa [List.mk_mem_zipIdx_iff_getElem?]

theorem LabelTable.marker_of_position? {code : List Instr} (h : (markers code).Nodup) {k : Nat}
    {l : Label} (hk : (LabelTable.ofInstrs code).position? l = some k) :
    code[k]? = some (.label l) := by
  rw [LabelTable.ofInstrs_eq h] at hk
  obtain ⟨e, he, rfl⟩ := Option.map_eq_some_iff.1 hk
  have hl : e.1 = l := by simpa using List.find?_some he
  obtain ⟨⟨i, position⟩, hmem, hi⟩ := List.mem_filterMap.1 (List.mem_of_find?_eq_some he)
  obtain ⟨l', hl', rfl⟩ := Option.map_eq_some_iff.1 hi
  simp only at hl
  subst hl
  rw [List.mk_mem_zipIdx_iff_getElem?] at hmem
  rw [hmem]
  cases i with
  | label l =>
    cases hl'
    rfl
  | _ => cases hl'

end SingleClass
