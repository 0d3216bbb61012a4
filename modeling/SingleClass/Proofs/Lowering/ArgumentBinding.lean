import SingleClass.Proofs.Lowering.BoundNames
import SingleClass.Proofs.Lowering.Preservation
set_option autoImplicit false

/-!
How the arguments of a call reach the parameters of a method of the class. The analysis goes by the types
that it has checked, and lowering by the types that it infers again. In a program without findings, whose
name is its own, both pass the same arguments in the same way (`Program.argumentsBound_of_lower`).
-/

namespace SingleClass

def Node.isCall : Node → Bool
  | .expr (.call ..) => true
  | _ => false

def storeCode (array : Temp) (i : Nat) (values : List Fragment) : List Instr :=
  (values.zipIdx i).flatMap fun x =>
    x.1.code ++ [.assign (.element (.temp array) (.int (.ofNat x.2))) x.1.operand]

def Fragment.pack (array : Temp) (element : Ty) (values : List Fragment) : Fragment where
  code := .newArray array element (.int (.ofNat values.length)) :: storeCode array 0 values
  operand := .temp array

def Ty.IsArrayOf (element t : Ty) : Prop := t.isArray = true ∧ t.element = element

namespace Scope

variable {s : Scope}

/-- The fragment is what lowering gives for the expression, where such a value is expected. -/
def Computes (s : Scope) (want : Expectation) (e : Expr) (f : Fragment) : Prop :=
  ∃ σ σ', s.lower e want σ = .ok f σ'

theorem Lowers.computes {e : Expr} {want : Expectation} {σ σ' : Supply} {f : Fragment}
    (h : s.Lowers e want σ f σ') : s.Computes want e f :=
  ⟨σ, σ', lower_eq_ok_iff.2 h⟩

theorem Stores.exists_values {array : Temp} {element : Ty} {i : Nat} {es : List Expr}
    {σ σ' : Supply} {code : List Instr} (h : s.Stores array element i es σ code σ') :
    ∃ values, List.Forall₂ (s.Computes (.value element)) es values ∧ code = storeCode array i values := by
  induction es generalizing i σ code with
  | nil =>
    cases h
    exact ⟨[], .nil, rfl⟩
  | cons e es ih =>
    cases h with
    | cons he hs =>
      obtain ⟨values, hvalues, rfl⟩ := ih hs
      exact ⟨_ :: values, .cons he.computes hvalues, by simp [storeCode, List.zipIdx_cons]⟩

theorem Packs.eq_pack {element : Ty} {es : List Expr} {σ σ' : Supply} {f : Fragment}
    (h : s.Packs element es σ f σ') :
    es.length < 2147483648 ∧ ∃ values, List.Forall₂ (s.Computes (.value element)) es values ∧
      f = .pack ⟨σ.temps, element.array⟩ element values := by
  cases h with
  | mk hlen hstores =>
    obtain ⟨values, hvalues, rfl⟩ := hstores.exists_values
    exact ⟨hlen, values, hvalues, by rw [Fragment.pack, hvalues.length_eq]⟩

theorem LowersArgs.computes {es : List (Expr × Expectation)} {σ σ' : Supply} {fs : List Fragment}
    (h : s.LowersArgs (es.map fun e => .direct e.1 e.2) σ fs σ') :
    List.Forall₂ (fun e f => s.Computes e.2 e.1 f) es fs := by
  induction es generalizing σ fs with
  | nil =>
    cases h
    exact .nil
  | cons e es ih =>
    cases h with
    | direct he hs => exact .cons he.computes (ih hs)

theorem typeHint_of_check (hown : s.symbols.isExternal s.symbols.ownTy = false) {e : Expr}
    (h : (s.check e).found = []) : s.typeHint e = (s.check e).value :=
  typeHint_of_typeOf (agrees hown e h)

theorem passedLast_eq (s : Scope) (t : Ty) (es : List Expr) :
    (∃ a, es = [a] ∧ Ty.IsArrayOf t.element (s.typeHint a) ∧
      s.passedLast t es = .direct a (.value t.asValue)) ∨
    (¬∃ a, es = [a] ∧ Ty.IsArrayOf t.element (s.typeHint a)) ∧
      s.passedLast t es = .packed t.element es := by
  unfold passedLast Ty.IsArrayOf
  match es with
  | [] => simp [VarargPassing.of]
  | [a] =>
    by_cases h : (s.typeHint a).isArray = true ∧ (s.typeHint a).element = t.element
    · exact .inl ⟨a, rfl, h, by simp [VarargPassing.of, h]⟩
    · refine .inr ⟨?_, by simp [VarargPassing.of, h]⟩
      rintro ⟨_, ha, hp⟩
      cases ha
      exact h hp
  | a :: b :: rest => simp [VarargPassing.of]

/-- How the fragments `fixed ++ last` pass the arguments `as` to a method: the fixed parameters take one
argument each, and a vararg takes the rest. All is part of the code `whole`. -/
structure Binds (s : Scope) (whole : List Instr) (c : Signature) (as : List Expr)
    (fixed last : List Fragment) : Prop where
  length_fixed : fixed.length = c.fixedArity
  fixed : List.Forall₂ (fun x f => s.Computes (.of x.2.ty.asValue) x.1 f)
    ((as.take c.fixedArity).zip (c.params.take c.fixedArity)) fixed
  exact : c.vararg? = none → as.length = c.fixedArity ∧ last = []
  /-- One argument that is an array already, by the type that was checked, is passed as it is. -/
  array : ∀ v a, c.vararg? = some v → as.drop c.fixedArity = [a] →
    Ty.IsArrayOf v.ty.element (s.check a).value →
      ∃ f, last = [f] ∧ s.Computes (.value v.ty.asValue) a f
  /-- Any others go into an array that nothing else defines. -/
  pack : ∀ v, c.vararg? = some v →
    (∀ a, as.drop c.fixedArity = [a] → ¬Ty.IsArrayOf v.ty.element (s.check a).value) →
      ∃ array values, last = [.pack array v.ty.element values] ∧ array.ty = v.ty.element.array ∧
        values.length < 2147483648 ∧
        List.Forall₂ (s.Computes (.value v.ty.element)) (as.drop c.fixedArity) values ∧
        whole.filter (fun i => i.defined?.any (·.id = array.id)) =
          [.newArray array v.ty.element (.int (.ofNat values.length))]

theorem filter_defined_eq {code : List Instr} (h : ((definitions code).map (·.id)).Nodup) {i : Instr}
    (hi : i ∈ code) {d : Temp} (hd : i.defined? = some d) :
    code.filter (fun j => j.defined?.any (·.id = d.id)) = [i] := by
  induction code with
  | nil => simp at hi
  | cons j code ih =>
    rw [definitions_cons, List.map_append, List.nodup_append] at h
    obtain ⟨_, hnodup, hapart⟩ := h
    rcases List.mem_cons.1 hi with rfl | hi
    · have hnone : ∀ k ∈ code, ¬(k.defined?.any (·.id = d.id)) = true := by
        intro k hk hany
        obtain ⟨e, he, hid⟩ := (Option.any_eq_true _ _).1 hany
        have hmem : e.id ∈ (definitions code).map (·.id) :=
          List.mem_map_of_mem (List.mem_filterMap.2 ⟨k, hk, he⟩)
        exact hapart d.id (by simp [hd]) e.id hmem (of_decide_eq_true hid).symm
      rw [List.filter_cons, List.filter_eq_nil_iff.2 hnone]
      simp [hd]
    · have hmem : d.id ∈ (definitions code).map (·.id) :=
        List.mem_map_of_mem (List.mem_filterMap.2 ⟨i, hi, hd⟩)
      have hj : ¬(j.defined?.any (·.id = d.id)) = true := by
        intro hany
        obtain ⟨e, he, hid⟩ := (Option.any_eq_true _ _).1 hany
        exact hapart e.id (by simp [he]) d.id hmem (of_decide_eq_true hid)
      rw [List.filter_cons, if_neg hj]
      exact ih hnodup hi

theorem LowersArgs.binds (hown : s.symbols.isExternal s.symbols.ownTy = false) {c : Signature}
    {as : List Expr} {σ σ' : Supply} {fs : List Fragment}
    (h : s.LowersArgs (s.passed (some c) as) σ fs σ') (harity : c.arity.admits as.length = true)
    (hfound : ∀ a ∈ as, (s.check a).found = []) {whole : List Instr}
    (hids : ((definitions whole).map (·.id)).Nodup) (hsub : fs.flatMap (·.code) ⊆ whole) :
    ∃ fixed last, fs = fixed ++ last ∧ s.Binds whole c as fixed last := by
  rw [passed, direct_fixedArgs, lowersArgs_append_iff] at h
  obtain ⟨fixed, last, σ₁, hfixed, hlast, rfl⟩ := h
  have hcomputes := hfixed.computes
  have hle := c.fixedArity_le_of_admits harity
  have hparams := c.fixedArity_le
  have hsplit : fixedArgs c as = ((as.take c.fixedArity).zip (c.params.take c.fixedArity)).map
      fun x => (x.1, Expectation.of x.2.ty.asValue) := by
    rw [fixedArgs, List.zip, ← List.take_zipWith, List.map_take]
  have hlength : fixed.length = c.fixedArity := by
    rw [← hcomputes.length_eq, hsplit]
    simp only [List.length_map, List.length_zip, List.length_take]
    omega
  rw [hsplit, List.forall₂_map_left_iff] at hcomputes
  have hhint : ∀ a, as.drop c.fixedArity = [a] → s.typeHint a = (s.check a).value := by
    intro a ha
    have hmem : a ∈ as.drop c.fixedArity := by simp [ha]
    exact typeHint_of_check hown (hfound a (List.mem_of_mem_drop hmem))
  refine ⟨fixed, last, rfl, hlength, hcomputes, ?_, ?_, ?_⟩
  · intro hnone
    simp only [Signature.arity, hnone, Option.isSome_none, Bool.false_eq_true, if_false,
      Arity.admits, decide_eq_true_eq] at harity
    rw [hnone] at hlast
    cases hlast
    exact ⟨harity, rfl⟩
  · intro v a hv ha harray
    rw [← hhint a ha] at harray
    simp only [hv, Option.toList_some, List.map_cons, List.map_nil] at hlast
    rcases s.passedLast_eq v.ty (as.drop c.fixedArity) with ⟨b, hb, _, hp⟩ | ⟨hnot, _⟩
    · rw [hp] at hlast
      cases hlast with
      | direct he hs =>
        cases hs
        rw [ha] at hb
        cases hb
        exact ⟨_, rfl, he.computes⟩
    · exact absurd ⟨a, ha, harray⟩ hnot
  · intro v hv hnot
    simp only [hv, Option.toList_some, List.map_cons, List.map_nil] at hlast
    rcases s.passedLast_eq v.ty (as.drop c.fixedArity) with ⟨b, hb, harray, _⟩ | ⟨_, hp⟩
    · rw [hhint b hb] at harray
      exact absurd harray (hnot b hb)
    · rw [hp] at hlast
      cases hlast with
      | packed hpack hs =>
        cases hs
        obtain ⟨hlen, values, hvalues, rfl⟩ := hpack.eq_pack
        rw [hvalues.length_eq] at hlen
        refine ⟨_, values, rfl, rfl, hlen, hvalues, filter_defined_eq hids (hsub ?_) rfl⟩
        simp [Fragment.pack]

/-- If the node is a call, its code stands in the code in one piece. -/
def Emits (s : Scope) (code : List Instr) (n : Node) : Prop :=
  ∀ t m as p, n = .expr (.call t m as p) →
    ∃ want σ block dest σ', s.LowersCall t m as p want σ block dest σ' ∧ block <:+: code

theorem Emits.mono {code rest : List Instr} {n : Node} (h : s.Emits code n) (hsub : code <:+: rest) :
    s.Emits rest n := by
  intro t m as p hn
  obtain ⟨want, σ, block, dest, σ', hl, hblock⟩ := h t m as p hn
  exact ⟨want, σ, block, dest, σ', hl, hblock.trans hsub⟩

theorem Emits.of_isCall {code : List Instr} {n : Node} (h : n.isCall = false) : s.Emits code n := by
  rintro t m as p rfl
  cases h

theorem emits_of_staticReceiver? {e : Expr} {i : Import} (h : s.staticReceiver? e = some i)
    (code : List Instr) : ∀ n ∈ e.nodes, s.Emits code n := by
  fun_induction staticReceiver? s e with
  | case1 n p hn => exact List.forall_mem_singleton.2 (.of_isCall rfl)
  | case2 => simp at h
  | case3 e ih =>
    rw [Expr.nodes, List.forall_mem_cons]
    exact ⟨.of_isCall rfl, ih h⟩
  | case4 => simp at h

theorem emits_of_stripParens {e : Expr} {code : List Instr}
    (h : ∀ n ∈ e.stripParens.nodes, s.Emits code n) : ∀ n ∈ e.nodes, s.Emits code n := by
  fun_induction Expr.stripParens e with
  | case1 e ih =>
    rw [Expr.nodes, List.forall_mem_cons]
    exact ⟨.of_isCall rfl, ih h⟩
  | case2 e hn => exact h

mutual

/-- The calls of an expression stand in its code: the analysis has counted their arguments, so none of
these is left out. -/
theorem Lowers.emits (hown : s.symbols.isExternal s.symbols.ownTy = false) {e : Expr}
    {want : Expectation} {σ σ' : Supply} {f : Fragment} (h : s.Lowers e want σ f σ')
    (hc : (s.check e).found = []) : ∀ n ∈ e.nodes, s.Emits f.code n := by
  match h with
  | .literal | .this _ | .newObject | .var _ _ | .field _ =>
    exact List.forall_mem_singleton.2 (.of_isCall rfl)
  | .binary hl hr | .index hl hr =>
    simp only [check, Checked.found_bind, List.append_eq_nil_iff] at hc
    simp only [Expr.nodes, List.cons_append, List.forall_mem_cons, List.forall_mem_append]
    refine ⟨.of_isCall rfl, fun n hn => ?_, fun n hn => ?_⟩
    · refine (hl.emits hown (Checked.asValue_eq hc.1).1 n hn).mono ?_
      rw [List.append_assoc]
      exact (List.prefix_append _ _).isInfix
    · exact (hr.emits hown (Checked.asValue_eq hc.2.1).1 n hn).mono (List.infix_append _ _ _)
  | .unary he | .length he | .newArray he =>
    simp only [check, Checked.found_bind, List.append_eq_nil_iff] at hc
    simp only [Expr.nodes, List.forall_mem_cons]
    refine ⟨.of_isCall rfl, fun n hn => ?_⟩
    exact (he.emits hown (Checked.asValue_eq hc.1).1 n hn).mono (List.prefix_append _ _).isInfix
  | .paren he =>
    rw [Expr.nodes, List.forall_mem_cons]
    exact ⟨.of_isCall rfl, he.emits hown hc⟩
  | .call hcall => exact hcall.emits hown hc
  | .arrayInit hp =>
    simp only [check, Checked.found_bind, List.append_eq_nil_iff] at hc
    rw [Expr.nodes, List.forall_mem_cons]
    refine ⟨.of_isCall rfl, fun n hn => ?_⟩
    obtain ⟨e, he, hn⟩ := Expr.mem_nodesOf.1 hn
    exact hp.emits hown (found_of_checkValues hc.1) e he n hn

theorem LowersCall.emits (hown : s.symbols.isExternal s.symbols.ownTy = false) {t : Option Expr}
    {m : String} {as : List Expr} {p : Span} {want : Expectation} {σ σ' : Supply}
    {code : List Instr} {dest : Option Temp} (h : s.LowersCall t m as p want σ code dest σ')
    (hc : (s.check (.call t m as p)).found = []) :
    ∀ n ∈ (Expr.call t m as p).nodes, s.Emits code n := by
  have hself : s.Emits code (.expr (.call t m as p)) := by
    intro t' m' as' p' hn
    cases hn
    exact ⟨want, σ, code, dest, σ', h, List.infix_refl _⟩
  match h with
  | @LowersCall.mk _ _ _ _ _ _ _ _ _ _ fs _ hsite hargs _ =>
    obtain ⟨hft, hfa⟩ := found_of_check_call hc
    have hfound := found_of_checkValues hfa
    have hpassed := hargs.emits hown fun q hq e he => hfound e (exprs_passed_subset hq he)
    have hrest : ∀ n ∈ Expr.nodesOf as, s.Emits (fs.flatMap (·.code)) n := by
      intro n hn
      obtain ⟨a, ha, hn⟩ := Expr.mem_nodesOf.1 hn
      rw [← exprs_passed (s := s) (hsite.admits hown hc)] at ha
      obtain ⟨q, hq, hmem⟩ := List.mem_flatMap.1 ha
      exact hpassed q hq a hmem n hn
    have hreceiver := hsite.emits hown fun e he hnone => (Checked.asValue_eq (hft e he hnone)).1
    cases t with
    | none =>
      rw [Expr.nodes, List.forall_mem_cons]
      exact ⟨hself, fun n hn => (hrest n hn).mono (List.infix_append _ _ _)⟩
    | some t =>
      simp only [Expr.nodes, List.cons_append, List.forall_mem_cons, List.forall_mem_append]
      refine ⟨hself, fun n hn => (hreceiver t rfl n hn).mono ?_, fun n hn =>
        (hrest n hn).mono (List.infix_append _ _ _)⟩
      rw [List.append_assoc]
      exact (List.prefix_append _ _).isInfix

theorem LowersSite.emits (hown : s.symbols.isExternal s.symbols.ownTy = false) {t : Option Expr}
    {m : String} {σ σ' : Supply} {site : CallSite} (h : s.LowersSite t m σ site σ')
    (hc : ∀ e ∈ t, s.staticReceiver? e = none → (s.check e).found = []) :
    ∀ e ∈ t, ∀ n ∈ e.nodes, s.Emits site.code n := by
  match h with
  | .implicit _ => simp
  | .static hi =>
    intro e he
    cases he
    exact emits_of_staticReceiver? hi _
  | .receiver hnone _ _ ht =>
    intro e he
    cases he
    exact ht.emits hown (hc _ rfl hnone)

theorem LowersArgs.emits (hown : s.symbols.isExternal s.symbols.ownTy = false) {ps : List Passed}
    {σ σ' : Supply} {fs : List Fragment} (h : s.LowersArgs ps σ fs σ')
    (hc : ∀ p ∈ ps, ∀ e ∈ p.exprs, (s.check e).found = []) :
    ∀ p ∈ ps, ∀ e ∈ p.exprs, ∀ n ∈ e.nodes, s.Emits (fs.flatMap (·.code)) n := by
  match h with
  | .nil => simp
  | .direct he hs =>
    obtain ⟨hc, hcs⟩ := List.forall_mem_cons.1 hc
    rw [List.flatMap_cons]
    refine List.forall_mem_cons.2 ⟨?_, fun q hq e hmem n hn => ?_⟩
    · refine List.forall_mem_singleton.2 fun n hn => ?_
      exact (he.emits hown (hc _ (List.mem_singleton.2 rfl)) n hn).mono (List.prefix_append _ _).isInfix
    · exact (hs.emits hown hcs q hq e hmem n hn).mono (List.suffix_append _ _).isInfix
  | .packed hp hs =>
    obtain ⟨hc, hcs⟩ := List.forall_mem_cons.1 hc
    rw [List.flatMap_cons]
    refine List.forall_mem_cons.2 ⟨fun e hmem n hn => ?_, fun q hq e hmem n hn => ?_⟩
    · exact (hp.emits hown hc e hmem n hn).mono (List.prefix_append _ _).isInfix
    · exact (hs.emits hown hcs q hq e hmem n hn).mono (List.suffix_append _ _).isInfix

theorem Packs.emits (hown : s.symbols.isExternal s.symbols.ownTy = false) {element : Ty}
    {es : List Expr} {σ σ' : Supply} {f : Fragment} (h : s.Packs element es σ f σ')
    (hc : ∀ e ∈ es, (s.check e).found = []) : ∀ e ∈ es, ∀ n ∈ e.nodes, s.Emits f.code n := by
  match h with
  | .mk _ hs =>
    intro e he n hn
    exact (hs.emits hown hc e he n hn).mono (List.suffix_cons _ _).isInfix

theorem Stores.emits (hown : s.symbols.isExternal s.symbols.ownTy = false) {array : Temp}
    {element : Ty} {i : Nat} {es : List Expr} {σ σ' : Supply} {code : List Instr}
    (h : s.Stores array element i es σ code σ') (hc : ∀ e ∈ es, (s.check e).found = []) :
    ∀ e ∈ es, ∀ n ∈ e.nodes, s.Emits code n := by
  match h with
  | .nil => simp
  | .cons he hs =>
    obtain ⟨hc, hcs⟩ := List.forall_mem_cons.1 hc
    refine List.forall_mem_cons.2 ⟨fun n hn => ?_, fun e hmem n hn => ?_⟩
    · exact (he.emits hown hc n hn).mono (List.prefix_append _ _).isInfix
    · refine (hs.emits hown hcs e hmem n hn).mono ?_
      exact ((List.suffix_cons _ _).trans (List.suffix_append _ _)).isInfix

end

theorem LowersEffect.emits (hown : s.symbols.isExternal s.symbols.ownTy = false) {e : Expr}
    {σ σ' : Supply} {code : List Instr} (h : s.LowersEffect e σ code σ')
    (hc : (s.check e).found = []) : ∀ n ∈ e.nodes, s.Emits code n := by
  rw [← check_stripParens] at hc
  refine emits_of_stripParens ?_
  cases h with
  | call he hcall =>
    rw [he] at hc ⊢
    exact hcall.emits hown hc
  | value _ hl => exact hl.emits hown hc

theorem LowersAssign.emits (hown : s.symbols.isExternal s.symbols.ownTy = false)
    {target value : Expr} {σ σ' : Supply} {code : List Instr}
    (h : s.LowersAssign target value σ code σ') (ht : (s.checkTarget target).found = [])
    (hv : (s.checkValue value).found = []) :
    (∀ n ∈ target.nodes, s.Emits code n) ∧ ∀ n ∈ value.nodes, s.Emits code n := by
  have hvalue := (Checked.asValue_eq hv).1
  cases h with
  | var _ _ hl | field _ hl =>
    refine ⟨List.forall_mem_singleton.2 (.of_isCall rfl), fun n hn => ?_⟩
    exact (hl.emits hown hvalue n hn).mono (List.prefix_append _ _).isInfix
  | element ha hi hl =>
    have hplace := (Checked.asValue_eq ht).1
    simp only [check, Checked.found_bind, List.append_eq_nil_iff] at hplace
    simp only [Expr.nodes, List.cons_append, List.forall_mem_cons, List.forall_mem_append]
    refine ⟨⟨.of_isCall rfl, fun n hn => ?_, fun n hn => ?_⟩, fun n hn => ?_⟩
    · refine (ha.emits hown (Checked.asValue_eq hplace.1).1 n hn).mono ?_
      simp only [List.append_assoc]
      exact (List.prefix_append _ _).isInfix
    · refine (hi.emits hown (Checked.asValue_eq hplace.2.1).1 n hn).mono ?_
      rw [List.append_assoc]
      exact List.infix_append _ _ _
    · exact (hl.emits hown hvalue n hn).mono (List.infix_append _ _ _)

theorem infix_condCode (n : Nat) (cf : Fragment) (tc ec : List Instr) :
    cf.code <:+: condCode n cf tc ec ∧ tc <:+: condCode n cf tc ec ∧ ec <:+: condCode n cf tc ec := by
  unfold condCode
  refine ⟨?_, List.infix_append _ _ _, ?_⟩
  · simp only [List.append_assoc]
    exact (List.prefix_append _ _).isInfix
  · rw [List.append_assoc, List.append_assoc]
    exact List.infix_append _ _ _

theorem infix_loopCode (n : Nat) (cf : Fragment) (bc : List Instr) :
    cf.code <:+: loopCode n cf bc ∧ bc <:+: loopCode n cf bc := by
  unfold loopCode
  refine ⟨?_, List.infix_append _ _ _⟩
  rw [List.append_assoc, List.append_assoc]
  exact List.infix_append _ _ _

mutual

theorem LowersStmt.emits (hown : s.symbols.isExternal s.symbols.ownTy = false) {t : Stmt}
    {σ σ' : Supply} {code : List Instr} (h : s.LowersStmt t σ code σ')
    (hc : (s.checkStmt t).found = []) : ∀ n ∈ t.nodes, s.Emits code n := by
  match h with
  | .block hb =>
    rw [Stmt.nodes, List.forall_mem_cons]
    exact ⟨.of_isCall rfl, hb.emits hown hc⟩
  | .condThen hcond ht =>
    simp only [checkStmt, checkCondition, Checked.found_bind, List.append_eq_nil_iff] at hc
    simp only [Stmt.nodes, List.cons_append, List.forall_mem_cons, List.forall_mem_append]
    obtain ⟨hinc, hint, _⟩ := infix_condCode σ.labels _ _ []
    exact ⟨.of_isCall rfl, fun n hn => (hcond.emits hown (Checked.asValue_eq hc.1.1).1 n hn).mono hinc,
      fun n hn => (ht.emits hown hc.2 n hn).mono hint⟩
  | .condElse hcond he ht =>
    simp only [checkStmt, checkCondition, Checked.found_bind, List.append_eq_nil_iff] at hc
    simp only [Stmt.nodes, List.cons_append, List.forall_mem_cons, List.forall_mem_append]
    obtain ⟨hinc, hint, hine⟩ := infix_condCode σ.labels _ _ _
    exact ⟨.of_isCall rfl, ⟨fun n hn =>
        (hcond.emits hown (Checked.asValue_eq hc.1.1).1 n hn).mono hinc,
      fun n hn => (ht.emits hown hc.2.1 n hn).mono hint⟩,
      fun n hn => (he.emits hown hc.2.2 n hn).mono hine⟩
  | .loop hcond hb =>
    simp only [checkStmt, checkCondition, Checked.found_bind, List.append_eq_nil_iff] at hc
    simp only [Stmt.nodes, List.cons_append, List.forall_mem_cons, List.forall_mem_append]
    obtain ⟨hinc, hinb⟩ := infix_loopCode σ.labels _ _
    exact ⟨.of_isCall rfl, fun n hn => (hcond.emits hown (Checked.asValue_eq hc.1.1).1 n hn).mono hinc,
      fun n hn => (hb.emits hown hc.2 n hn).mono hinb⟩
  | .expr he =>
    simp only [checkStmt, Checked.found_bind, Checked.found_pure, List.append_nil] at hc
    rw [Stmt.nodes, List.forall_mem_cons]
    exact ⟨.of_isCall rfl, he.emits hown hc⟩
  | .assign ha =>
    simp only [checkStmt, Checked.found_bind, List.append_eq_nil_iff] at hc
    simp only [Stmt.nodes, List.cons_append, List.forall_mem_cons, List.forall_mem_append]
    exact ⟨.of_isCall rfl, ha.emits hown hc.1 hc.2.1⟩
  | .retNone => exact List.forall_mem_singleton.2 (.of_isCall rfl)
  | .retSome he =>
    simp only [checkStmt, checkReturn] at hc
    split at hc
    · simp [Checked.report] at hc
    · simp only [Checked.found_bind, List.append_eq_nil_iff] at hc
      rw [Stmt.nodes, List.forall_mem_cons]
      refine ⟨.of_isCall rfl, fun n hn => ?_⟩
      exact (he.emits hown (Checked.asValue_eq hc.1).1 n hn).mono (List.prefix_append _ _).isInfix

theorem LowersBody.emits (hown : s.symbols.isExternal s.symbols.ownTy = false) {ts : List Stmt}
    {σ σ' : Supply} {code : List Instr} (h : s.LowersBody ts σ code σ')
    (hc : (s.checkBody ts).found = []) : ∀ n ∈ Stmt.nodesOf ts, s.Emits code n := by
  match h with
  | .nil => simp [Stmt.nodesOf]
  | .cons ht hs =>
    simp only [checkBody, Checked.found_bind, List.append_eq_nil_iff] at hc
    simp only [Stmt.nodesOf, List.forall_mem_append]
    exact ⟨fun n hn => (ht.emits hown hc.1 n hn).mono (List.prefix_append _ _).isInfix,
      fun n hn => (hs.emits hown hc.2 n hn).mono (List.suffix_append _ _).isInfix⟩

end

/-- The method of the class that the call means, by the types that were checked. -/
def checkedCallee? (s : Scope) (t : Option Expr) (m : String) : Option Signature :=
  s.symbols.callee? m (t.map fun e => (s.check e).value)

theorem LowersSite.callee_checked (hown : s.symbols.isExternal s.symbols.ownTy = false)
    {t : Option Expr} {m : String} {as : List Expr} {p : Span} {σ σ' : Supply} {site : CallSite}
    (h : s.LowersSite t m σ site σ') (hc : (s.check (.call t m as p)).found = []) :
    site.callee = s.checkedCallee? t m := by
  rw [h.callee_hint, checkedCallee?]
  cases t with
  | none => rfl
  | some e =>
    have hfound : (s.check e).found = [] := by
      cases hi : s.staticReceiver? e with
      | some i => exact unreported_of_staticReceiver? hi _ (Expr.mem_nodes_self e)
      | none => exact (Checked.asValue_eq ((found_of_check_call hc).1 e rfl hi)).1
    rw [Option.map_some, Option.map_some, typeHint_of_check hown hfound]

/-- The block of a call: the code of the receiver, that of the arguments, and the call itself. -/
structure BindsCall (s : Scope) (whole : List Instr) (c : Signature) (m : String) (as : List Expr)
    (block : List Instr) (call : Call) : Prop where
  args : ∃ front fixed last, block = front ++ (fixed ++ last).flatMap (·.code) ++ [.call call] ∧
    call.args = (fixed ++ last).map (·.operand) ∧ s.Binds whole c as fixed last
  length_args : call.args.length = c.params.length
  method : call.method = m
  params : call.params = c.paramTys
  ret : call.ret = c.returnTy

theorem LowersCall.bindsCall (hown : s.symbols.isExternal s.symbols.ownTy = false) {t : Option Expr}
    {m : String} {as : List Expr} {p : Span} {want : Expectation} {σ σ' : Supply}
    {block : List Instr} {dest : Option Temp} (h : s.LowersCall t m as p want σ block dest σ')
    (hc : (s.check (.call t m as p)).found = []) {c : Signature}
    (hcallee : s.checkedCallee? t m = some c) {whole : List Instr}
    (hids : ((definitions whole).map (·.id)).Nodup) (hsub : block ⊆ whole) :
    ∃ call, s.BindsCall whole c m as block call := by
  cases h with
  | @mk _ _ _ _ _ _ _ _ site fs _ hsite hargs hbound =>
    subst hbound
    have hsite_callee := (hsite.callee_checked hown hc).trans hcallee
    have harity := hsite.admits hown hc c hsite_callee
    have hfs : fs.flatMap (·.code) ⊆ whole := fun i hi => hsub (by simp [hi])
    rw [hsite_callee] at hargs
    have hlength := hargs.length_eq.trans (length_passed (c.fixedArity_le_of_admits harity))
    obtain ⟨fixed, last, rfl, hbinds⟩ := hargs.binds hown harity
      (found_of_checkValues (found_of_check_call hc).2) hids hfs
    refine ⟨_, ⟨site.code, fixed, last, rfl, ?_, hbinds⟩, ?_, rfl, ?_, ?_⟩
    · rw [CallSite.instr, BoundCall.args_of]
    · rw [CallSite.instr, BoundCall.args_of, List.length_map, hlength]
    · rw [CallSite.instr, hsite_callee]
      rfl
    · rw [CallSite.instr, hsite_callee]
      rfl

end Scope

/-- The calls in a body that are to methods of the class: lowering of each gives a block of the code, in
which the arguments are bound to the parameters. -/
def MethodCode.BindsArguments (m : MethodCode) (s : Scope) (body : List Stmt) : Prop :=
  ∀ t name as span c, .expr (.call t name as span) ∈ Stmt.nodesOf body →
    s.checkedCallee? t name = some c →
      ∃ want σ block result σ' call,
        s.lowerCall (t.map s.pending) name (as.map s.pending) span want σ = .ok (block, result) σ' ∧
        block <:+: m.instrs ∧ s.BindsCall m.instrs c name as block call

theorem Scope.LowersBody.bindsArguments {s : Scope}
    (hown : s.symbols.isExternal s.symbols.ownTy = false) {ts : List Stmt} {σ σ' : Supply}
    {body : List Instr} (h : s.LowersBody ts σ body σ') (hc : (s.checkBody ts).found = []) :
    (s.methodCode body).BindsArguments s ts := by
  intro t name as span c hnode hcallee
  obtain ⟨want, σ₁, block, dest, σ₂, hcall, hblock⟩ := h.emits hown hc _ hnode t name as span rfl
  have hwhole : block <:+: (s.methodCode body).instrs :=
    hblock.trans (List.prefix_append _ _).isInfix
  have hids : ((definitions (s.methodCode body).instrs).map (·.id)).Nodup := by
    rw [s.definitions_methodCode]
    exact h.laid.temps.nodup
  obtain ⟨call, hbinds⟩ :=
    hcall.bindsCall hown (unreported_of_checkBody hc _ hnode) hcallee hids hwhole.subset
  have hrun := (lowerCall_eq_ok_iff (r := (block, dest.map .temp)) (fun e _ => derivable s e)
    fun e _ => derivable s e).2 ⟨dest, rfl, hcall⟩
  exact ⟨want, σ₁, block, _, σ₂, call, hrun, hwhole, hbinds⟩

/-- In a program without findings whose name is its own, lowering binds the arguments of every call to a
method of the class as the analysis does. -/
theorem Program.argumentsBound_of_lower {p : Program} (hd : p.analyze.diagnostics = [])
    (hown : p.HasOwnName) {σ σ' : Supply} {code : ClassCode}
    (hl : p.analyze.symbols.lower p σ = .ok code σ') :
    List.Forall₂ (fun d m => m.BindsArguments (p.scopeOf d) d.body)
      p.classDecl.methods code.methods := by
  have hsymbols : p.analyze.symbols = .ofProgram p := rfl
  rw [hsymbols] at hl
  obtain ⟨ms, hms, rfl⟩ := Symbols.lower_eq_ok_iff.1 hl
  rw [p.paired_ofProgram] at hms
  have hchecked : ∀ d ∈ p.classDecl.methods, ((p.scopeOf d).checkBody d.body).found = [] :=
    fun d hmem => checkBody_eq_nil hd hmem
  refine ((List.forall₂_and_left _ _).2 ⟨hchecked, hms.forall₂⟩).imp fun d m h => ?_
  obtain ⟨hc, σ₁, σ₂, body, hb, rfl⟩ := h
  exact hb.bindsArguments (s := p.scopeOf d) (p.hasOwnName_iff.1 hown) hc

/-- `import lib.Gauge; class Abacus { int sum(int n, int... xs) { ... } }`, with all the ways to pass
trailing arguments: none, the array, a number of them, and one of which the type is open. -/
def Program.abacus : Program :=
  let var (n : String) : Expr := .name n {}
  let level : Expr := .call (some (var "Gauge")) "level" [] {}
  let sum (as : List Expr) : Stmt := .expr (.call (some (.this {})) "sum" as {}) {}
  { imports := [{ path := "lib.Gauge" }]
    classDecl := {
      name := "Abacus"
      methods := [{
        name := "sum", returns := { name := "int" }
        params := [{ type := { name := "int" }, name := "n" },
          { type := { name := "int", isArray := true, isVararg := true }, name := "xs" }]
        body := [
          sum [var "n"],
          sum [.length (var "xs") {}, var "xs"],
          sum [level, .call none "sum" [level] {}, var "n"],
          sum [var "n", level],
          .ret (some (var "n")) {}] }] } }

theorem Program.argumentsBound_abacus :
    abacus.analyze.diagnostics = [] ∧ abacus.HasOwnName ∧
      (∀ d ∈ abacus.classDecl.methods,
        ((abacus.scopeOf d).checkedCallee? (some (.this {})) "sum").isSome = true) ∧
      ∃ code σ', abacus.analyze.symbols.lower abacus {} = .ok code σ' ∧
        List.Forall₂ (fun d m => m.BindsArguments (abacus.scopeOf d) d.body)
          abacus.classDecl.methods code.methods := by
  have hd : abacus.analyze.diagnostics = [] := by decide +kernel
  have hown : abacus.HasOwnName := ⟨by decide +kernel, by decide⟩
  have h : ((abacus.analyze.symbols.lower abacus).run' {}).any fun _ => true := by decide +kernel
  obtain ⟨code, σ', hl, _⟩ := Lower.exists_of_any h
  exact ⟨hd, hown, by decide +kernel, code, σ', hl, argumentsBound_of_lower hd hown hl⟩

end SingleClass
