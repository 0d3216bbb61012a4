import SingleClass.Lowering.Program
set_option autoImplicit false

/-!
Lowering under another numbering. A step of lowering asks its supply for the next number and for
nothing else, so behind a supply it does what it does from the fresh one, with every number moved on by
what the supply has handed out (`Lower.Replays`). This holds of failing steps too, and of expressions,
statements, methods and units alike.
-/

namespace SingleClass

def Temp.renumber (n : Nat) (t : Temp) : Temp := { t with id := t.id + n }

def Label.renumber (n : Nat) (l : Label) : Label := { l with number := l.number + n }

def Operand.renumber (n : Nat) : Operand → Operand
  | .temp t => .temp (t.renumber n)
  | .int v => .int v
  | .bool v => .bool v
  | .var name ty => .var name ty
  | .this c => .this c
  | .null ty => .null ty

def Dest.renumber (n : Nat) : Dest → Dest
  | .var name ty => .var name ty
  | .temp t => .temp (t.renumber n)
  | .element array index => .element (array.renumber n) (index.renumber n)

def Call.renumber (n : Nat) (c : Call) : Call :=
  { c with
    dest := c.dest.map (Temp.renumber n)
    receiver := c.receiver.map (Operand.renumber n)
    args := c.args.map (Operand.renumber n) }

/-- An instruction with its temporaries and labels moved behind those that a supply has handed out. -/
def Instr.renumber (b : Supply) : Instr → Instr
  | .assign d v => .assign (d.renumber b.temps) (v.renumber b.temps)
  | .binary d op l r => .binary (d.renumber b.temps) op (l.renumber b.temps) (r.renumber b.temps)
  | .unary d op v => .unary (d.renumber b.temps) op (v.renumber b.temps)
  | .call c => .call (c.renumber b.temps)
  | .new d c => .new (d.renumber b.temps) c
  | .newArray d element size => .newArray (d.renumber b.temps) element (size.renumber b.temps)
  | .arrayLoad d array index =>
    .arrayLoad (d.renumber b.temps) (array.renumber b.temps) (index.renumber b.temps)
  | .arrayLength d array => .arrayLength (d.renumber b.temps) (array.renumber b.temps)
  | .getField d field ty => .getField (d.renumber b.temps) field ty
  | .putField field ty v => .putField field ty (v.renumber b.temps)
  | .ret v => .ret (v.map (Operand.renumber b.temps))
  | .goto l => .goto (l.renumber b.labels)
  | .branch c l => .branch (c.renumber b.temps) (l.renumber b.labels)
  | .label l => .label (l.renumber b.labels)

def LabelTable.renumber (n : Nat) (t : LabelTable) : LabelTable :=
  t.map fun e => (e.1.renumber n, e.2)

def MethodCode.renumber (b : Supply) (m : MethodCode) : MethodCode :=
  { m with instrs := m.instrs.map (Instr.renumber b), labels := m.labels.renumber b.labels }

def ClassCode.renumber (b : Supply) (c : ClassCode) : ClassCode :=
  { c with methods := c.methods.map (MethodCode.renumber b) }

def Fragment.renumber (b : Supply) (f : Fragment) : Fragment where
  code := f.code.map (Instr.renumber b)
  operand := f.operand.renumber b.temps

def CallSite.renumber (b : Supply) (site : CallSite) : CallSite :=
  { site with
    code := site.code.map (Instr.renumber b)
    receiver := site.receiver.map (Operand.renumber b.temps) }

def BoundCall.renumber (b : Supply) (bound : BoundCall) : BoundCall :=
  { bound with args := bound.args.map (Fragment.renumber b) }

@[simp] theorem Operand.ty_renumber (n : Nat) (o : Operand) : (o.renumber n).ty = o.ty := by
  cases o <;> rfl

@[simp] theorem Operand.renumber_ofLiteral (n : Nat) (v : Literal) :
    (Operand.ofLiteral v).renumber n = .ofLiteral v := by
  cases v <;> rfl

@[simp] theorem Operand.renumber_zero (n : Nat) (t : Ty) : (Operand.zero t).renumber n = .zero t := by
  unfold Operand.zero
  split
  · rfl
  · split <;> rfl

@[simp] theorem Instr.isReturn_renumber (b : Supply) (i : Instr) :
    (i.renumber b).isReturn = i.isReturn := by
  cases i <;> rfl

@[simp] theorem Instr.endsBlock_renumber (b : Supply) (i : Instr) :
    (i.renumber b).endsBlock = i.endsBlock := by
  cases i <;> rfl

@[simp] theorem Instr.label?_renumber (b : Supply) (i : Instr) :
    (i.renumber b).label? = i.label?.map (Label.renumber b.labels) := by
  cases i <;> rfl

theorem Label.renumber_injective (n : Nat) : Function.Injective (Label.renumber n) := by
  rintro ⟨kind, i⟩ ⟨kind', j⟩ h
  simp only [Label.renumber, Label.mk.injEq, Nat.add_right_cancel_iff] at h
  rw [h.1, h.2]

theorem closing_renumber (b : Supply) (ret : Ty) (code : List Instr) :
    closing ret (code.map (Instr.renumber b)) = (closing ret code).map (Instr.renumber b) := by
  have hlast : ∀ p : Instr → Bool, (∀ i, p (i.renumber b) = p i) →
      (code.map (Instr.renumber b)).getLast?.any p = code.getLast?.any p := by
    intro p hp
    rw [List.getLast?_map]
    cases code.getLast? with
    | none => rfl
    | some i => exact hp i
  unfold closing
  rw [hlast _ (Instr.isReturn_renumber b), hlast _ (Instr.endsBlock_renumber b)]
  split <;> split <;> simp [Instr.renumber]

theorem LabelTable.mark_renumber (n : Nat) (t : LabelTable) (l : Label) (k : Nat) :
    mark (t.renumber n) (l.renumber n) k = (mark t l k).renumber n := by
  have hne : ∀ e : Label × Nat, decide (e.1.renumber n ≠ l.renumber n) = decide (e.1 ≠ l) := by
    intro e
    simp [(Label.renumber_injective n).eq_iff]
  simp only [mark, renumber, List.filter_map, Function.comp_def, hne, List.map_append, List.map_cons,
    List.map_nil]

theorem LabelTable.ofMarkers_renumber (n : Nat) (ms : List (Label × Nat)) :
    ofMarkers (LabelTable.renumber n ms) = (ofMarkers ms).renumber n := by
  have hfold : ∀ t : LabelTable, (LabelTable.renumber n ms).foldl (fun t m => mark t m.1 m.2)
      (t.renumber n) = (ms.foldl (fun t m => mark t m.1 m.2) t).renumber n := by
    induction ms with
    | nil => exact fun _ => rfl
    | cons m ms ih =>
      intro t
      rw [List.foldl_cons, ← ih, ← mark_renumber]
      rfl
  exact hfold []

theorem LabelTable.ofInstrs_renumber (b : Supply) (code : List Instr) :
    ofInstrs (code.map (Instr.renumber b)) = (ofInstrs code).renumber b.labels := by
  unfold ofInstrs
  rw [← ofMarkers_renumber, List.zipIdx_map, List.filterMap_map, renumber, List.map_filterMap]
  congr 2
  funext e
  simp [Option.map_map, Function.comp_def]

/-- What has been handed out when `σ` was handed out behind `b`. -/
def Supply.behind (b σ : Supply) : Supply where
  temps := σ.temps + b.temps
  labels := σ.labels + b.labels
  notes := b.notes ++ σ.notes

@[simp] theorem Supply.behind_fresh (b : Supply) : b.behind {} = b := by
  simp [behind]

def Supply.moved {A : Type} (b : Supply) (f : A → A) :
    EStateM.Result Failure Supply A → EStateM.Result Failure Supply A
  | .ok a σ => .ok (f a) (b.behind σ)
  | .error e σ => .error e (b.behind σ)

namespace Lower

variable {A B : Type}

/-- Behind the supply `b`, the first step does what the second does without it. -/
def Replays (b : Supply) (f : A → A) (x' x : Lower A) : Prop :=
  ∀ σ, x' (b.behind σ) = b.moved f (x σ)

namespace Replays

variable {b : Supply}

theorem pure {f : A → A} {a' a : A} (h : a' = f a) :
    Replays b f (Pure.pure a' : Lower A) (Pure.pure a) := by
  intro σ
  rw [h]
  rfl

theorem throw {f : A → A} (e : Failure) :
    Replays b f (MonadExcept.throw e : Lower A) (MonadExcept.throw e) := fun _ => rfl

theorem bind {f : A → A} {g : B → B} {x' x : Lower A} {k' k : A → Lower B} (hx : Replays b f x' x)
    (hk : ∀ a, Replays b g (k' (f a)) (k a)) : Replays b g (x' >>= k') (x >>= k) := by
  intro σ
  show EStateM.bind x' k' (b.behind σ) = b.moved g (EStateM.bind x k σ)
  unfold EStateM.bind
  rw [hx σ]
  cases x σ with
  | ok a σ₁ => exact hk a σ₁
  | error e σ₁ => rfl

theorem freshTemp (t : Ty) :
    Replays b (Temp.renumber b.temps) (SingleClass.freshTemp t) (SingleClass.freshTemp t) := by
  intro σ
  simp [SingleClass.freshTemp, Supply.moved, Supply.behind, Temp.renumber, Nat.add_right_comm]

theorem freshLabel : Replays b (· + b.labels) SingleClass.freshLabel SingleClass.freshLabel := by
  intro σ
  simp [SingleClass.freshLabel, Supply.moved, Supply.behind, Nat.add_right_comm]

theorem note (p : Span) (i : Issue) : Replays b id (SingleClass.note p i) (SingleClass.note p i) := by
  intro σ
  simp [SingleClass.note, Supply.moved, Supply.behind]

end Replays

end Lower

open Lower (Replays)

def Pending.Replays (b : Supply) (p : Pending) : Prop :=
  ∀ want, Lower.Replays b (Fragment.renumber b) (p.lower want) (p.lower want)

variable {b : Supply}

theorem Pending.replays_lowerAll {ps : List (Pending × Expectation)} (h : ∀ p ∈ ps, p.1.Replays b) :
    Lower.Replays b (List.map (Fragment.renumber b)) (Pending.lowerAll ps) (Pending.lowerAll ps) := by
  induction ps with
  | nil => exact .pure rfl
  | cons p ps ih =>
    obtain ⟨hp, hps⟩ := List.forall_mem_cons.1 h
    exact (hp _).bind fun _ => (ih hps).bind fun _ => .pure rfl

theorem replays_storeElements (array : Operand) {element : Ty} {i : Nat} {ps : List Pending}
    (h : ∀ p ∈ ps, p.Replays b) :
    Replays b (List.map (Instr.renumber b)) (storeElements (array.renumber b.temps) element i ps)
      (storeElements array element i ps) := by
  induction ps generalizing i with
  | nil => exact .pure rfl
  | cons p ps ih =>
    obtain ⟨hp, hps⟩ := List.forall_mem_cons.1 h
    refine (hp _).bind fun f => (ih hps).bind fun rest => .pure ?_
    simp [Fragment.renumber, Instr.renumber, Dest.renumber, Operand.renumber]

theorem replays_packArray {element : Ty} {ps : List Pending} (h : ∀ p ∈ ps, p.Replays b) :
    Replays b (Fragment.renumber b) (packArray element ps) (packArray element ps) := by
  have hrest : Replays b (Fragment.renumber b)
      (freshTemp element.array >>= fun array =>
        storeElements (.temp array) element 0 ps >>= fun stores =>
          pure {
            code := .newArray array element (.int (.ofNat ps.length)) :: stores
            operand := .temp array })
      (freshTemp element.array >>= fun array =>
        storeElements (.temp array) element 0 ps >>= fun stores =>
          pure {
            code := .newArray array element (.int (.ofNat ps.length)) :: stores
            operand := .temp array }) :=
    (Lower.Replays.freshTemp _).bind fun t =>
      (replays_storeElements (.temp t) h).bind fun _ => .pure rfl
  unfold packArray
  dsimp only
  split
  · exact (Lower.Replays.throw (f := id) _).bind fun _ => hrest
  · exact hrest

namespace Scope

theorem replays_ownerOf (s : Scope) (t : Ty) (m : String) :
    Replays b id (s.ownerOf t m) (s.ownerOf t m) := by
  unfold ownerOf
  split
  · exact .throw _
  · split
    · exact .pure rfl
    · exact .pure rfl
    · exact .throw _

theorem replays_callSite (s : Scope) {t : Option Pending} (h : ∀ p ∈ t, p.Replays b) (m : String) :
    Replays b (CallSite.renumber b) (s.callSite t m) (s.callSite t m) := by
  unfold callSite
  split
  · split
    · exact .throw _
    · exact .pure rfl
  · split
    · exact .pure rfl
    · split
      · exact .throw _
      · exact (s.replays_ownerOf _ m).bind fun _ => (h _ rfl _).bind fun _ => .pure rfl

theorem replays_lowerDeclaredArgs (s : Scope) (c : Signature) {ps : List Pending}
    (h : ∀ p ∈ ps, p.Replays b) :
    Replays b (List.map (Fragment.renumber b)) (s.lowerDeclaredArgs c ps) (s.lowerDeclaredArgs c ps) := by
  unfold lowerDeclaredArgs
  refine (Pending.replays_lowerAll ?_).bind fun _ => ?_
  · intro q hq
    obtain ⟨⟨p, v⟩, hp, rfl⟩ := List.mem_map.1 (List.mem_of_mem_take hq)
    exact h p (List.of_mem_zip hp).1
  · have htrailing : ∀ p ∈ ps.drop c.fixedArity, p.Replays b :=
      fun p hp => h p (List.mem_of_mem_drop hp)
    split
    · exact .pure rfl
    · dsimp only
      split
      · next a as _ htail =>
        exact (htrailing a (by simp [htail]) _).bind fun _ => .pure (by simp)
      · exact (replays_packArray htrailing).bind fun _ => .pure (by simp)

theorem replays_foreignResult (want : Expectation) (m : String) (p : Span) :
    Replays b id (foreignResult want m p) (foreignResult want m p) := by
  unfold foreignResult
  split
  · exact .pure rfl
  · exact .pure rfl
  · exact (Lower.Replays.note _ _).bind fun _ => .pure rfl

theorem replays_bindArguments (s : Scope) (c : Option Signature) (m : String) {ps : List Pending}
    (h : ∀ p ∈ ps, p.Replays b) (p : Span) (want : Expectation) :
    Replays b (BoundCall.renumber b) (s.bindArguments c m ps p want)
      (s.bindArguments c m ps p want) := by
  unfold bindArguments
  split
  · exact (s.replays_lowerDeclaredArgs _ h).bind fun _ => .pure rfl
  · refine (Pending.replays_lowerAll ?_).bind fun fs =>
      (replays_foreignResult want m p).bind fun ret => .pure ?_
    · intro q hq
      obtain ⟨p, hp, rfl⟩ := List.mem_map.1 hq
      exact h p hp
    -- the types by which the method is called are those of the operands
    · simp [BoundCall.renumber, Fragment.renumber, Function.comp_def]

theorem replays_resultTemp (want : Expectation) (ret : Ty) :
    Replays b (Option.map (Temp.renumber b.temps)) (resultTemp want ret) (resultTemp want ret) := by
  unfold resultTemp
  split
  · exact .pure rfl
  · exact (Lower.Replays.freshTemp _).bind fun _ => .pure rfl

def renumberCall (b : Supply) (r : List Instr × Option Operand) : List Instr × Option Operand :=
  (r.1.map (Instr.renumber b), r.2.map (Operand.renumber b.temps))

theorem replays_lowerCall (s : Scope) {t : Option Pending} (ht : ∀ p ∈ t, p.Replays b) (m : String)
    {ps : List Pending} (h : ∀ p ∈ ps, p.Replays b) (p : Span) (want : Expectation) :
    Replays b (renumberCall b) (s.lowerCall t m ps p want) (s.lowerCall t m ps p want) := by
  refine (s.replays_callSite ht m).bind fun site =>
    (s.replays_bindArguments _ m h p want).bind fun bound =>
      (replays_resultTemp want bound.ret).bind fun dest => .pure ?_
  simp [renumberCall, CallSite.renumber, BoundCall.renumber, Fragment.renumber, Instr.renumber,
    Call.renumber, Operand.renumber, List.map_flatMap, List.flatMap_map, Function.comp_def]

theorem replays_valueCall (s : Scope) {t : Option Pending} (ht : ∀ p ∈ t, p.Replays b) (m : String)
    {ps : List Pending} (h : ∀ p ∈ ps, p.Replays b) (p : Span) (want : Expectation) :
    Replays b (Fragment.renumber b)
      (s.lowerCall t m ps p want >>= fun r =>
        match r with
        | (code, result) =>
          match result with
          | some operand => pure { code, operand }
          | none => throw (.voidCall m))
      (s.lowerCall t m ps p want >>= fun r =>
        match r with
        | (code, result) =>
          match result with
          | some operand => pure { code, operand }
          | none => throw (.voidCall m)) := by
  refine (s.replays_lowerCall ht m h p want).bind fun r => ?_
  obtain ⟨code, result⟩ := r
  cases result with
  | none => exact .throw _
  | some operand => exact .pure rfl

mutual

theorem replays_lower (s : Scope) : ∀ (e : Expr) (want : Expectation),
    Replays b (Fragment.renumber b) (s.lower e want) (s.lower e want)
  | .literal v p, want => .pure (by simp [Fragment.renumber])
  | .name n p, want => by
    simp only [lower, lowerName]
    split
    · exact (Lower.Replays.freshTemp _).bind fun _ => .pure rfl
    · exact .pure rfl
    · exact .throw _
  | .this p, want => by
    simp only [lower]
    split
    · exact .throw _
    · exact .pure rfl
  | .binary op l r p, want =>
    (replays_lower s l _).bind fun _ => (replays_lower s r _).bind fun _ =>
      (Lower.Replays.freshTemp _).bind fun _ => .pure (by
        simp [Fragment.renumber, Instr.renumber, Operand.renumber])
  | .unary op e p, want =>
    (replays_lower s e _).bind fun _ => (Lower.Replays.freshTemp _).bind fun _ => .pure (by
      simp [Fragment.renumber, Instr.renumber, Operand.renumber])
  | .paren e, want => replays_lower s e want
  | .index a i p, want => by
    refine (replays_lower s a _).bind fun af => (replays_lower s i _).bind fun jf => ?_
    -- the element's type is read off the operand, which keeps its type
    have hty : (af.renumber b).operand.ty = af.operand.ty := af.operand.ty_renumber b.temps
    rw [hty]
    exact (Lower.Replays.freshTemp _).bind fun _ => .pure (by
      simp [Fragment.renumber, Instr.renumber, Operand.renumber])
  | .length a p, want =>
    (replays_lower s a _).bind fun _ => (Lower.Replays.freshTemp _).bind fun _ => .pure (by
      simp [Fragment.renumber, Instr.renumber, Operand.renumber])
  | .call none m as p, want => s.replays_valueCall (by simp) m (replays_pendings s as) p want
  | .call (some t) m as p, want => by
    refine s.replays_valueCall ?_ m (replays_pendings s as) p want
    intro q hq
    cases hq
    exact replays_lower s t
  | .newObject c p, want => (Lower.Replays.freshTemp _).bind fun _ => .pure rfl
  | .newArray t e p, want =>
    (replays_lower s e _).bind fun _ => (Lower.Replays.freshTemp _).bind fun _ => .pure (by
      simp [Fragment.renumber, Instr.renumber, Operand.renumber])
  | .arrayInit es p, want => replays_packArray (replays_pendings s es)

theorem replays_pendings (s : Scope) : ∀ (es : List Expr), ∀ p ∈ s.pendings es, p.Replays b
  | [], p, hp => by simp [pendings] at hp
  | e :: es, p, hp => by
    rw [pendings] at hp
    rcases List.mem_cons.1 hp with rfl | hp
    · exact replays_lower s e
    · exact replays_pendings s es p hp

end

theorem replays_lowerEffect (s : Scope) (e : Expr) :
    Replays b (List.map (Instr.renumber b)) (s.lowerEffect e) (s.lowerEffect e) := by
  have hpending : ∀ e : Expr, (s.pending e).Replays b := s.replays_lower
  unfold lowerEffect
  split
  · refine Lower.Replays.bind (s.replays_lowerCall ?_ _ ?_ _ _) fun _ => .pure rfl
    · intro p hp
      obtain ⟨e, _, rfl⟩ := Option.map_eq_some_iff.1 hp
      exact hpending e
    · intro p hp
      obtain ⟨e, _, rfl⟩ := List.mem_map.1 hp
      exact hpending e
  · exact (s.replays_lower _ _).bind fun _ => .pure rfl

theorem replays_lowerAssign (s : Scope) (target value : Expr) :
    Replays b (List.map (Instr.renumber b)) (s.lowerAssign target value)
      (s.lowerAssign target value) := by
  unfold lowerAssign
  split
  · split
    · exact (s.replays_lower _ _).bind fun _ => .pure (by simp [Fragment.renumber, Instr.renumber])
    · exact (s.replays_lower _ _).bind fun _ => .pure (by
        simp [Fragment.renumber, Instr.renumber, Dest.renumber])
    · exact .throw _
  · refine (s.replays_lower _ _).bind fun af => (s.replays_lower _ _).bind fun jf => ?_
    have hty : (af.renumber b).operand.ty = af.operand.ty := af.operand.ty_renumber b.temps
    rw [hty]
    exact (s.replays_lower _ _).bind fun _ => .pure (by
      simp [Fragment.renumber, Instr.renumber, Dest.renumber])
  · exact .throw _

theorem condCode_renumber (n : Nat) (c : Fragment) (tc ec : List Instr) :
    condCode (n + b.labels) (c.renumber b) (tc.map (Instr.renumber b)) (ec.map (Instr.renumber b)) =
      (condCode n c tc ec).map (Instr.renumber b) := by
  simp [condCode, Fragment.renumber, Instr.renumber, Label.renumber]

theorem loopCode_renumber (n : Nat) (c : Fragment) (body : List Instr) :
    loopCode (n + b.labels) (c.renumber b) (body.map (Instr.renumber b)) =
      (loopCode n c body).map (Instr.renumber b) := by
  simp [loopCode, Fragment.renumber, Instr.renumber, Label.renumber]

mutual

theorem replays_lowerStmt (s : Scope) : ∀ t : Stmt,
    Replays b (List.map (Instr.renumber b)) (s.lowerStmt t) (s.lowerStmt t)
  | .block ts _ => replays_lowerBody s ts
  | .cond c t none _ =>
    Lower.Replays.freshLabel.bind fun _ => (s.replays_lower c _).bind fun _ =>
      (replays_lowerStmt s t).bind fun _ => .pure (condCode_renumber _ _ _ [])
  | .cond c t (some e) _ =>
    Lower.Replays.freshLabel.bind fun _ => (s.replays_lower c _).bind fun _ =>
      (replays_lowerStmt s e).bind fun _ => (replays_lowerStmt s t).bind fun _ =>
        .pure (condCode_renumber _ _ _ _)
  | .loop c t _ =>
    Lower.Replays.freshLabel.bind fun _ => (s.replays_lower c _).bind fun _ =>
      (replays_lowerStmt s t).bind fun _ => .pure (loopCode_renumber _ _ _)
  | .expr e _ => s.replays_lowerEffect e
  | .assign target value _ => s.replays_lowerAssign target value
  | .ret none _ => .pure rfl
  | .ret (some e) _ =>
    (s.replays_lower e _).bind fun _ => .pure (by simp [Fragment.renumber, Instr.renumber])

theorem replays_lowerBody (s : Scope) : ∀ ts : List Stmt,
    Replays b (List.map (Instr.renumber b)) (s.lowerBody ts) (s.lowerBody ts)
  | [] => .pure rfl
  | t :: ts =>
    (replays_lowerStmt s t).bind fun _ => (replays_lowerBody s ts).bind fun _ => .pure (by simp)

end

theorem replays_lowerMethod (s : Scope) (d : MethodDecl) :
    Replays b (MethodCode.renumber b) (s.lowerMethod d) (s.lowerMethod d) := by
  refine (s.replays_lowerBody d.body).bind fun body => .pure ?_
  simp only [MethodCode.renumber, closing_renumber, ← List.map_append, LabelTable.ofInstrs_renumber]

end Scope

namespace Symbols

theorem replays_lowerMethods (S : Symbols) (ds : List (MethodDecl × Signature)) :
    Replays b (List.map (MethodCode.renumber b)) (S.lowerMethods ds) (S.lowerMethods ds) := by
  induction ds with
  | nil => exact .pure rfl
  | cons d ds ih =>
    exact (Scope.replays_lowerMethod _ _).bind fun _ => ih.bind fun _ => .pure rfl

theorem replays_lower (S : Symbols) (p : Program) :
    Replays b (ClassCode.renumber b) (S.lower p) (S.lower p) :=
  (S.replays_lowerMethods _).bind fun _ => .pure rfl

end Symbols

end SingleClass
