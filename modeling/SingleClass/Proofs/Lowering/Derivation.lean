import SingleClass.Lowering.Program
set_option autoImplicit false

/-!
Successful lowering as derivations, one rule for each form. `lower_eq_ok_iff` and its companions say
that the rules derive exactly what the functions compute, so a property of emitted code is shown by
induction on derivations and a derivation shows that lowering succeeds.
-/

namespace SingleClass

namespace Lower

variable {A B : Type}

theorem bind_eq_ok {x : Lower A} {f : A → Lower B} {σ σ' : Supply} {b : B} :
    (x >>= f) σ = .ok b σ' ↔ ∃ a σ₁, x σ = .ok a σ₁ ∧ f a σ₁ = .ok b σ' := by
  show EStateM.bind x f σ = _ ↔ _
  unfold EStateM.bind
  cases h : x σ with
  | ok a σ₁ =>
    constructor
    · intro hf
      exact ⟨a, σ₁, rfl, hf⟩
    · rintro ⟨_, _, hx, hf⟩
      cases hx
      exact hf
  | error e σ₁ => simp

theorem pure_eq_ok {a b : A} {σ σ' : Supply} :
    (pure a : Lower A) σ = .ok b σ' ↔ a = b ∧ σ = σ' := by
  show EStateM.Result.ok a σ = _ ↔ _
  simp

theorem throw_ne_ok {e : Failure} {b : A} {σ σ' : Supply} :
    (throw e : Lower A) σ = .ok b σ' ↔ False := by
  show EStateM.Result.error e σ = _ ↔ _
  simp

theorem exists_of_any {x : Lower A} {σ : Supply} {P : A → Bool} (h : (x.run' σ).any P = true) :
    ∃ a σ', x σ = .ok a σ' ∧ P a = true := by
  unfold EStateM.run' EStateM.run at h
  cases hx : x σ with
  | ok a σ' =>
    rw [hx] at h
    exact ⟨a, σ', rfl, h⟩
  | error e σ' => simp [hx] at h

end Lower

def Supply.takeTemp (σ : Supply) : Supply := { σ with temps := σ.temps + 1 }
def Supply.takeLabel (σ : Supply) : Supply := { σ with labels := σ.labels + 1 }

theorem freshTemp_eq_ok {t : Ty} {a : Temp} {σ σ' : Supply} :
    freshTemp t σ = .ok a σ' ↔ ⟨σ.temps, t⟩ = a ∧ σ.takeTemp = σ' := by
  simp [freshTemp, Supply.takeTemp]

theorem freshLabel_eq_ok {n : Nat} {σ σ' : Supply} :
    freshLabel σ = .ok n σ' ↔ σ.labels = n ∧ σ.takeLabel = σ' := by
  simp [freshLabel, Supply.takeLabel]

theorem loopCode_eq (n : Nat) (condition : Fragment) (body : List Instr) :
    loopCode n condition body = [Instr.label ⟨"whilecond", n⟩] ++
      ((condition.code ++ [Instr.branch condition.operand ⟨"whilebody", n⟩]) ++
        ([Instr.goto ⟨"whileend", n⟩, Instr.label ⟨"whilebody", n⟩] ++
          (body ++ [Instr.goto ⟨"whilecond", n⟩, Instr.label ⟨"whileend", n⟩]))) := by
  simp [loopCode]

/-- How an argument reaches its parameter. -/
inductive Passed where
  | direct (expr : Expr) (want : Expectation)
  | packed (element : Ty) (values : List Expr)

/-- The type that the context gives a method declared elsewhere. -/
def Expectation.foreignTy : Expectation → Ty
  | .discard => .void
  | .value t => t
  | .unknown => .int

def Expectation.dest (want : Expectation) (ret : Ty) (σ : Supply) : Option Temp :=
  if want = .discard || ret.isVoid then none else some ⟨σ.temps, ret⟩

theorem Expectation.of_mem_dest {want : Expectation} {ret : Ty} {σ : Supply} {d : Temp}
    (h : d ∈ want.dest ret σ) : d = ⟨σ.temps, ret⟩ ∧ want ≠ .discard ∧ ret.isVoid = false := by
  unfold Expectation.dest at h
  split at h
  · simp at h
  · rename_i hw
    simp only [Bool.or_eq_true, decide_eq_true_eq, not_or, Bool.not_eq_true] at hw
    exact ⟨(Option.mem_some.1 h).symm, hw⟩

def Supply.takeDest (σ : Supply) (want : Expectation) (ret : Ty) : Supply :=
  if want = .discard || ret.isVoid then σ else σ.takeTemp

/-- The supply after the result type of a call is settled: an assumed int is noted. -/
def Supply.settle (σ : Supply) (callee : Option Signature) (want : Expectation) (method : String)
    (span : Span) : Supply :=
  match callee, want with
  | none, .unknown => { σ with notes := σ.notes ++ [.place span (.assumedInt method)] }
  | _, _ => σ

def BoundCall.of (callee : Option Signature) (want : Expectation) (args : List Fragment) : BoundCall :=
  match callee with
  | some m => { args, params := m.paramTys, ret := m.returnTy }
  | none => { args, params := args.map (·.operand.ty), ret := want.foreignTy }

@[simp] theorem BoundCall.args_of (callee : Option Signature) (want : Expectation)
    (args : List Fragment) : (BoundCall.of callee want args).args = args := by
  cases callee <;> rfl

def CallSite.instr (site : CallSite) (method : String) (bound : BoundCall) (dest : Option Temp) :
    Call where
  dest := dest
  dispatch := site.dispatch
  owner := site.owner
  receiver := site.receiver
  method := method
  args := bound.args.map (·.operand)
  params := bound.params
  ret := bound.ret

namespace Scope

def passedLast (s : Scope) (t : Ty) (trailing : List Expr) : Passed :=
  match VarargPassing.of (trailing.map s.typeHint) t.element, trailing with
  | .array, a :: _ => .direct a (.value t.asValue)
  | _, _ => .packed t.element trailing

def passed (s : Scope) (callee : Option Signature) (args : List Expr) : List Passed :=
  match callee with
  | none => args.map fun a => .direct a (.of (s.typeHint a))
  | some m =>
    ((args.zip m.params).take m.fixedArity).map (fun (a, p) => .direct a (.of p.ty.asValue)) ++
      m.vararg?.toList.map fun v => s.passedLast v.ty (args.drop m.fixedArity)

mutual

inductive Lowers (s : Scope) : Expr → Expectation → Supply → Fragment → Supply → Prop
  | literal {v : Literal} {p : Span} {want : Expectation} {σ : Supply} :
      Lowers s (.literal v p) want σ { operand := .ofLiteral v } σ
  | var {n : String} {p : Span} {want : Expectation} {σ : Supply} {b : Binding}
      (hb : s.lookup n = some b) (hf : b.isField = false) :
      Lowers s (.name n p) want σ { operand := .var n b.symbol.ty.asValue } σ
  | field {n : String} {p : Span} {want : Expectation} {σ : Supply} {f : Symbol}
      (hf : s.lookup n = some (.field f)) :
      Lowers s (.name n p) want σ
        { code := [.getField ⟨σ.temps, f.ty.asValue⟩ f.name f.ty.asValue]
          operand := .temp ⟨σ.temps, f.ty.asValue⟩ } σ.takeTemp
  | this {p : Span} {want : Expectation} {σ : Supply} (hs : s.method.isStatic = false) :
      Lowers s (.this p) want σ { operand := s.thisOperand } σ
  | binary {op : BinaryOp} {l r : Expr} {p : Span} {want : Expectation} {σ σ₁ σ₂ : Supply}
      {lf rf : Fragment} (hl : Lowers s l (s.operandExpectations op l r).1 σ lf σ₁)
      (hr : Lowers s r (s.operandExpectations op l r).2 σ₁ rf σ₂) :
      Lowers s (.binary op l r p) want σ
        { code := lf.code ++ rf.code ++ [.binary ⟨σ₂.temps, op.resultTy⟩ op lf.operand rf.operand]
          operand := .temp ⟨σ₂.temps, op.resultTy⟩ } σ₂.takeTemp
  | unary {op : UnaryOp} {e : Expr} {p : Span} {want : Expectation} {σ σ₁ : Supply} {f : Fragment}
      (he : Lowers s e (.value op.ty) σ f σ₁) :
      Lowers s (.unary op e p) want σ
        { code := f.code ++ [.unary ⟨σ₁.temps, op.ty⟩ op f.operand]
          operand := .temp ⟨σ₁.temps, op.ty⟩ } σ₁.takeTemp
  | paren {e : Expr} {want : Expectation} {σ σ₁ : Supply} {f : Fragment}
      (he : Lowers s e want σ f σ₁) : Lowers s (.paren e) want σ f σ₁
  | index {a i : Expr} {p : Span} {want : Expectation} {σ σ₁ σ₂ : Supply} {af jf : Fragment}
      (ha : Lowers s a (arrayExpectation want) σ af σ₁) (hi : Lowers s i (.value .int) σ₁ jf σ₂) :
      Lowers s (.index a i p) want σ
        { code := af.code ++ jf.code ++
            [.arrayLoad ⟨σ₂.temps, af.operand.ty.element⟩ af.operand jf.operand]
          operand := .temp ⟨σ₂.temps, af.operand.ty.element⟩ } σ₂.takeTemp
  | length {a : Expr} {p : Span} {want : Expectation} {σ σ₁ : Supply} {f : Fragment}
      (ha : Lowers s a (.value Ty.int.array) σ f σ₁) :
      Lowers s (.length a p) want σ
        { code := f.code ++ [.arrayLength ⟨σ₁.temps, .int⟩ f.operand]
          operand := .temp ⟨σ₁.temps, .int⟩ } σ₁.takeTemp
  | call {t : Option Expr} {m : String} {as : List Expr} {p : Span} {want : Expectation}
      {σ σ₁ : Supply} {code : List Instr} {result : Temp}
      (hc : LowersCall s t m as p want σ code (some result) σ₁) :
      Lowers s (.call t m as p) want σ { code, operand := .temp result } σ₁
  | newObject {c : String} {p : Span} {want : Expectation} {σ : Supply} :
      Lowers s (.newObject c p) want σ
        { code := [.new ⟨σ.temps, .named c⟩ c, .call (s.constructorCall ⟨σ.temps, .named c⟩ c)]
          operand := .temp ⟨σ.temps, .named c⟩ } σ.takeTemp
  | newArray {t : TypeName} {e : Expr} {p : Span} {want : Expectation} {σ σ₁ : Supply}
      {f : Fragment} (he : Lowers s e (.value .int) σ f σ₁) :
      Lowers s (.newArray t e p) want σ
        { code := f.code ++
            [.newArray ⟨σ₁.temps, Typing.newArray t⟩ (Ty.ofName t).element f.operand]
          operand := .temp ⟨σ₁.temps, Typing.newArray t⟩ } σ₁.takeTemp
  | arrayInit {es : List Expr} {p : Span} {want : Expectation} {σ σ₁ : Supply} {f : Fragment}
      (h : Packs s (initElementTy (s.typeHint (.arrayInit es p)) want) es σ f σ₁) :
      Lowers s (.arrayInit es p) want σ f σ₁

inductive LowersCall (s : Scope) : Option Expr → String → List Expr → Span → Expectation → Supply →
    List Instr → Option Temp → Supply → Prop
  | mk {t : Option Expr} {m : String} {as : List Expr} {p : Span} {want : Expectation}
      {σ σ₁ σ₂ : Supply} {site : CallSite} {fs : List Fragment} {bound : BoundCall}
      (hsite : LowersSite s t m σ site σ₁) (hargs : LowersArgs s (s.passed site.callee as) σ₁ fs σ₂)
      (hbound : bound = .of site.callee want fs) :
      LowersCall s t m as p want σ
        (site.code ++ fs.flatMap (·.code) ++
          [.call (site.instr m bound (want.dest bound.ret (σ₂.settle site.callee want m p)))])
        (want.dest bound.ret (σ₂.settle site.callee want m p))
        ((σ₂.settle site.callee want m p).takeDest want bound.ret)

inductive LowersSite (s : Scope) : Option Expr → String → Supply → CallSite → Supply → Prop
  | implicit {m : String} {σ : Supply} (hs : s.method.isStatic = false) :
      LowersSite s none m σ
        { dispatch := .virtual
          owner := s.symbols.className
          receiver := some s.thisOperand
          callee := s.symbols.callee? m none } σ
  | static {t : Expr} {m : String} {σ : Supply} {i : Import} (hi : s.staticReceiver? t = some i) :
      LowersSite s (some t) m σ
        { dispatch := .static, owner := i.internalName, receiver := none, callee := none } σ
  | receiver {t : Expr} {m : String} {σ σ₁ : Supply} {ty : Ty} {owner : String} {f : Fragment}
      (hn : s.staticReceiver? t = none) (hty : s.typeOf t = .ok ty)
      (ho : s.ownerOf ty m σ = .ok owner σ) (ht : Lowers s t .unknown σ f σ₁) :
      LowersSite s (some t) m σ
        { code := f.code
          dispatch := .virtual
          owner := owner
          receiver := some f.operand
          callee := s.symbols.callee? m (some ty) } σ₁

inductive LowersArgs (s : Scope) : List Passed → Supply → List Fragment → Supply → Prop
  | nil {σ : Supply} : LowersArgs s [] σ [] σ
  | direct {e : Expr} {want : Expectation} {ps : List Passed} {σ σ₁ σ₂ : Supply} {f : Fragment}
      {fs : List Fragment} (he : Lowers s e want σ f σ₁) (hs : LowersArgs s ps σ₁ fs σ₂) :
      LowersArgs s (.direct e want :: ps) σ (f :: fs) σ₂
  | packed {element : Ty} {values : List Expr} {ps : List Passed} {σ σ₁ σ₂ : Supply} {f : Fragment}
      {fs : List Fragment} (hp : Packs s element values σ f σ₁) (hs : LowersArgs s ps σ₁ fs σ₂) :
      LowersArgs s (.packed element values :: ps) σ (f :: fs) σ₂

inductive Packs (s : Scope) : Ty → List Expr → Supply → Fragment → Supply → Prop
  | mk {element : Ty} {es : List Expr} {σ σ₁ : Supply} {stores : List Instr}
      (hlen : es.length < 2147483648)
      (h : Stores s ⟨σ.temps, element.array⟩ element 0 es σ.takeTemp stores σ₁) :
      Packs s element es σ
        { code := .newArray ⟨σ.temps, element.array⟩ element (.int (.ofNat es.length)) :: stores
          operand := .temp ⟨σ.temps, element.array⟩ } σ₁

inductive Stores (s : Scope) : Temp → Ty → Nat → List Expr → Supply → List Instr → Supply → Prop
  | nil {array : Temp} {element : Ty} {i : Nat} {σ : Supply} : Stores s array element i [] σ [] σ
  | cons {array : Temp} {element : Ty} {i : Nat} {e : Expr} {es : List Expr} {σ σ₁ σ₂ : Supply}
      {f : Fragment} {rest : List Instr} (he : Lowers s e (.value element) σ f σ₁)
      (hs : Stores s array element (i + 1) es σ₁ rest σ₂) :
      Stores s array element i (e :: es) σ
        (f.code ++ .assign (.element (.temp array) (.int (.ofNat i))) f.operand :: rest) σ₂

end

inductive LowersEffect (s : Scope) : Expr → Supply → List Instr → Supply → Prop
  | call {e : Expr} {t : Option Expr} {m : String} {as : List Expr} {p : Span} {σ σ₁ : Supply}
      {code : List Instr} {dest : Option Temp} (he : e.stripParens = .call t m as p)
      (hc : LowersCall s t m as p .discard σ code dest σ₁) : LowersEffect s e σ code σ₁
  | value {e : Expr} {σ σ₁ : Supply} {f : Fragment}
      (he : ∀ t m as p, e.stripParens ≠ .call t m as p)
      (h : Lowers s e.stripParens (.of (s.typeHint e.stripParens)) σ f σ₁) :
      LowersEffect s e σ f.code σ₁

inductive LowersAssign (s : Scope) : Expr → Expr → Supply → List Instr → Supply → Prop
  | var {n : String} {p : Span} {value : Expr} {σ σ₁ : Supply} {b : Binding} {v : Fragment}
      (hb : s.lookup n = some b) (hf : b.isField = false)
      (hv : Lowers s value (.of b.symbol.ty.asValue) σ v σ₁) :
      LowersAssign s (.name n p) value σ
        (v.code ++ [.assign (.var n b.symbol.ty.asValue) v.operand]) σ₁
  | field {n : String} {p : Span} {value : Expr} {σ σ₁ : Supply} {f : Symbol} {v : Fragment}
      (hf : s.lookup n = some (.field f)) (hv : Lowers s value (.of f.ty.asValue) σ v σ₁) :
      LowersAssign s (.name n p) value σ (v.code ++ [.putField f.name f.ty.asValue v.operand]) σ₁
  | element {a i : Expr} {p : Span} {value : Expr} {σ σ₁ σ₂ σ₃ : Supply} {af jf v : Fragment}
      (ha : Lowers s a .unknown σ af σ₁) (hi : Lowers s i (.value .int) σ₁ jf σ₂)
      (hv : Lowers s value (.of af.operand.ty.element) σ₂ v σ₃) :
      LowersAssign s (.index a i p) value σ
        (af.code ++ jf.code ++ v.code ++ [.assign (.element af.operand jf.operand) v.operand]) σ₃

mutual

inductive LowersStmt (s : Scope) : Stmt → Supply → List Instr → Supply → Prop
  | block {b : List Stmt} {p : Span} {σ σ₁ : Supply} {code : List Instr}
      (h : LowersBody s b σ code σ₁) : LowersStmt s (.block b p) σ code σ₁
  | condThen {c : Expr} {t : Stmt} {p : Span} {σ σ₁ σ₂ : Supply} {cf : Fragment} {tc : List Instr}
      (hc : Lowers s c (.value .boolean) σ.takeLabel cf σ₁) (ht : LowersStmt s t σ₁ tc σ₂) :
      LowersStmt s (.cond c t none p) σ (condCode σ.labels cf tc []) σ₂
  | condElse {c : Expr} {t e : Stmt} {p : Span} {σ σ₁ σ₂ σ₃ : Supply} {cf : Fragment}
      {tc ec : List Instr} (hc : Lowers s c (.value .boolean) σ.takeLabel cf σ₁)
      (he : LowersStmt s e σ₁ ec σ₂) (ht : LowersStmt s t σ₂ tc σ₃) :
      LowersStmt s (.cond c t (some e) p) σ (condCode σ.labels cf tc ec) σ₃
  | loop {c : Expr} {b : Stmt} {p : Span} {σ σ₁ σ₂ : Supply} {cf : Fragment} {bc : List Instr}
      (hc : Lowers s c (.value .boolean) σ.takeLabel cf σ₁) (hb : LowersStmt s b σ₁ bc σ₂) :
      LowersStmt s (.loop c b p) σ (loopCode σ.labels cf bc) σ₂
  | expr {e : Expr} {p : Span} {σ σ₁ : Supply} {code : List Instr}
      (h : LowersEffect s e σ code σ₁) : LowersStmt s (.expr e p) σ code σ₁
  | assign {target value : Expr} {p : Span} {σ σ₁ : Supply} {code : List Instr}
      (h : LowersAssign s target value σ code σ₁) : LowersStmt s (.assign target value p) σ code σ₁
  | retNone {p : Span} {σ : Supply} : LowersStmt s (.ret none p) σ [.ret none] σ
  | retSome {e : Expr} {p : Span} {σ σ₁ : Supply} {v : Fragment}
      (h : Lowers s e (.of s.method.returnTy) σ v σ₁) :
      LowersStmt s (.ret (some e) p) σ (v.code ++ [.ret (some v.operand)]) σ₁

inductive LowersBody (s : Scope) : List Stmt → Supply → List Instr → Supply → Prop
  | nil {σ : Supply} : LowersBody s [] σ [] σ
  | cons {t : Stmt} {ts : List Stmt} {σ σ₁ σ₂ : Supply} {code rest : List Instr}
      (ht : LowersStmt s t σ code σ₁) (hs : LowersBody s ts σ₁ rest σ₂) :
      LowersBody s (t :: ts) σ (code ++ rest) σ₂

end

/-! ### Derivations of expressions are runs of lowering -/

/-- Lowering of `e` succeeds exactly where there is a derivation. -/
def Derivable (s : Scope) (e : Expr) : Prop :=
  ∀ (want : Expectation) (σ σ' : Supply) (f : Fragment),
    s.lower e want σ = .ok f σ' ↔ Lowers s e want σ f σ'

theorem storeElements_eq_ok_iff {s : Scope} {es : List Expr} (h : ∀ e ∈ es, Derivable s e)
    {array : Temp} {element : Ty} {i : Nat} {σ σ' : Supply} {code : List Instr} :
    storeElements (.temp array) element i (es.map s.pending) σ = .ok code σ' ↔
      Stores s array element i es σ code σ' := by
  induction es generalizing i σ code with
  | nil =>
    simp only [List.map_nil, storeElements, Lower.pure_eq_ok]
    constructor
    · rintro ⟨rfl, rfl⟩
      exact .nil
    · intro hs
      cases hs
      exact ⟨rfl, rfl⟩
  | cons e es ih =>
    have he := h e (by simp)
    have hes : ∀ e' ∈ es, Derivable s e' := fun e' h' => h e' (by simp [h'])
    simp only [List.map_cons, storeElements, Lower.bind_eq_ok, Lower.pure_eq_ok]
    constructor
    · rintro ⟨f, σ₁, hf, rest, σ₂, hr, rfl, rfl⟩
      exact .cons ((he _ _ _ _).1 hf) ((ih hes).1 hr)
    · intro hs
      cases hs with
      | cons hf hr => exact ⟨_, _, (he _ _ _ _).2 hf, _, _, (ih hes).2 hr, rfl, rfl⟩

theorem packArray_eq_ok_iff {s : Scope} {es : List Expr} (h : ∀ e ∈ es, Derivable s e)
    {element : Ty} {σ σ' : Supply} {f : Fragment} :
    packArray element (es.map s.pending) σ = .ok f σ' ↔ Packs s element es σ f σ' := by
  unfold packArray
  simp only [List.length_map]
  by_cases hlen : es.length ≥ 2147483648
  · simp only [hlen, if_true, Lower.bind_eq_ok, Lower.throw_ne_ok, false_and, exists_false,
      false_iff]
    intro hp
    cases hp with
    | mk hlt _ => omega
  · simp only [hlen, if_false, Lower.bind_eq_ok, Lower.pure_eq_ok, freshTemp_eq_ok]
    constructor
    · rintro ⟨array, σ₁, ⟨rfl, rfl⟩, stores, σ₂, hs, rfl, rfl⟩
      exact .mk (by omega) ((storeElements_eq_ok_iff h).1 hs)
    · intro hp
      cases hp with
      | mk hlt hs =>
        exact ⟨_, _, ⟨rfl, rfl⟩, _, _, (storeElements_eq_ok_iff h).2 hs, rfl, rfl⟩

theorem lowerAll_eq_ok_iff {s : Scope} {es : List (Expr × Expectation)}
    (h : ∀ e ∈ es, Derivable s e.1) {σ σ' : Supply} {fs : List Fragment} :
    Pending.lowerAll (es.map fun e => (s.pending e.1, e.2)) σ = .ok fs σ' ↔
      LowersArgs s (es.map fun e => .direct e.1 e.2) σ fs σ' := by
  induction es generalizing σ fs with
  | nil =>
    simp only [List.map_nil, Pending.lowerAll, Lower.pure_eq_ok]
    constructor
    · rintro ⟨rfl, rfl⟩
      exact .nil
    · intro hs
      cases hs
      exact ⟨rfl, rfl⟩
  | cons e es ih =>
    have he := h e (by simp)
    have hes : ∀ e' ∈ es, Derivable s e'.1 := fun e' h' => h e' (by simp [h'])
    simp only [List.map_cons, Pending.lowerAll, Lower.bind_eq_ok, Lower.pure_eq_ok]
    constructor
    · rintro ⟨f, σ₁, hf, rest, σ₂, hr, rfl, rfl⟩
      exact .direct ((he _ _ _ _).1 hf) ((ih hes).1 hr)
    · intro hs
      cases hs with
      | direct hf hr => exact ⟨_, _, (he _ _ _ _).2 hf, _, _, (ih hes).2 hr, rfl, rfl⟩

theorem lowersArgs_append_iff {s : Scope} {ps qs : List Passed} {σ σ' : Supply}
    {fs : List Fragment} :
    LowersArgs s (ps ++ qs) σ fs σ' ↔
      ∃ fs₁ fs₂ σ₁, LowersArgs s ps σ fs₁ σ₁ ∧ LowersArgs s qs σ₁ fs₂ σ' ∧ fs = fs₁ ++ fs₂ := by
  induction ps generalizing σ fs with
  | nil =>
    constructor
    · intro h
      exact ⟨[], fs, σ, .nil, h, rfl⟩
    · rintro ⟨fs₁, fs₂, σ₁, h₁, h₂, rfl⟩
      cases h₁
      exact h₂
  | cons p ps ih =>
    constructor
    · intro h
      cases h with
      | direct he hs =>
        obtain ⟨fs₁, fs₂, σ₁, h₁, h₂, rfl⟩ := ih.1 hs
        exact ⟨_, _, _, .direct he h₁, h₂, rfl⟩
      | packed hp hs =>
        obtain ⟨fs₁, fs₂, σ₁, h₁, h₂, rfl⟩ := ih.1 hs
        exact ⟨_, _, _, .packed hp h₁, h₂, rfl⟩
    · rintro ⟨fs₁, fs₂, σ₁, h₁, h₂, rfl⟩
      cases h₁ with
      | direct he hs => exact .direct he (ih.2 ⟨_, _, _, hs, h₂, rfl⟩)
      | packed hp hs => exact .packed hp (ih.2 ⟨_, _, _, hs, h₂, rfl⟩)

theorem lowersArgs_single_iff {s : Scope} {p : Passed} {σ σ' : Supply} {fs : List Fragment} :
    LowersArgs s [p] σ fs σ' ↔ ∃ f, fs = [f] ∧
      match p with
      | .direct e want => Lowers s e want σ f σ'
      | .packed element values => Packs s element values σ f σ' := by
  constructor
  · intro h
    cases h with
    | direct he hs => cases hs; exact ⟨_, rfl, he⟩
    | packed hp hs => cases hs; exact ⟨_, rfl, hp⟩
  · rintro ⟨f, rfl, h⟩
    cases p with
    | direct e want => exact .direct h .nil
    | packed element values => exact .packed h .nil

theorem exists_lower_append_iff {A : List Fragment → Supply → Prop} {x : Lower Fragment}
    {D : Supply → Fragment → Prop} {σ' : Supply} {fs : List Fragment}
    (hx : ∀ σ₁ f, x σ₁ = .ok f σ' ↔ D σ₁ f) :
    (∃ fixed σ₁, A fixed σ₁ ∧ (x >>= fun last => pure (fixed ++ [last])) σ₁ = .ok fs σ') ↔
      ∃ fs₁ fs₂ σ₁, A fs₁ σ₁ ∧ (∃ f, fs₂ = [f] ∧ D σ₁ f) ∧ fs = fs₁ ++ fs₂ := by
  simp only [Lower.bind_eq_ok, Lower.pure_eq_ok]
  constructor
  · rintro ⟨fixed, σ₁, hA, f, _, hf, rfl, rfl⟩
    exact ⟨_, _, _, hA, ⟨f, rfl, (hx _ _).1 hf⟩, rfl⟩
  · rintro ⟨fixed, _, σ₁, hA, ⟨f, rfl, hf⟩, rfl⟩
    exact ⟨_, _, hA, f, σ', (hx _ _).2 hf, rfl, rfl⟩

def fixedArgs (m : Signature) (as : List Expr) : List (Expr × Expectation) :=
  ((as.zip m.params).map fun (a, p) => (a, Expectation.of p.ty.asValue)).take m.fixedArity

theorem pending_fixedArgs (s : Scope) (m : Signature) (as : List Expr) :
    (((as.map s.pending).zip m.params).map
      (fun (a, p) => (a, Expectation.of p.ty.asValue))).take m.fixedArity =
      (fixedArgs m as).map fun e => (s.pending e.1, e.2) := by
  simp [fixedArgs, List.zip_map_left, List.map_take, Function.comp_def]

theorem direct_fixedArgs (m : Signature) (as : List Expr) :
    ((as.zip m.params).take m.fixedArity).map (fun (a, p) => Passed.direct a (.of p.ty.asValue)) =
      (fixedArgs m as).map fun e => .direct e.1 e.2 := by
  simp [fixedArgs, List.map_take, Function.comp_def]

theorem lowerDeclaredArgs_eq_ok_iff {s : Scope} {as : List Expr} (h : ∀ e ∈ as, Derivable s e)
    {m : Signature} {σ σ' : Supply} {fs : List Fragment} :
    s.lowerDeclaredArgs m (as.map s.pending) σ = .ok fs σ' ↔
      LowersArgs s (s.passed (some m) as) σ fs σ' := by
  have hd : ∀ e ∈ fixedArgs m as, Derivable s e.1 := by
    intro e he
    obtain ⟨⟨a, p⟩, hap, rfl⟩ := List.mem_map.1 (List.mem_of_mem_take he)
    exact h a (List.of_mem_zip hap).1
  have ht : ∀ e ∈ as.drop m.fixedArity, Derivable s e := fun e he => h e (List.mem_of_mem_drop he)
  unfold lowerDeclaredArgs passed
  simp only [pending_fixedArgs, direct_fixedArgs, Lower.bind_eq_ok, lowersArgs_append_iff,
    lowerAll_eq_ok_iff hd]
  cases m.vararg? with
  | none =>
    simp only [Lower.pure_eq_ok, Option.toList_none, List.map_nil]
    constructor
    · rintro ⟨fixed, σ₁, hf, rfl, rfl⟩
      exact ⟨_, [], _, hf, .nil, by simp⟩
    · rintro ⟨fs₁, fs₂, σ₁, hf, hn, rfl⟩
      cases hn
      exact ⟨_, _, hf, by simp⟩
  | some v =>
    simp only [← List.map_drop, List.map_map, Function.comp_def, pending, Option.toList_some,
      List.map_cons, List.map_nil, lowersArgs_single_iff, passedLast]
    generalize as.drop m.fixedArity = trailing at ht
    have hpack : ∀ σ₁ f, packArray v.ty.element (trailing.map s.pending) σ₁ = .ok f σ' ↔
        Packs s v.ty.element trailing σ₁ f σ' := fun σ₁ f => packArray_eq_ok_iff ht
    cases trailing with
    | nil => exact exists_lower_append_iff hpack
    | cons e es =>
      cases VarargPassing.of ((e :: es).map s.typeHint) v.ty.element with
      | array => exact exists_lower_append_iff fun σ₁ f => ht e (by simp) (.value v.ty.asValue) σ₁ σ' f
      | pack => exact exists_lower_append_iff hpack

theorem bindArguments_eq_ok_iff {s : Scope} {as : List Expr} (h : ∀ e ∈ as, Derivable s e)
    {callee : Option Signature} {m : String} {p : Span} {want : Expectation} {σ σ' : Supply}
    {bound : BoundCall} :
    s.bindArguments callee m (as.map s.pending) p want σ = .ok bound σ' ↔
      ∃ fs σ₁, LowersArgs s (s.passed callee as) σ fs σ₁ ∧ .of callee want fs = bound ∧
        σ₁.settle callee want m p = σ' := by
  cases callee with
  | some c =>
    simp only [bindArguments, Lower.bind_eq_ok, Lower.pure_eq_ok, lowerDeclaredArgs_eq_ok_iff h,
      BoundCall.of, Supply.settle]
  | none =>
    have hforeign : (as.map s.pending).map (fun a => (a, Expectation.of (s.typeHint a.expr))) =
        (as.map fun a => (a, Expectation.of (s.typeHint a))).map fun e => (s.pending e.1, e.2) := by
      simp [pending, Function.comp_def]
    have hpassed : s.passed none as =
        (as.map fun a => (a, Expectation.of (s.typeHint a))).map fun e => .direct e.1 e.2 := by
      simp [passed, Function.comp_def]
    have hd : ∀ e ∈ as.map fun a => (a, Expectation.of (s.typeHint a)), Derivable s e.1 := by
      intro e he
      obtain ⟨a, ha, rfl⟩ := List.mem_map.1 he
      exact h a ha
    simp only [bindArguments, hforeign, hpassed, Lower.bind_eq_ok, Lower.pure_eq_ok,
      lowerAll_eq_ok_iff hd]
    cases want with
    | discard | value =>
      simp only [foreignResult, Lower.pure_eq_ok, BoundCall.of, Supply.settle,
        Expectation.foreignTy]
      grind
    | unknown =>
      simp only [foreignResult, Lower.bind_eq_ok, note, Lower.pure_eq_ok, BoundCall.of,
        Supply.settle, Expectation.foreignTy, EStateM.Result.ok.injEq]
      grind

theorem resultTemp_eq_ok_iff {want : Expectation} {ret : Ty} {σ σ' : Supply} {d : Option Temp} :
    resultTemp want ret σ = .ok d σ' ↔ want.dest ret σ = d ∧ σ.takeDest want ret = σ' := by
  unfold resultTemp Expectation.dest Supply.takeDest
  split
  · exact Lower.pure_eq_ok
  · simp only [Lower.bind_eq_ok, freshTemp_eq_ok, Lower.pure_eq_ok]
    grind

theorem ownerOf_eq_ok_iff {s : Scope} {t : Ty} {m owner : String} {σ σ' : Supply} :
    s.ownerOf t m σ = .ok owner σ' ↔ s.ownerOf t m σ = .ok owner σ ∧ σ' = σ := by
  unfold ownerOf
  split
  · simp [Lower.throw_ne_ok]
  · cases t.kind <;> simp [Lower.pure_eq_ok, Lower.throw_ne_ok, eq_comm (a := σ)]

theorem callSite_eq_ok_iff {s : Scope} {t : Option Expr} (h : ∀ e ∈ t, Derivable s e) {m : String}
    {σ σ' : Supply} {site : CallSite} :
    s.callSite (t.map s.pending) m σ = .ok site σ' ↔ LowersSite s t m σ site σ' := by
  cases t with
  | none =>
    cases hs : s.method.isStatic with
    | true =>
      simp only [callSite, Option.map_none, hs, if_true, Lower.throw_ne_ok, false_iff]
      intro hl
      cases hl with
      | implicit hs' => simp [hs] at hs'
    | false =>
      simp only [callSite, Option.map_none, hs, Bool.false_eq_true, if_false, Lower.pure_eq_ok]
      constructor
      · rintro ⟨rfl, rfl⟩
        exact .implicit hs
      · intro hl
        cases hl
        exact ⟨rfl, rfl⟩
  | some e =>
    have he := h e rfl
    simp only [callSite, Option.map_some]
    cases hi : s.staticReceiver? e with
    | some i =>
      simp only [pending, hi, Lower.pure_eq_ok]
      constructor
      · rintro ⟨rfl, rfl⟩
        exact .static hi
      · intro hl
        cases hl with
        | static hi' =>
          cases hi.symm.trans hi'
          exact ⟨rfl, rfl⟩
        | receiver hn => simp [hi] at hn
    | none =>
      cases hty : s.typeOf e with
      | error err =>
        simp only [pending, hi, hty, Lower.throw_ne_ok, false_iff]
        intro hl
        cases hl with
        | static hi' => simp [hi] at hi'
        | receiver _ hty' => simp [hty] at hty'
      | ok ty =>
        simp only [pending, hi, hty, Lower.bind_eq_ok, Lower.pure_eq_ok]
        constructor
        · rintro ⟨owner, σ₁, ho, f, σ₂, hf, rfl, rfl⟩
          obtain ⟨ho, rfl⟩ := ownerOf_eq_ok_iff.1 ho
          exact .receiver hi hty ho ((he _ _ _ _).1 hf)
        · intro hl
          cases hl with
          | static hi' => simp [hi] at hi'
          | receiver _ hty' ho hf =>
            cases hty.symm.trans hty'
            exact ⟨_, _, ho, _, _, (he _ _ _ _).2 hf, rfl, rfl⟩

theorem lowerCall_eq_ok_iff {s : Scope} {t : Option Expr} {as : List Expr}
    (ht : ∀ e ∈ t, Derivable s e) (has : ∀ e ∈ as, Derivable s e) {m : String} {p : Span}
    {want : Expectation} {σ σ' : Supply} {r : List Instr × Option Operand} :
    s.lowerCall (t.map s.pending) m (as.map s.pending) p want σ = .ok r σ' ↔
      ∃ dest, r.2 = dest.map .temp ∧ LowersCall s t m as p want σ r.1 dest σ' := by
  simp only [lowerCall, Lower.bind_eq_ok, Lower.pure_eq_ok, callSite_eq_ok_iff ht,
    bindArguments_eq_ok_iff has, resultTemp_eq_ok_iff]
  constructor
  · rintro ⟨site, σ₁, hs, bound, σ₂, ⟨fs, σ₃, ha, rfl, rfl⟩, dest, σ₄, ⟨rfl, rfl⟩, rfl, rfl⟩
    refine ⟨_, rfl, ?_⟩
    have hc := LowersCall.mk (p := p) hs ha (rfl : _ = BoundCall.of site.callee want fs)
    simpa only [CallSite.instr, BoundCall.args_of] using hc
  · rintro ⟨dest, hr, hc⟩
    obtain ⟨code, result⟩ := r
    simp only at hr
    subst hr
    cases hc with
    | mk hs ha hb =>
      subst hb
      refine ⟨_, _, hs, _, _, ⟨_, _, ha, rfl, rfl⟩, _, _, ⟨rfl, rfl⟩, ?_, rfl⟩
      simp only [CallSite.instr, BoundCall.args_of]
      rfl

theorem lowerValueCall_eq_ok_iff {s : Scope} {t : Option Expr} {as : List Expr}
    (ht : ∀ e ∈ t, Derivable s e) (has : ∀ e ∈ as, Derivable s e) {m : String} {p : Span}
    {want : Expectation} {σ σ' : Supply} {f : Fragment} :
    (s.lowerCall (t.map s.pending) m (as.map s.pending) p want >>= fun r =>
      match r with
      | (code, result) =>
        match result with
        | some operand => pure { code, operand }
        | none => throw (.voidCall m)) σ = .ok f σ' ↔ Lowers s (.call t m as p) want σ f σ' := by
  simp only [Lower.bind_eq_ok, lowerCall_eq_ok_iff ht has]
  constructor
  · rintro ⟨⟨code, result⟩, σ₁, ⟨dest, rfl, hc⟩, h⟩
    cases dest with
    | none => simp [Lower.throw_ne_ok] at h
    | some d =>
      obtain ⟨rfl, rfl⟩ := Lower.pure_eq_ok.1 h
      exact .call hc
  · intro h
    cases h with
    | @call _ _ _ _ _ _ _ code result hc =>
      exact ⟨(code, some (.temp result)), _, ⟨_, rfl, hc⟩, Lower.pure_eq_ok.2 ⟨rfl, rfl⟩⟩

theorem derivable_name (s : Scope) (n : String) (p : Span) : Derivable s (.name n p) := by
  intro want σ σ' f
  simp only [lower, lowerName]
  constructor
  · intro h
    cases hb : s.lookup n with
    | none => simp [hb, Lower.throw_ne_ok] at h
    | some b =>
      cases b with
      | field sym =>
        simp only [hb, Lower.bind_eq_ok, freshTemp_eq_ok, Lower.pure_eq_ok] at h
        obtain ⟨t, σ₁, ⟨rfl, rfl⟩, rfl, rfl⟩ := h
        exact .field hb
      | localVar sym | param sym =>
        simp only [hb, Lower.pure_eq_ok] at h
        obtain ⟨rfl, rfl⟩ := h
        exact .var hb rfl
  · intro h
    cases h with
    | @var _ _ _ _ b hb hf =>
      cases b with
      | field sym => simp [Binding.isField] at hf
      | localVar sym | param sym => simp [hb, Lower.pure_eq_ok]
    | field hb =>
      simp only [hb, Lower.bind_eq_ok, freshTemp_eq_ok, Lower.pure_eq_ok]
      exact ⟨_, _, ⟨rfl, rfl⟩, rfl, rfl⟩

mutual

theorem derivable (s : Scope) : ∀ e : Expr, Derivable s e
  | .literal v p => by
    intro want σ σ' f
    simp only [lower, Lower.pure_eq_ok]
    constructor
    · rintro ⟨rfl, rfl⟩
      exact .literal
    · intro h
      cases h
      exact ⟨rfl, rfl⟩
  | .name n p => derivable_name s n p
  | .this p => by
    intro want σ σ' f
    cases hs : s.method.isStatic with
    | true =>
      simp only [lower, hs, if_true, Lower.throw_ne_ok, false_iff]
      intro h
      cases h with
      | this hs' => simp [hs] at hs'
    | false =>
      simp only [lower, hs, Bool.false_eq_true, if_false, Lower.pure_eq_ok]
      constructor
      · rintro ⟨rfl, rfl⟩
        exact .this hs
      · intro h
        cases h
        exact ⟨rfl, rfl⟩
  | .binary op l r p => by
    intro want σ σ' f
    simp only [lower, Lower.bind_eq_ok, freshTemp_eq_ok, Lower.pure_eq_ok]
    constructor
    · rintro ⟨lf, σ₁, hl, rf, σ₂, hr, t, σ₃, ⟨rfl, rfl⟩, rfl, rfl⟩
      exact .binary ((derivable s l _ _ _ _).1 hl) ((derivable s r _ _ _ _).1 hr)
    · intro h
      cases h with
      | binary hl hr =>
        exact ⟨_, _, (derivable s l _ _ _ _).2 hl, _, _, (derivable s r _ _ _ _).2 hr, _, _,
          ⟨rfl, rfl⟩, rfl, rfl⟩
  | .unary op e p => by
    intro want σ σ' f
    simp only [lower, Lower.bind_eq_ok, freshTemp_eq_ok, Lower.pure_eq_ok]
    constructor
    · rintro ⟨ef, σ₁, he, t, σ₂, ⟨rfl, rfl⟩, rfl, rfl⟩
      exact .unary ((derivable s e _ _ _ _).1 he)
    · intro h
      cases h with
      | unary he => exact ⟨_, _, (derivable s e _ _ _ _).2 he, _, _, ⟨rfl, rfl⟩, rfl, rfl⟩
  | .paren e => by
    intro want σ σ' f
    simp only [lower]
    constructor
    · intro h
      exact .paren ((derivable s e _ _ _ _).1 h)
    · intro h
      cases h with
      | paren he => exact (derivable s e _ _ _ _).2 he
  | .index a i p => by
    intro want σ σ' f
    simp only [lower, Lower.bind_eq_ok, freshTemp_eq_ok, Lower.pure_eq_ok]
    constructor
    · rintro ⟨af, σ₁, ha, jf, σ₂, hi, t, σ₃, ⟨rfl, rfl⟩, rfl, rfl⟩
      exact .index ((derivable s a _ _ _ _).1 ha) ((derivable s i _ _ _ _).1 hi)
    · intro h
      cases h with
      | index ha hi =>
        exact ⟨_, _, (derivable s a _ _ _ _).2 ha, _, _, (derivable s i _ _ _ _).2 hi, _, _,
          ⟨rfl, rfl⟩, rfl, rfl⟩
  | .length a p => by
    intro want σ σ' f
    simp only [lower, Lower.bind_eq_ok, freshTemp_eq_ok, Lower.pure_eq_ok]
    constructor
    · rintro ⟨af, σ₁, ha, t, σ₂, ⟨rfl, rfl⟩, rfl, rfl⟩
      exact .length ((derivable s a _ _ _ _).1 ha)
    · intro h
      cases h with
      | length ha => exact ⟨_, _, (derivable s a _ _ _ _).2 ha, _, _, ⟨rfl, rfl⟩, rfl, rfl⟩
  | .call none m as p => by
    intro want σ σ' f
    simp only [lower, pendings_eq_map]
    exact lowerValueCall_eq_ok_iff (t := none) (by simp) (derivable_all s as)
  | .call (some t) m as p => by
    intro want σ σ' f
    have ht : ∀ e ∈ some t, Derivable s e := by
      intro e he
      cases he
      exact derivable s t
    simp only [lower, pendings_eq_map]
    exact lowerValueCall_eq_ok_iff ht (derivable_all s as)
  | .newObject c p => by
    intro want σ σ' f
    simp only [lower, Lower.bind_eq_ok, freshTemp_eq_ok, Lower.pure_eq_ok]
    constructor
    · rintro ⟨t, σ₁, ⟨rfl, rfl⟩, rfl, rfl⟩
      exact .newObject
    · intro h
      cases h
      exact ⟨_, _, ⟨rfl, rfl⟩, rfl, rfl⟩
  | .newArray t e p => by
    intro want σ σ' f
    simp only [lower, Lower.bind_eq_ok, freshTemp_eq_ok, Lower.pure_eq_ok]
    constructor
    · rintro ⟨ef, σ₁, he, t, σ₂, ⟨rfl, rfl⟩, rfl, rfl⟩
      exact .newArray ((derivable s e _ _ _ _).1 he)
    · intro h
      cases h with
      | newArray he => exact ⟨_, _, (derivable s e _ _ _ _).2 he, _, _, ⟨rfl, rfl⟩, rfl, rfl⟩
  | .arrayInit es p => by
    intro want σ σ' f
    simp only [lower, pendings_eq_map, packArray_eq_ok_iff (derivable_all s es)]
    constructor
    · intro h
      exact .arrayInit h
    · intro h
      cases h with
      | arrayInit h => exact h

theorem derivable_all (s : Scope) : ∀ es : List Expr, ∀ e ∈ es, Derivable s e
  | [] => by simp
  | e :: es => by
    intro e' h
    cases h with
    | head => exact derivable s e
    | tail _ h => exact derivable_all s es e' h

end

theorem lower_eq_ok_iff {s : Scope} {e : Expr} {want : Expectation} {σ σ' : Supply} {f : Fragment} :
    s.lower e want σ = .ok f σ' ↔ Lowers s e want σ f σ' :=
  derivable s e want σ σ' f

/-! ### Derivations of statements are runs of lowering -/

theorem lowerEffect_of_call {s : Scope} {e : Expr} {t : Option Expr} {m : String} {as : List Expr}
    {p : Span} (h : e.stripParens = .call t m as p) :
    s.lowerEffect e = do
      let r ← s.lowerCall (t.map s.pending) m (as.map s.pending) p .discard
      return r.1 := by
  simp only [lowerEffect, h]

theorem lowerEffect_of_not_call {s : Scope} {e : Expr}
    (h : ∀ t m as p, e.stripParens ≠ .call t m as p) :
    s.lowerEffect e = do
      let f ← s.lower e.stripParens (.of (s.typeHint e.stripParens))
      return f.code := by
  unfold lowerEffect
  split
  · rename_i t m as p he
    exact absurd he (h t m as p)
  · rfl

theorem lowerEffect_eq_ok_iff {s : Scope} {e : Expr} {σ σ' : Supply} {code : List Instr} :
    s.lowerEffect e σ = .ok code σ' ↔ LowersEffect s e σ code σ' := by
  by_cases he : ∃ t m as p, e.stripParens = .call t m as p
  · obtain ⟨t, m, as, p, he⟩ := he
    simp only [lowerEffect_of_call he, Lower.bind_eq_ok, Lower.pure_eq_ok,
      lowerCall_eq_ok_iff (fun e _ => derivable s e) fun e _ => derivable s e]
    constructor
    · rintro ⟨⟨code', result⟩, σ₁, ⟨dest, _, hc⟩, rfl, rfl⟩
      exact .call he hc
    · intro h
      cases h with
      | call he' hc =>
        cases he.symm.trans he'
        exact ⟨(code, _), _, ⟨_, rfl, hc⟩, rfl, rfl⟩
      | value hn => exact absurd he (hn t m as p)
  · have hn : ∀ t m as p, e.stripParens ≠ .call t m as p :=
      fun t m as p h => he ⟨t, m, as, p, h⟩
    simp only [lowerEffect_of_not_call hn, Lower.bind_eq_ok, Lower.pure_eq_ok, lower_eq_ok_iff]
    constructor
    · rintro ⟨f, σ₁, hf, rfl, rfl⟩
      exact .value hn hf
    · intro h
      cases h with
      | call he' _ => exact absurd he' (hn _ _ _ _)
      | value _ hf => exact ⟨_, _, hf, rfl, rfl⟩

theorem lowerAssign_eq_ok_iff {s : Scope} {target value : Expr} {σ σ' : Supply}
    {code : List Instr} :
    s.lowerAssign target value σ = .ok code σ' ↔ LowersAssign s target value σ code σ' := by
  cases target with
  | name n p =>
    simp only [lowerAssign]
    constructor
    · intro h
      cases hb : s.lookup n with
      | none => simp [hb, Lower.throw_ne_ok] at h
      | some b =>
        cases b with
        | field sym =>
          simp only [hb, Lower.bind_eq_ok, Lower.pure_eq_ok, lower_eq_ok_iff] at h
          obtain ⟨v, σ₁, hv, rfl, rfl⟩ := h
          exact .field hb hv
        | localVar sym | param sym =>
          simp only [hb, Lower.bind_eq_ok, Lower.pure_eq_ok, lower_eq_ok_iff] at h
          obtain ⟨v, σ₁, hv, rfl, rfl⟩ := h
          exact .var hb rfl hv
    · intro h
      cases h with
      | @var _ _ _ _ _ b _ hb hf hv =>
        cases b with
        | field sym => simp [Binding.isField] at hf
        | localVar sym | param sym =>
          simp only [hb, Lower.bind_eq_ok, Lower.pure_eq_ok, lower_eq_ok_iff]
          exact ⟨_, _, hv, rfl, rfl⟩
      | field hb hv =>
        simp only [hb, Lower.bind_eq_ok, Lower.pure_eq_ok, lower_eq_ok_iff]
        exact ⟨_, _, hv, rfl, rfl⟩
  | index a i p =>
    simp only [lowerAssign, Lower.bind_eq_ok, Lower.pure_eq_ok, lower_eq_ok_iff]
    constructor
    · rintro ⟨af, σ₁, ha, jf, σ₂, hi, v, σ₃, hv, rfl, rfl⟩
      exact .element ha hi hv
    · intro h
      cases h with
      | element ha hi hv => exact ⟨_, _, ha, _, _, hi, _, _, hv, rfl, rfl⟩
  | _ =>
    simp only [lowerAssign, Lower.throw_ne_ok, false_iff]
    intro h
    cases h

mutual

theorem lowerStmt_eq_ok_iff {s : Scope} : ∀ {t : Stmt} {σ σ' : Supply} {code : List Instr},
    s.lowerStmt t σ = .ok code σ' ↔ LowersStmt s t σ code σ'
  | .block b p, σ, σ', code => by
    simp only [lowerStmt, lowerBody_eq_ok_iff]
    constructor
    · intro h
      exact .block h
    · intro h
      cases h with
      | block h => exact h
  | .cond c t none p, σ, σ', code => by
    simp only [lowerStmt, Lower.bind_eq_ok, Lower.pure_eq_ok, freshLabel_eq_ok, lower_eq_ok_iff,
      lowerStmt_eq_ok_iff]
    constructor
    · rintro ⟨n, σ₁, ⟨rfl, rfl⟩, cf, σ₂, hc, tc, σ₃, ht, rfl, rfl⟩
      exact .condThen hc ht
    · intro h
      cases h with
      | condThen hc ht => exact ⟨_, _, ⟨rfl, rfl⟩, _, _, hc, _, _, ht, rfl, rfl⟩
  | .cond c t (some e) p, σ, σ', code => by
    simp only [lowerStmt, Lower.bind_eq_ok, Lower.pure_eq_ok, freshLabel_eq_ok, lower_eq_ok_iff,
      lowerStmt_eq_ok_iff]
    constructor
    · rintro ⟨n, σ₁, ⟨rfl, rfl⟩, cf, σ₂, hc, ec, σ₃, he, tc, σ₄, ht, rfl, rfl⟩
      exact .condElse hc he ht
    · intro h
      cases h with
      | condElse hc he ht => exact ⟨_, _, ⟨rfl, rfl⟩, _, _, hc, _, _, he, _, _, ht, rfl, rfl⟩
  | .loop c b p, σ, σ', code => by
    simp only [lowerStmt, Lower.bind_eq_ok, Lower.pure_eq_ok, freshLabel_eq_ok, lower_eq_ok_iff,
      lowerStmt_eq_ok_iff]
    constructor
    · rintro ⟨n, σ₁, ⟨rfl, rfl⟩, cf, σ₂, hc, bc, σ₃, hb, rfl, rfl⟩
      exact .loop hc hb
    · intro h
      cases h with
      | loop hc hb => exact ⟨_, _, ⟨rfl, rfl⟩, _, _, hc, _, _, hb, rfl, rfl⟩
  | .expr e p, σ, σ', code => by
    simp only [lowerStmt, lowerEffect_eq_ok_iff]
    constructor
    · intro h
      exact .expr h
    · intro h
      cases h with
      | expr h => exact h
  | .assign target value p, σ, σ', code => by
    simp only [lowerStmt, lowerAssign_eq_ok_iff]
    constructor
    · intro h
      exact .assign h
    · intro h
      cases h with
      | assign h => exact h
  | .ret none p, σ, σ', code => by
    simp only [lowerStmt, lowerReturn, Lower.pure_eq_ok]
    constructor
    · rintro ⟨rfl, rfl⟩
      exact .retNone
    · intro h
      cases h
      exact ⟨rfl, rfl⟩
  | .ret (some e) p, σ, σ', code => by
    simp only [lowerStmt, lowerReturn, Lower.bind_eq_ok, Lower.pure_eq_ok, lower_eq_ok_iff]
    constructor
    · rintro ⟨v, σ₁, hv, rfl, rfl⟩
      exact .retSome hv
    · intro h
      cases h with
      | retSome hv => exact ⟨_, _, hv, rfl, rfl⟩

theorem lowerBody_eq_ok_iff {s : Scope} : ∀ {ts : List Stmt} {σ σ' : Supply} {code : List Instr},
    s.lowerBody ts σ = .ok code σ' ↔ LowersBody s ts σ code σ'
  | [], σ, σ', code => by
    simp only [lowerBody, Lower.pure_eq_ok]
    constructor
    · rintro ⟨rfl, rfl⟩
      exact .nil
    · intro h
      cases h
      exact ⟨rfl, rfl⟩
  | t :: ts, σ, σ', code => by
    simp only [lowerBody, Lower.bind_eq_ok, Lower.pure_eq_ok, lowerStmt_eq_ok_iff,
      lowerBody_eq_ok_iff]
    constructor
    · rintro ⟨c, σ₁, ht, rest, σ₂, hs, rfl, rfl⟩
      exact .cons ht hs
    · intro h
      cases h with
      | cons ht hs => exact ⟨_, _, ht, _, _, hs, rfl, rfl⟩

end

def methodCode (s : Scope) (body : List Instr) : MethodCode where
  name := s.method.name
  isStatic := s.method.isStatic
  params := s.method.params
  locals := s.method.locals
  returnTy := s.method.returnTy
  instrs := body ++ closing s.method.returnTy.asValue body
  labels := .ofInstrs (body ++ closing s.method.returnTy.asValue body)

theorem lowerMethod_eq_ok_iff {s : Scope} {d : MethodDecl} {σ σ' : Supply} {m : MethodCode} :
    s.lowerMethod d σ = .ok m σ' ↔ ∃ body, LowersBody s d.body σ body σ' ∧ s.methodCode body = m := by
  simp only [lowerMethod, Lower.bind_eq_ok, Lower.pure_eq_ok, lowerBody_eq_ok_iff]
  constructor
  · intro h
    obtain ⟨body, σ₁, hb, rfl, rfl⟩ := h
    exact ⟨body, hb, rfl⟩
  · intro h
    obtain ⟨body, hb, rfl⟩ := h
    exact ⟨body, _, hb, rfl, rfl⟩

end Scope

namespace Symbols

inductive LowersMethods (S : Symbols) :
    List (MethodDecl × Signature) → Supply → List MethodCode → Supply → Prop
  | nil {σ : Supply} : LowersMethods S [] σ [] σ
  | cons {d : MethodDecl} {sig : Signature} {ds : List (MethodDecl × Signature)}
      {σ σ₁ σ₂ : Supply} {body : List Instr} {ms : List MethodCode}
      (hd : Scope.LowersBody ⟨S, sig⟩ d.body σ body σ₁) (hs : LowersMethods S ds σ₁ ms σ₂) :
      LowersMethods S ((d, sig) :: ds) σ (Scope.methodCode ⟨S, sig⟩ body :: ms) σ₂

theorem lowerMethods_eq_ok_iff {S : Symbols} {ds : List (MethodDecl × Signature)} {σ σ' : Supply}
    {ms : List MethodCode} :
    S.lowerMethods ds σ = .ok ms σ' ↔ LowersMethods S ds σ ms σ' := by
  induction ds generalizing σ ms with
  | nil =>
    simp only [lowerMethods, Lower.pure_eq_ok]
    constructor
    · intro h
      obtain ⟨rfl, rfl⟩ := h
      exact .nil
    · intro h
      cases h
      exact ⟨rfl, rfl⟩
  | cons d ds ih =>
    obtain ⟨d, sig⟩ := d
    simp only [lowerMethods, Lower.bind_eq_ok, Lower.pure_eq_ok, Scope.lowerMethod_eq_ok_iff]
    constructor
    · intro h
      obtain ⟨m, σ₁, ⟨body, hb, rfl⟩, ms', σ₂, hs, rfl, rfl⟩ := h
      exact .cons hb (ih.1 hs)
    · intro h
      cases h with
      | cons hb hs => exact ⟨_, _, ⟨_, hb, rfl⟩, _, _, ih.2 hs, rfl, rfl⟩

def classCode (S : Symbols) (methods : List MethodCode) : ClassCode where
  name := S.className
  superclass := S.superclass
  imports := S.imports
  fields := S.fields
  methods := methods

theorem lower_eq_ok_iff {S : Symbols} {p : Program} {σ σ' : Supply} {code : ClassCode} :
    S.lower p σ = .ok code σ' ↔
      ∃ ms, LowersMethods S (p.paired S) σ ms σ' ∧ S.classCode ms = code := by
  simp only [lower, Lower.bind_eq_ok, Lower.pure_eq_ok, lowerMethods_eq_ok_iff]
  constructor
  · intro h
    obtain ⟨ms, σ₁, hs, rfl, rfl⟩ := h
    exact ⟨ms, hs, rfl⟩
  · intro h
    obtain ⟨ms, hs, rfl⟩ := h
    exact ⟨ms, _, hs, rfl, rfl⟩

end Symbols

end SingleClass
