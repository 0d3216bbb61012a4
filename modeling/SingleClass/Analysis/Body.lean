import SingleClass.Analysis.Checked
set_option autoImplicit false

/-!
Checking of method bodies. Every expression gets a type, and each rule that fails is reported without
stopping the rest. The rules for calls stand apart from the recursion: they see the types of the
receiver and of the arguments.
-/

namespace SingleClass

namespace Signature

def arity (m : Signature) : Arity :=
  if m.vararg?.isSome then .atLeast m.fixedArity else .exactly m.fixedArity

end Signature

structure PlacedTy where
  span : Span
  ty : Ty

namespace Symbols

def checkFixed (s : Symbols) (method : String) : (position : Nat) → List PlacedTy → List Symbol →
    List Diagnostic
  | position, a :: as, p :: ps =>
    (if s.assignable a.ty p.ty.asValue then []
      else [.problem a.span (.argumentMismatch position method p.ty.asValue a.ty)]) ++
      s.checkFixed method (position + 1) as ps
  | _, _, _ => []

/-- Arguments that fall to a vararg: the array itself, or elements one by one. -/
def checkTrailing (s : Symbols) (method : String) (element : Ty) (trailing : List PlacedTy) :
    List Diagnostic :=
  if VarargPassing.of (trailing.map (·.ty)) element = .array then []
  else trailing.filterMap fun a =>
    if s.assignable a.ty element then none
    else some (.problem a.span (.varargMismatch method element a.ty))

/-- The arguments of a call to a declared method. A wrong count is the only finding when there is one. -/
def checkArguments (s : Symbols) (callSpan : Span) (method : String) (callee : Signature)
    (args : List PlacedTy) : List Diagnostic :=
  if callee.arity.admits args.length then
    s.checkFixed method 1 args (callee.params.take callee.fixedArity) ++
      match callee.vararg? with
      | some v => s.checkTrailing method v.ty.element (args.drop callee.fixedArity)
      | none => []
  else [.problem callSpan (.argumentCount method callee.arity args.length)]

/-- A call on this class: the method is declared here, or the superclass may have it. -/
def checkOwnCall (s : Symbols) (callSpan : Span) (method : String) (args : List PlacedTy) :
    Checked Ty :=
  match s.method? method with
  | some callee => do
    Checked.reportAll (s.checkArguments callSpan method callee args)
    return callee.returnTy
  | none =>
    if s.superclass.isSome then pure .external
    else do
      Checked.report callSpan (.undefinedMethod method)
      return .indeterminate

/-- A call on a receiver. A receiver declared elsewhere is taken on trust, but its class has to be
named by its type, which the open type and arrays do not do. -/
def checkCallOn (s : Symbols) (callSpan : Span) (method : String) (receiver : Ty)
    (args : List PlacedTy) : Checked Ty :=
  if receiver.isEscape || s.isExternal receiver then do
    if (receiver.isArray || receiver.kind = .external) && receiver.kind ≠ .indeterminate then
      Checked.report callSpan (.unknownReceiverClass method)
    return .external
  else if receiver.isArray || receiver.kind ≠ .named s.className then do
    Checked.report callSpan (.invalidReceiver receiver)
    return .indeterminate
  else s.checkOwnCall callSpan method args

end Symbols

namespace Scope

def checkName (s : Scope) (name : String) (span : Span) : Checked Ty :=
  match s.lookup name with
  | some (.field f) =>
    if s.method.isStatic then do
      Checked.report span (.fieldInStatic f.name s.method.name)
      return .indeterminate
    else Checked.ofRule span (s.nameTy name)
  | _ => Checked.ofRule span (s.nameTy name)

mutual

def check (s : Scope) : Expr → Checked Ty
  | .literal v _ => pure v.ty
  | .name n span => s.checkName n span
  | .this span => Checked.ofRule span s.thisTy
  | .binary op l r span => do
    let lt ← (s.check l).asValue l
    let rt ← (s.check r).asValue r
    Checked.ofRule span (Typing.binary op lt rt)
  | .unary op e span => do
    let t ← (s.check e).asValue e
    Checked.ofRule span (Typing.unary op t)
  | .paren e => s.check e
  | .index a i _ => do
    let array ← (s.check a).asValue a
    let position ← (s.check i).asValue i
    if !(position.isInt || position.isEscape) then Checked.report i.span (.indexNotInt position)
    Checked.ofRule a.span (Typing.element array)
  | .length a _ => do
    let t ← (s.check a).asValue a
    Checked.ofRule a.span (Typing.length t)
  | .call none m as span =>
    if s.method.isStatic then do
      Checked.report span (.typing (.thisInStatic s.method.name))
      let _ ← s.checkValues as
      return .indeterminate
    else do
      let args ← s.checkValues as
      s.symbols.checkOwnCall span m args
  | .call (some target) m as span =>
    if (s.staticReceiver? target).isSome then do
      let _ ← s.checkValues as
      return .external
    else do
      let receiver ← (s.check target).asValue target
      let args ← s.checkValues as
      s.symbols.checkCallOn span m receiver args
  | .newObject c span => do
    if !s.symbols.isKnown (.named c) then Checked.report span (.unknownType c)
    return .named c
  | .newArray t e span => do
    let size ← (s.check e).asValue e
    if !(size.isInt || size.isEscape) then Checked.report e.span (.sizeNotInt size)
    if !s.symbols.isKnown (Typing.newArray t) then Checked.report span (.unknownType t.name)
    return Typing.newArray t
  | .arrayInit es span => do
    let elements ← s.checkValues es
    Checked.ofRule span (Typing.arrayInit (elements.map (·.ty)))

def checkValues (s : Scope) : List Expr → Checked (List PlacedTy)
  | [] => pure []
  | e :: es => do
    let ty ← (s.check e).asValue e
    let rest ← s.checkValues es
    return { span := e.span, ty } :: rest

end

def checkValue (s : Scope) (e : Expr) : Checked Ty := (s.check e).asValue e

def checkCondition (s : Scope) (e : Expr) : Checked Unit := do
  let t ← s.checkValue e
  if !(t.isBoolean || t.isEscape) then Checked.report e.span (.condition t)

/-- The type of an assignment's target. Only a variable or an array element can be assigned. -/
def checkTarget (s : Scope) (target : Expr) : Checked Ty :=
  let refuse (p : Problem) : Checked Ty := do
    Checked.report target.span p
    return .indeterminate
  match target with
  | .name n _ =>
    match s.lookup n with
    | some b =>
      if b.isField && s.method.isStatic then
        refuse (.fieldAssignInStatic b.symbol.name s.method.name)
      else pure b.symbol.ty.asValue
    | none =>
      if s.symbols.isImported n then refuse .assignTarget else refuse (.typing (.unresolvable n))
  | .index .. => s.checkValue target
  | _ => refuse .assignTarget

def checkReturn (s : Scope) (value : Option Expr) (span : Span) : Checked Unit :=
  match value with
  | none =>
    if s.method.returnTy.isVoid then pure ()
    else Checked.report span (.missingReturnValue s.method.name)
  | some e =>
    if s.method.returnTy.isVoid then do
      let _ ← s.check e
      Checked.report span (.voidReturnValue s.method.name)
    else do
      let found ← s.checkValue e
      if !s.symbols.assignable found s.method.returnTy then
        Checked.report span (.returnMismatch s.method.returnTy found s.method.name)

mutual

def checkStmt (s : Scope) : Stmt → Checked Unit
  | .block b _ => s.checkBody b
  | .cond c t none _ => do
    s.checkCondition c
    s.checkStmt t
  | .cond c t (some e) _ => do
    s.checkCondition c
    s.checkStmt t
    s.checkStmt e
  | .loop c b _ => do
    s.checkCondition c
    s.checkStmt b
  | .expr e _ => do
    let _ ← s.check e
    return ()
  | .assign target value span => do
    let tt ← s.checkTarget target
    let vt ← s.checkValue value
    if !s.symbols.assignable vt tt then Checked.report span (.assignMismatch vt tt)
  | .ret v span => s.checkReturn v span

def checkBody (s : Scope) : List Stmt → Checked Unit
  | [] => pure ()
  | t :: ts => do
    s.checkStmt t
    s.checkBody ts

end

end Scope

end SingleClass
