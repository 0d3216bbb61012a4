import SingleClass.Compilation
set_option autoImplicit false

/-!
The log of a compilation, told from the results of its parts: what each part began with, what it found
on the way and what it ended with. A part that fails is told up to the failure.
-/

namespace SingleClass

def Diagnostic.logFound (d : Diagnostic) : LogEntry := .trace ("diagnostic: " ++ d.message)

def optionText : Option String → String
  | some s => "Some(" ++ quoted s ++ ")"
  | none => "None"

namespace Symbols

def log (s : Symbols) : LogEntry :=
  .debug ("enter: class=" ++ s.className ++ " super=" ++ optionText s.superclass ++
    " imports=" ++ toString s.imports.length ++ " fields=" ++ toString s.fields.length ++
    " methods=" ++ toString s.methods.length)

def logLowering (s : Symbols) (count : Nat) :
    List (MethodDecl × Signature) → Supply → List LogEntry
  | [], supply =>
    [.debug ("lower: class=" ++ s.className ++ " methods=" ++ toString count ++
      " temps=" ++ toString supply.temps ++ " labels=" ++ toString supply.labels)]
  | (d, m) :: rest, supply =>
    let noted (after : Supply) : List LogEntry :=
      (after.notes.drop supply.notes.length).map fun n => .debug ("lowering diagnostic: " ++ n.message)
    match Scope.lowerMethod { symbols := s, method := m } d supply with
    | .error _ after => noted after
    | .ok code after =>
      noted after ++ .trace ("lower " ++ m.name ++ ": instrs=" ++ toString code.instrs.length ++
        " labels=" ++ toString code.labels.length) :: s.logLowering count rest after

end Symbols

def logRounds (name : String) : (n : Nat) → List Round → List LogEntry
  | n, [] => [.debug ("optimize " ++ name ++ ": fixpoint after " ++ toString (n - 1) ++ " rounds")]
  | n, r :: rs =>
    .trace ("optimize " ++ name ++ ": round " ++ toString n ++ " propagated=" ++
      toString r.propagated ++ " folded=" ++ toString r.folded) :: logRounds name (n + 1) rs

def Optimized.log (o : Optimized) : List LogEntry :=
  o.rounds.flatMap fun (name, rounds) => logRounds name 1 rounds

namespace ClassCode

def logMethod (c : ClassCode) (m : MethodCode) : List LogEntry :=
  match c.frame m with
  | .error _ => []
  | .ok f =>
    .trace ("registers for " ++ m.name ++ ": " ++ toString f.registers.next) ::
      match c.methodType m.paramTys m.returnTy with
      | .error _ => []
      | .ok _ =>
        (if f.registers.next > methodLimit then
          [.warn ("method " ++ m.name ++ " needs " ++ toString f.registers.next ++
            " registers, more than .limit locals")]
          else []) ++
          match f.selectAll 0 m.instrs with
          | .error _ => []
          | .ok blocks =>
            [.trace ("method " ++ m.name ++ ": " ++ toString blocks.flatten.length ++ " lines")]

def logMethods (c : ClassCode) : List MethodCode → List LogEntry
  | [] => []
  | m :: ms =>
    c.logMethod m ++
      match c.assembleMethod m with
      | .error _ => []
      | .ok _ => c.logMethods ms

def logAssembly (c : ClassCode) : List LogEntry :=
  match c.assembleFields c.fields with
  | .error _ => []
  | .ok _ =>
    c.logMethods c.methods ++
      match c.assemble with
      | .error _ => []
      | .ok a =>
        [.debug ("codegen: class=" ++ c.name ++ " methods=" ++ toString c.methods.length ++
          " bytes=" ++ toString a.text.utf8ByteSize)]

end ClassCode

namespace Program

def logAnalysis (p : Program) : List LogEntry :=
  let a := p.analyze
  let bodies := (a.symbols.methods.zip a.bodies).flatMap fun (m, found) =>
    .trace ("attr: method " ++ m.name) :: found.map (·.logFound)
  .debug ("analysis start: class=" ++ p.classDecl.name ++ " imports=" ++ toString p.imports.length ++
    " methods=" ++ toString p.classDecl.methods.length) ::
    p.classDecl.methods.map (fun m => .trace ("enter: method " ++ m.text)) ++
    a.symbols.log :: a.declarations.map (·.logFound) ++ bodies ++ a.returns.map (·.logFound) ++
    [.debug ("analysis end: diagnostics=" ++ toString a.diagnostics.length)]

def logOptimization (p : Program) (o : Options) : List LogEntry :=
  if o.optimize then
    let optimized := p.optimize
    optimized.log ++ [.debug ("compile: optimizer rounds=" ++ toString optimized.roundCount)]
  else []

def logEmission (p : Program) (o : Options) : List LogEntry :=
  let s := Symbols.ofProgram p
  let methods := (p.prepared o).paired s
  s.logLowering methods.length methods {} ++
    match p.lowered o with
    | .ok code _ => code.logAssembly
    | .error .. => []

def logResult (p : Program) (o : Options) : List LogEntry :=
  match p.compile o with
  | .error _ => []
  | .ok c =>
    (match (p.assembled o).1 with
      | .error e => [.debug ("compile: no bytecode for a program with diagnostics: " ++ e.message)]
      | .ok _ => []) ++
      [.debug ("compile: done diagnostics=" ++ toString c.diagnostics.length ++
        " bytecode=" ++ boolText c.assembly.isSome)]

/-- The log of `compile`. -/
def log (p : Program) (o : Options) : List LogEntry :=
  .debug ("compile: class=" ++ p.classDecl.name ++ " optimize=" ++ boolText o.optimize) ::
    p.logAnalysis ++
    .debug ("compile: semantic diagnostics=" ++ toString p.analyze.diagnostics.length) ::
    p.logOptimization o ++ p.logEmission o ++ p.logResult o

/-- The log of a compilation whose options are given as pairs: that of reading the pairs comes first. -/
def logOfPairs (p : Program) (pairs : List (String × String)) : List LogEntry :=
  Options.warnings pairs ++
    match Options.ofPairs pairs with
    | .ok o => p.log o
    | .error _ => []

end Program

end SingleClass
