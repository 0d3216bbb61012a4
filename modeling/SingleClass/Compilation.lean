import SingleClass.Analysis.Program
import SingleClass.Assembly.Class
import SingleClass.Constant.Fixpoint
import SingleClass.Lowering.Program
import SingleClass.Text
set_option autoImplicit false

/-!
Compilation of a program: analysis, optimisation if asked for, lowering and assembly. The options of a
compilation are read from pairs of texts.

Diagnostics do not stop the work. When it cannot be completed, a program with diagnostics has them as
its only result, and for a program without any the failure itself is the result.
-/

namespace SingleClass

inductive LogLevel where
  | trace | debug | warn
  deriving DecidableEq

/-- A remark of the compiler on its own work. -/
structure LogEntry where
  level : LogLevel
  text : String
  deriving DecidableEq

def LogEntry.trace (text : String) : LogEntry := { level := .trace, text }
def LogEntry.debug (text : String) : LogEntry := { level := .debug, text }
def LogEntry.warn (text : String) : LogEntry := { level := .warn, text }

structure Options where
  optimize : Bool := false
  deriving DecidableEq

namespace Options

def flag (key value : String) : Except Failure Bool :=
  let v := trimmed value
  if v = "true" then .ok true else if v = "false" then .ok false else .error (.badFlag key v)

/-- Reads pairs in order: a later pair wins over an earlier one, and keys that are not options are
passed over. -/
def readPairs : Options → List (String × String) → Except Failure Options
  | o, [] => .ok o
  | o, (key, value) :: rest =>
    if key = "optimize" then do
      let b ← flag key value
      readPairs { o with optimize := b } rest
    else readPairs o rest

def ofPairs (pairs : List (String × String)) : Except Failure Options := readPairs {} pairs

/-- Warnings on the keys that are passed over, up to the first value that cannot be read. -/
def warnings : List (String × String) → List LogEntry
  | [] => []
  | (key, value) :: rest =>
    if key = "optimize" then
      match flag key value with
      | .ok _ => warnings rest
      | .error _ => []
    else .warn ("ignoring unknown option '" ++ key ++ "'") :: warnings rest

end Options

structure Compiled where
  diagnostics : List Diagnostic
  assembly : Option String

def Compiled.isSuccess (c : Compiled) : Bool := c.diagnostics.isEmpty && c.assembly.isSome

namespace Program

def prepared (p : Program) (o : Options) : Program :=
  if o.optimize then p.optimize.program else p

def lowered (p : Program) (o : Options) : EStateM.Result Failure Supply ClassCode :=
  (Symbols.ofProgram p).lower (p.prepared o) {}

def assembled (p : Program) (o : Options) : Except Failure ClassAssembly × List Diagnostic :=
  match p.lowered o with
  | .ok code s => (code.assemble, s.notes)
  | .error e s => (.error e, s.notes)

def compile (p : Program) (o : Options) : Except Failure Compiled :=
  let (result, notes) := p.assembled o
  let diagnostics := p.analyze.diagnostics ++ notes
  match result with
  | .ok a => .ok { diagnostics, assembly := some a.text }
  | .error e => if diagnostics.isEmpty then .error e else .ok { diagnostics, assembly := none }

end Program

end SingleClass
