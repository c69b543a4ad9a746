/-!
Arguments of the command line: options and a command with options of its own. An option that is asked
for twice, is unknown, or lacks its value makes the arguments unusable.
-/

namespace DeviceModel

/-- Where an export goes, and what it uses. -/
structure OutputOptions where
  directory : String
  templates : Option String
  products : Option String
  deriving DecidableEq, Repr

inductive Command
  | import (project smdx : String)
  | export (project : String) (output : OutputOptions)
  | validate (project : String)
  | build (project : String) (output : OutputOptions)
  deriving DecidableEq, Repr

structure Invocation where
  /-- How often more lines in the log were asked for. -/
  verbosity : Nat
  command : Command
  deriving DecidableEq, Repr

/-- The least important lines that the log shows. -/
def Invocation.filter (i : Invocation) : String :=
  match i.verbosity with
  | 0 => "info"
  | 1 => "debug"
  | _ => "trace"

namespace Arguments

/-- How often `-v` and its like ask for more lines. -/
def verbosity? (arg : String) : Option Nat :=
  if arg = "--verbose" then some 1
  else
    match arg.toList with
    | '-' :: c :: cs => if c = 'v' ∧ cs.all (· = 'v') then some (cs.length + 1) else none
    | _ => none

/-- The name of an option, with the value that an equals sign joins to it. -/
def option? (arg : String) : Option (String × Option String) :=
  match arg.toList with
  | '-' :: '-' :: cs =>
    let name := String.ofList (cs.takeWhile (· ≠ '='))
    match cs.dropWhile (· ≠ '=') with
    | _ :: value => some (name, some (String.ofList value))
    | [] => some (name, none)
  | _ => none

/-- A value that stands on its own: not empty, and no option. -/
def isValue (s : String) : Bool := s != "" && (s == "-" || !s.startsWith "-")

/-- What the arguments of a command ask for. -/
structure Options where
  verbosity : Nat := 0
  values : List (String × String) := []

/-- Adds a value of one of the options `known`, which was not given before. -/
def Options.add (o : Options) (known : List String) (name value : String) : Option Options :=
  if known.contains name && (o.values.lookup name).isNone && value != "" then
    some { o with values := o.values ++ [(name, value)] }
  else none

/-- The options of a command. -/
def readOptions (known : List String) (o : Options) : List String → Option Options
  | [] => some o
  | ["--"] => some o
  | arg :: args =>
    match verbosity? arg, option? arg with
    | some n, _ => readOptions known { o with verbosity := o.verbosity + n } args
    | none, some (name, some value) => do readOptions known (← o.add known name value) args
    | none, some (name, none) =>
      match args with
      | value :: args =>
        if isValue value then do readOptions known (← o.add known name value) args else none
      | [] => none
    | none, none => none

def outputOf? (o : Options) : Option OutputOptions := do
  return ⟨← o.values.lookup "out", o.values.lookup "template-dir", o.values.lookup "pmvs-dir"⟩

def outputNames : List String := ["project", "out", "template-dir", "pmvs-dir"]

/-- A command by its name and its arguments, with what those ask of the log. -/
def command? (name : String) (args : List String) : Option (Nat × Command) := do
  match name with
  | "import" =>
    let o ← readOptions ["project", "smdx"] {} args
    return (o.verbosity, .import (← o.values.lookup "project") (← o.values.lookup "smdx"))
  | "export" =>
    let o ← readOptions outputNames {} args
    return (o.verbosity, .export (← o.values.lookup "project") (← outputOf? o))
  | "validate" =>
    let o ← readOptions ["project"] {} args
    return (o.verbosity, .validate (← o.values.lookup "project"))
  | "build" =>
    let o ← readOptions outputNames {} args
    return (o.verbosity, .build (← o.values.lookup "project") (← outputOf? o))
  | _ => none

/-- The command behind `-v` and its like; what is asked behind the command counts before them. -/
def read? (verbosity : Nat) : List String → Option Invocation
  | [] => none
  | arg :: args =>
    match verbosity? arg with
    | some n => read? (verbosity + n) args
    | none => do
      let (inner, command) ← command? arg args
      return ⟨if inner = 0 then verbosity else inner, command⟩

end Arguments

/-- The invocation that the arguments ask for. -/
def Invocation.ofArguments? (args : List String) : Option Invocation := Arguments.read? 0 args

end DeviceModel
