import TensorTyping.Command.Arguments
import TensorTyping.Demo
import TensorTyping.Inference.Run

/-!
# The command

Checking the prelude, alone or with a demonstration program, and printing the signatures.
-/
namespace TensorTyping.Command

/-- What a command leaves behind: the exit status, if it sets one, and what it printed. -/
structure Result where
  status : Option Nat
  out : String := ""
  err : String := ""
deriving DecidableEq, Repr

def usage : String := "usage: noether [-h] [-c] [-v] [-l] [demo]\n"

def introduction : String :=
  "This is a type-checker for the Noether tensor IR.\n\n" ++ usage ++
  "\n\nFor example:\n\n    noether mlp\n\n" ++
  "will type-check the standard prelude along with the \"mlp\" demonstration\n" ++
  "program, and then print the signature of every global function.\n\n" ++
  "    noether -h\n\nwill explain all the arguments.\n"

def explanation : String :=
  usage ++ "\nType-checker for the Noether tensor IR.\n\n" ++
  "positional arguments:\n" ++
  "  demo           Also check one of the demonstration programs. See --list.\n\n" ++
  "options:\n" ++
  "  -h, --help     show this help message and exit\n" ++
  "  -c, --check    Only check; do not print the signatures.\n" ++
  "  -v, --verbose  Say what is going on while checking.\n" ++
  "  -l, --list     List the demonstration programs.\n"

def signatures (m : Module) : String :=
  Text.onLines (m.functions.keys.filterMap fun g =>
    (m.signature? g).map fun s => g.name ++ " : " ++ s.toTy.text)

def checkAndPrint (o : Options) (m : Module) (session : Session) : Result :=
  let (operators, supply) := Operators.standard session.supply
  let report : Report := { verbose := o.verbose != 0 }
  let result := m.check operators .standard report { session with supply }
  let told := Text.onLines result.told
  match result.outcome with
  | .ok true =>
    if o.check then { status := some 0, err := told ++ "Looks plausible to me.\n" }
    else { status := some 0, out := signatures result.module, err := told }
  | _ => { status := some 1, err := told ++ result.report.complaint }

def perform (o : Options) : Result :=
  if o.list then { status := some 0, out := Text.onLines Demo.names }
  else
    match o.demo with
    | none =>
      match Prelude.build {} with
      | .ok m session => checkAndPrint o m session
      | .error _ _ => { status := some 1 }
    | some name =>
      match Demo.build name {} with
      | .ok m session => checkAndPrint o m session
      | .error _ _ =>
        { status := some 2,
          err := "There's no demonstration called " ++ Text.quoted name ++
            ". Try one of: " ++ ", ".intercalate Demo.names ++ "\n" }

def run (args : List String) : Result :=
  if args.isEmpty then { status := none, out := introduction }
  else match Options.ofArgs args with
    | .ok o => perform o
    | .error .help => { status := some 0, out := explanation }
    | .error (.refused e) =>
      { status := some 2, err := usage ++ "noether: error: " ++ e.message ++ "\n" }

end TensorTyping.Command
