import TensorTyping.Text.Numeral
import TensorTyping.Text.Quoted

/-!
# Command-line arguments

Flags have a letter and a word. Letters may be run together behind one dash, and a word may be cut
short as long as it is still clear. The first word that is no flag names a demonstration program.
Two dashes end the flags. No flag takes a value, so a value given to a word is refused; one given to
a letter is read as more letters, and refused where a character of it is no letter of a flag.
-/
namespace TensorTyping.Command

inductive Flag where
  | help
  | check
  | verbose
  | list
deriving DecidableEq, Repr

namespace Flag

def all : List Flag := [.help, .check, .verbose, .list]

def letter : Flag → Char
  | .help => 'h'
  | .check => 'c'
  | .verbose => 'v'
  | .list => 'l'

/-- The word of a flag, with its dashes. -/
def word : Flag → String
  | .help => "--help"
  | .check => "--check"
  | .verbose => "--verbose"
  | .list => "--list"

/-- Both forms of a flag. -/
def title (f : Flag) : String := "-" ++ String.singleton f.letter ++ "/" ++ f.word

def ofLetter? (c : Char) : Option Flag := all.find? fun f => f.letter == c

/-- The flag that is written out in full, by its letter or its word. -/
def ofText? (cs : List Char) : Option Flag :=
  all.find? fun f => cs == ['-', f.letter] || cs == f.word.toList

end Flag

inductive UsageError where
  | ambiguous (given : String) (flags : List Flag)
  | unwantedValue (flag : Flag) (value : String)
  | unrecognized (given : List String)
deriving DecidableEq, Repr

namespace UsageError

def message : UsageError → String
  | .ambiguous given flags =>
    "ambiguous option: " ++ given ++ " could match " ++
      ", ".intercalate (flags.map Flag.word)
  | .unwantedValue flag value =>
    "argument " ++ flag.title ++ ": ignored explicit argument " ++ Text.quoted value
  | .unrecognized given => "unrecognized arguments: " ++ " ".intercalate given

end UsageError

/-- What is written behind a flag in the same argument. -/
inductive Attached where
  /-- More letters, or none. -/
  | letters (cs : List Char)
  /-- A value that cannot be read as letters. -/
  | value (cs : List Char)
deriving DecidableEq, Repr

inductive Token where
  | word (s : String)
  | separator
  | unknown (s : String)
  | flag (f : Flag) (attached : Attached)
deriving DecidableEq, Repr

/-- What stands before the first equals sign, and the value behind it if there is one. -/
def splitValue (cs : List Char) : List Char × Option (List Char) :=
  match cs.dropWhile (· ≠ '=') with
  | [] => (cs, none)
  | _ :: value => (cs.takeWhile (· ≠ '='), some value)

/-- What a value behind an equals sign is to a flag. Behind a letter it counts as more letters,
unless it is empty. -/
def attach (byLetter : Bool) : Option (List Char) → Attached
  | none => .letters []
  | some value => if byLetter && !value.isEmpty then .letters value else .value value

/-- An argument that is no flag: a word if it looks like a number or holds a blank. -/
def nonFlag (s : String) : Token :=
  if Text.looksNegative s || s.toList.contains ' ' then .word s else .unknown s

/-- What an argument before the two dashes looks like. -/
def classify (s : String) : Except UsageError Token :=
  let cs := s.toList
  match cs with
  | '-' :: c :: rest =>
    match Flag.ofText? cs with
    | some f => .ok (.flag f (.letters []))
    | none =>
      let (name, value) := splitValue cs
      match Flag.ofText? name with
      | some f => .ok (.flag f (attach (c != '-') value))
      | none =>
        if c = '-' then
          match Flag.all.filter fun f => name.isPrefixOf f.word.toList with
          | [] => .ok (nonFlag s)
          | [f] => .ok (.flag f (attach false value))
          | flags => .error (.ambiguous s flags)
        else match Flag.ofLetter? c with
          | some f => .ok (.flag f (.letters rest))
          | none => .ok (nonFlag s)
  | _ => .ok (.word s)

def tokens : List String → Except UsageError (List Token)
  | [] => .ok []
  | s :: rest =>
    if s = "--" then .ok (.separator :: rest.map .word)
    else match classify s with
      | .error e => .error e
      | .ok t => (tokens rest).map (t :: ·)

/-- A flag and those of the letters behind it. From the first character that is no letter of a flag
on, the rest is a value that the flag before it does not want. -/
def flagsOf (f : Flag) : List Char → Except UsageError (List Flag)
  | [] => .ok [f]
  | c :: cs =>
    match Flag.ofLetter? c with
    | none => .error (.unwantedValue f (String.ofList (c :: cs)))
    | some g => (flagsOf g cs).map (f :: ·)

def attachedFlags (f : Flag) : Attached → Except UsageError (List Flag)
  | .letters cs => flagsOf f cs
  | .value cs => .error (.unwantedValue f (String.ofList cs))

structure Options where
  demo : Option String := none
  check : Bool := false
  verbose : Nat := 0
  list : Bool := false
deriving DecidableEq, Repr, Inhabited

/-- Why reading the arguments ends early. -/
inductive Early where
  | help
  | refused (e : UsageError)
deriving DecidableEq, Repr

def Options.take (o : Options) : List Flag → Except Early Options
  | [] => .ok o
  | .help :: _ => .error .help
  | .check :: fs => { o with check := true }.take fs
  | .verbose :: fs => { o with verbose := o.verbose + 1 }.take fs
  | .list :: fs => { o with list := true }.take fs

/-- Read the arguments in order. `awaiting` tells whether a program may still be named, and `extras`
holds what was not understood. -/
def read (o : Options) (awaiting : Bool) (extras : List String) :
    List Token → Except Early (Options × List String)
  | [] => .ok (o, extras)
  | .flag f attached :: rest =>
    match attachedFlags f attached with
    | .error e => .error (.refused e)
    | .ok flags =>
      match o.take flags with
      | .error e => .error e
      | .ok o => read o awaiting extras rest
  | .unknown s :: rest => read o awaiting (extras ++ [s]) rest
  | .word s :: .separator :: rest =>
    if awaiting then read { o with demo := some s } false extras rest
    else read o false (extras ++ [s, "--"]) rest
  | .word s :: rest =>
    if awaiting then read { o with demo := some s } false extras rest
    else read o false (extras ++ [s]) rest
  | .separator :: .word s :: rest =>
    if awaiting then read { o with demo := some s } false extras rest
    else read o false (extras ++ ["--", s]) rest
  | .separator :: rest =>
    if awaiting then read o false extras rest else read o false (extras ++ ["--"]) rest

def Options.ofArgs (args : List String) : Except Early Options :=
  match tokens args with
  | .error e => .error (.refused e)
  | .ok ts =>
    match read {} true [] ts with
    | .error e => .error e
    | .ok (o, []) => .ok o
    | .ok (_, extras) => .error (.refused (.unrecognized extras))

end TensorTyping.Command
