import TensorTyping.Store.Basic
import TensorTyping.Text.Blank
import TensorTyping.Text.Lines

/-!
# Reports

A report collects notices of issues up to a limit. A notice shows the description of the blamed
phrase underlined, with the sentence of the issue beside the line.
-/
namespace TensorTyping

structure Notice where
  kind : IssueKind
  introduction : String
  /-- The description of the blamed phrase and the sentence beside it. -/
  picture : Option (String × String)
  footer : List String
deriving DecidableEq, Repr

namespace Notice

/-- What stands before a shown phrase. -/
def margin : String := "     |"

/-- A phrase underlined, with a caption. -/
def underlined (text caption : String) : String :=
  let blanks := String.ofList (List.replicate margin.length ' ')
  let line := String.ofList (List.replicate (max 1 text.length) '^')
  margin ++ Text.trimEnd text ++ "\n" ++ blanks ++ line ++ " " ++ caption

def text (n : Notice) : String :=
  let picture := match n.picture with
    | some (text, caption) => [underlined text caption]
    | none => []
  "\n".intercalate ([n.introduction, ""] ++ picture ++ n.footer)

def ofIssue (i : Issue) (sentence : String) : Notice :=
  let introduction := "Type-checking found a problem: " ++ i.kind.name
  match i.site with
  | some p => ⟨i.kind, introduction, some (p.summary, sentence), []⟩
  | none => ⟨i.kind, introduction, none, [sentence]⟩

end Notice

/-- Notices, with the limit at which filing one stops the work. -/
structure Report where
  verbose : Bool := false
  limit : Option Int := some 3
  notices : List Notice := []
deriving DecidableEq, Repr, Inhabited

namespace Report

def isClean (r : Report) : Bool := r.notices.isEmpty

/-- The sentence of an issue, with its types resolved if a store is given. -/
def sentence (i : Issue) (store : Option Store) : Except Fault String :=
  let resolved : Except Fault Issue := match store with
    | none => .ok i
    | some s =>
      if (Evidence.typesList i.evidence).all s.ownsAll then .ok (i.mapTypes s.resolve)
      else .error .foreignCell
  match resolved with
  | .error f => .error f
  | .ok i =>
    match i.message with
    | .ok text => .ok text
    | .error e => .error (.template e)

/-- File a notice. The notice that reaches the limit is filed, and the work stops. -/
def file (r : Report) (n : Notice) : Report × Option Fault :=
  let r := { r with notices := r.notices ++ [n] }
  (r, if r.limit = some (r.notices.length : Int) then some .tooManyIssues else none)

def fileIssue (r : Report) (i : Issue) (store : Option Store) : Report × Option Fault :=
  match sentence i store with
  | .error f => (r, some f)
  | .ok text => r.file (.ofIssue i text)

/-- The cry that opens a list of complaints. -/
def cry : String := "Oh, Ack! I am undone."

/-- What is printed about the notices: each after a dashed line, under a heading. -/
def complaint (r : Report) : String :=
  let heading := if r.isClean then [] else [String.ofList (List.replicate 60 '*'), cry]
  let dashes := String.join (List.replicate 20 "  -")
  Text.onLines (heading ++ r.notices.flatMap fun n => [dashes, n.text])

/-- What is printed as chatter: the texts with blanks between them, if the report is verbose. -/
def chatter (r : Report) (texts : List String) : String :=
  if r.verbose then " ".intercalate texts ++ "\n" else ""

/-- The failure message when notices were filed although none was expected. -/
def unexpected? (r : Report) (message : String) : Option String :=
  if r.isClean then none else some (cry ++ " " ++ message)

end Report

end TensorTyping
