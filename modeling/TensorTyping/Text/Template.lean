import TensorTyping.Text.Quoted

/-!
# Sentence templates

A template is a sentence with holes. A hole is a percent sign, optional flags, width and
precision, and a conversion letter; a doubled percent sign stands for itself. Holes take the given
texts from left to right, and every text has to be used.
-/
namespace TensorTyping.Text

/-- Why a template could not be filled. -/
inductive TemplateError where
  /-- There are more holes than texts. -/
  | tooFewTexts
  /-- There are more texts than holes. -/
  | tooManyTexts
  /-- A hole asks for something other than a text, or for a text by name. -/
  | unfit
  /-- The template ends inside a hole. -/
  | incomplete
  /-- The number for the width is beyond every width. -/
  | widthTooBig
  /-- The number for the precision is beyond every precision. -/
  | precisionTooBig
  /-- The hole is wider than a text can be. -/
  | tooWide
  /-- No conversion has this letter; the position counts characters. -/
  | unsupported (letter : Char) (position : Nat)
deriving DecidableEq, Repr

namespace TemplateError

/-- The sentence for an error of the template itself. -/
def message? : TemplateError → Option String
  | .incomplete => some "incomplete format"
  | .widthTooBig => some "width too big"
  | .precisionTooBig => some "precision too big"
  | .unsupported letter position =>
    let shown := if 31 ≤ letter.toNat ∧ letter.toNat < 127 then letter else '?'
    let code := String.ofList (Nat.toDigits 16 letter.toNat)
    some ("unsupported format character '" ++ String.singleton shown ++ "' (0x" ++ code ++
      ") at index " ++ toString position)
  | _ => none

end TemplateError

/-- What a hole says about the text that goes into it. -/
structure Hole where
  leftAligned : Bool
  width : Nat
  precision : Option Nat
  letter : Char
deriving DecidableEq, Repr

def takeNumeral (cs : List Char) : List Char × List Char :=
  (cs.takeWhile Char.isDigit, cs.dropWhile Char.isDigit)

def numeralValue (ds : List Char) : Nat :=
  ds.foldl (fun n d => 10 * n + (d.toNat - '0'.toNat)) 0

def widthLimit : Nat := Nat.pow 2 63 - 1

def precisionLimit : Nat := Nat.pow 2 31 - 1

def layoutLimit : Nat := Nat.pow 2 36

/-- Read a width or a precision, zero if no digits stand there. A star in its place asks for a
number among the texts, and a text is none. -/
def readSize (limit : Nat) (tooBig : TemplateError) (cs : List Char) :
    Except TemplateError (Nat × List Char) :=
  if cs.head? = some '*' then .error .unfit
  else
    let (digits, rest) := takeNumeral cs
    if limit < numeralValue digits then .error tooBig else .ok (numeralValue digits, rest)

def readPrecision : List Char → Except TemplateError (Option Nat × List Char)
  | '.' :: cs => (readSize precisionLimit .precisionTooBig cs).map fun (n, rest) => (some n, rest)
  | cs => .ok (none, cs)

/-- Skip one letter that tells the size of a number. -/
def skipSizeLetter : List Char → List Char
  | [] => []
  | c :: cs => if "hlL".toList.contains c then cs else c :: cs

/-- Read the specification of a hole after its percent sign; the rest follows its letter. -/
def readHole (cs : List Char) : Except TemplateError (Hole × List Char) := do
  if cs.head? = some '(' then throw .unfit
  let isFlag (c : Char) : Bool := "-+ #0".toList.contains c
  let (width, afterWidth) ← readSize widthLimit .widthTooBig (cs.dropWhile isFlag)
  let (precision, afterPrecision) ← readPrecision afterWidth
  match skipSizeLetter afterPrecision with
  | [] => throw .incomplete
  | letter :: rest => return (⟨(cs.takeWhile isFlag).contains '-', width, precision, letter⟩, rest)

/-- Characters with the room that they take. -/
structure Piece where
  content : List Char
  leftAligned : Bool := false
  width : Nat := 0
deriving DecidableEq, Repr

def Piece.chars (p : Piece) : List Char :=
  let padding := List.replicate (p.width - p.content.length) ' '
  if p.leftAligned then p.content ++ padding else padding ++ p.content

/-- Cut a text to the precision of its hole and give it the room of the hole. -/
def Hole.place (h : Hole) (s : String) : Except TemplateError Piece :=
  if layoutLimit < h.width then .error .tooWide
  else
    let content := match h.precision with
      | some p => s.toList.take p
      | none => s.toList
    .ok ⟨content, h.leftAligned, h.width⟩

/-- The piece that a hole makes of `arg`; `position` is that of its letter. -/
def Hole.convert (h : Hole) (position : Nat) (arg : String) : Except TemplateError Piece :=
  match h.letter with
  | 's' => h.place arg
  | 'r' => h.place (quoted arg)
  | 'a' => h.place (quotedAscii arg)
  | 'c' => if arg.length = 1 then { h with precision := none }.place arg else .error .unfit
  | letter =>
    if "diuoxXeEfFgG".toList.contains letter then .error .unfit
    else .error (.unsupported letter position)

/-- The pieces of `cs`, which begins at `position` in the template. The fuel is the number of
characters left. -/
def piecesFrom : Nat → Nat → List Char → List String → Except TemplateError (List Piece)
  | _, _, [], [] => .ok []
  | _, _, [], _ :: _ => .error .tooManyTexts
  | 0, _, _ :: _, _ => .error .incomplete
  | fuel + 1, position, '%' :: '%' :: cs, args =>
    (piecesFrom fuel (position + 2) cs args).map (⟨['%'], false, 0⟩ :: ·)
  | fuel + 1, position, '%' :: cs, args =>
    match readHole cs with
    | .error e => .error e
    | .ok (hole, rest) =>
      let next := position + 1 + (cs.length - rest.length)
      match args with
      | [] => .error .tooFewTexts
      | arg :: args =>
        match hole.convert (next - 1) arg with
        | .error e => .error e
        | .ok piece => (piecesFrom fuel next rest args).map (piece :: ·)
  | fuel + 1, position, c :: cs, args =>
    (piecesFrom fuel (position + 1) cs args).map (⟨[c], false, 0⟩ :: ·)

def fill (template : String) (args : List String) : Except TemplateError String :=
  (piecesFrom template.length 0 template.toList args).map fun pieces =>
    String.ofList (pieces.flatMap Piece.chars)

end TensorTyping.Text
