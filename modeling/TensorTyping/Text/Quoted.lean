import TensorTyping.Text.Printable

/-!
# Quoted text

The written form of a text value: in single quotes, unless it holds a single quote and no double
one. The quote in use and the backslash are escaped, and so is every character without a printed
form.
-/
namespace TensorTyping.Text

/-- The lower-case hexadecimal digit of a number below sixteen. -/
def hexDigit (n : Nat) : Char := "0123456789abcdef".toList.getD n '0'

def hexDigits : Nat → Nat → List Char
  | 0, _ => []
  | width + 1, n => hexDigits width (n / 16) ++ [hexDigit (n % 16)]

/-- A numbered escape, in the shortest of the three widths that holds the code point. -/
def numberedEscape (n : Nat) : List Char :=
  if n < 0x100 then '\\' :: 'x' :: hexDigits 2 n
  else if n < 0x10000 then '\\' :: 'u' :: hexDigits 4 n
  else '\\' :: 'U' :: hexDigits 8 n

/-- One character between quotes; `plain` says which characters stand for themselves. -/
def escapeChar (plain : Char → Bool) (quote c : Char) : List Char :=
  if c = quote ∨ c = '\\' then ['\\', c]
  else if c = '\t' then ['\\', 't']
  else if c = '\n' then ['\\', 'n']
  else if c = '\r' then ['\\', 'r']
  else if plain c then [c]
  else numberedEscape c.toNat

/-- The quote to write a text with. -/
def chooseQuote (s : List Char) : Char :=
  if s.contains '\'' && !s.contains '"' then '"' else '\''

/-- Quoted text whose unescaped characters satisfy `plain`. -/
def quotedWith (plain : Char → Bool) (s : String) : String :=
  let cs := s.toList
  let quote := chooseQuote cs
  String.ofList (quote :: cs.flatMap (escapeChar plain quote) ++ [quote])

def quoted (s : String) : String := quotedWith isPrintable s

/-- Quoted text in which only ASCII characters stand for themselves. -/
def quotedAscii (s : String) : String :=
  quotedWith (fun c => isPrintable c && c.toNat < 128) s

end TensorTyping.Text
