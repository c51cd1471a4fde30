/-!
# Short descriptions

A phrase is described by its text, cut off with dots when it is longer than a line of a report.
-/
namespace TensorTyping.Text

/-- The longest description, in characters. -/
def excerptLimit : Nat := 72

def excerpt (s : String) : String :=
  if s.length ≤ excerptLimit then s
  else String.ofList (s.toList.take (excerptLimit - 3)) ++ "..."

end TensorTyping.Text
