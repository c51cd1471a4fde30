/-!
# Lines

Texts are printed one to a line, and what was printed is read back line by line. A text that holds
a line break comes back as several lines.
-/
namespace TensorTyping.Text

/-- Texts, each ended by a line feed. -/
def onLines (texts : List String) : String := String.join (texts.map (· ++ "\n"))

/-- The characters that end a line, as closed ranges of code points, ascending. -/
def lineBreakRanges : List (Nat × Nat) :=
  [(0xa, 0xd), (0x1c, 0x1e), (0x85, 0x85), (0x2028, 0x2029)]

def isLineBreak (c : Char) : Bool :=
  lineBreakRanges.any fun r => r.1 ≤ c.toNat && c.toNat ≤ r.2

/-- Split off lines, where `line` holds the characters of the present one. A carriage return and the
line feed behind it are one break. The last line needs no break, but it is none if it is empty. -/
def splitLines (line : List Char) : List Char → List (List Char)
  | [] => if line.isEmpty then [] else [line]
  | '\r' :: '\n' :: cs => line :: splitLines [] cs
  | c :: cs => if isLineBreak c then line :: splitLines [] cs else splitLines (line ++ [c]) cs

def lines (s : String) : List String := (splitLines [] s.toList).map String.ofList

theorem splitLines_append_of_plain (line : List Char) {cs : List Char}
    (h : ∀ c ∈ cs, isLineBreak c = false) (rest : List Char) :
    splitLines line (cs ++ '\n' :: rest) = (line ++ cs) :: splitLines [] rest := by
  induction cs generalizing line with
  | nil => simp [splitLines, isLineBreak, lineBreakRanges]
  | cons c cs ih =>
    have hc : isLineBreak c = false := h c List.mem_cons_self
    have hr : c ≠ '\r' := by
      rintro rfl
      simp [isLineBreak, lineBreakRanges] at hc
    have hcs : ∀ c ∈ cs, isLineBreak c = false := fun d hd => h d (List.mem_cons_of_mem c hd)
    rw [List.cons_append, splitLines, if_neg (by simp [hc]), ih (line ++ [c]) hcs]
    · simp
    · intro _ hcr _
      exact hr hcr

end TensorTyping.Text
