import TensorTyping.Ty.Basic

/-!
# What occurs in a type

The cells of a type and its free parameters, each once, in order of first appearance. A function
type binds its own parameters, in its arguments, its result and its relations.
-/
namespace TensorTyping.Ty

mutual
def cellOccurrences : Ty → List Cell
  | .tensor .. | .param _ | .handle _ => []
  | .tuple ts => cellOccurrencesList ts
  | .func as r _ rs =>
    cellOccurrencesList as ++ r.cellOccurrences ++ cellOccurrencesRelations rs
  | .cell c => [c]
  | .data _ as => cellOccurrencesList as
def cellOccurrencesList : List Ty → List Cell
  | [] => []
  | t :: ts => t.cellOccurrences ++ cellOccurrencesList ts
def cellOccurrencesRelations : List TypeRelation → List Cell
  | [] => []
  | ⟨_, as, _, _⟩ :: rs => cellOccurrencesList as ++ cellOccurrencesRelations rs
end

mutual
/-- Every free occurrence of a parameter that is not in `bound`. -/
def paramOccurrences (bound : List TypeParam) : Ty → List TypeParam
  | .tensor .. | .cell _ | .handle _ => []
  | .tuple ts => paramOccurrencesList bound ts
  | .func as r ps rs =>
    paramOccurrencesList (bound ++ ps) as ++ r.paramOccurrences (bound ++ ps) ++
      paramOccurrencesRelations (bound ++ ps) rs
  | .param p => if p ∈ bound then [] else [p]
  | .data _ as => paramOccurrencesList bound as
def paramOccurrencesList (bound : List TypeParam) : List Ty → List TypeParam
  | [] => []
  | t :: ts => t.paramOccurrences bound ++ paramOccurrencesList bound ts
def paramOccurrencesRelations (bound : List TypeParam) : List TypeRelation → List TypeParam
  | [] => []
  | ⟨_, as, _, _⟩ :: rs =>
    paramOccurrencesList bound as ++ paramOccurrencesRelations bound rs
end

end TensorTyping.Ty

namespace TensorTyping

/-- The items of a list at their first appearance, after those already `seen`. -/
def firstAppearances {α : Type} [DecidableEq α] (seen : List α) : List α → List α
  | [] => []
  | a :: as =>
    if a ∈ seen then firstAppearances seen as else a :: firstAppearances (a :: seen) as

theorem mem_firstAppearances {α : Type} [DecidableEq α] (a : α) (seen l : List α) :
    a ∈ firstAppearances seen l ↔ a ∈ l ∧ a ∉ seen := by
  induction l generalizing seen with
  | nil => simp [firstAppearances]
  | cons b l ih =>
    by_cases hb : b ∈ seen
    · simp only [firstAppearances, hb, if_true, ih, List.mem_cons]
      constructor
      · exact fun h => ⟨.inr h.1, h.2⟩
      · rintro ⟨h | h, hs⟩
        · exact absurd (h ▸ hb) hs
        · exact ⟨h, hs⟩
    · simp only [firstAppearances, hb, if_false, List.mem_cons, ih]
      constructor
      · rintro (h | h)
        · exact ⟨.inl h, h ▸ hb⟩
        · exact ⟨.inr h.1, fun hs => h.2 (.inr hs)⟩
      · rintro ⟨h, hs⟩
        by_cases hab : a = b
        · exact .inl hab
        · exact .inr ⟨h.resolve_left hab, fun h' => h'.elim hab hs⟩

theorem nodup_firstAppearances {α : Type} [DecidableEq α] (seen l : List α) :
    (firstAppearances seen l).Nodup := by
  induction l generalizing seen with
  | nil => exact List.nodup_nil
  | cons b l ih =>
    by_cases hb : b ∈ seen
    · simpa only [firstAppearances, hb, if_true] using ih seen
    · simp only [firstAppearances, hb, if_false, List.nodup_cons]
      refine ⟨fun h => ?_, ih _⟩
      exact ((mem_firstAppearances b (b :: seen) l).1 h).2 List.mem_cons_self

def cellsOf (ts : List Ty) : List Cell := firstAppearances [] (Ty.cellOccurrencesList ts)

def freeParamsOf (ts : List Ty) : List TypeParam :=
  firstAppearances [] (Ty.paramOccurrencesList [] ts)

def Ty.cells (t : Ty) : List Cell := cellsOf [t]

end TensorTyping
