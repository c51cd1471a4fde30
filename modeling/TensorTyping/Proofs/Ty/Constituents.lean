import TensorTyping.Proofs.Ty.Heredity

/-!
# The constituents of a type

A type with all the types inside it, so that a condition on all of them can be checked by going
through a list.
-/
namespace TensorTyping.Ty

mutual
def constituents : Ty → List Ty
  | .tuple ts => .tuple ts :: constituentsList ts
  | .func as r ps rs =>
    .func as r ps rs :: constituentsList as ++ r.constituents ++ constituentsRelations rs
  | .data h as => .data h as :: constituentsList as
  | .tensor s d => [.tensor s d]
  | .param p => [.param p]
  | .handle h => [.handle h]
  | .cell c => [.cell c]
def constituentsList : List Ty → List Ty
  | [] => []
  | t :: ts => t.constituents ++ constituentsList ts
def constituentsRelations : List TypeRelation → List Ty
  | [] => []
  | ⟨_, as, _, _⟩ :: rs => constituentsList as ++ constituentsRelations rs
end

def relations : Ty → List TypeRelation
  | .func _ _ _ rs => rs
  | _ => []

variable {t u : Ty}

theorem mem_constituentsList {ts : List Ty} :
    u ∈ constituentsList ts ↔ ∃ t ∈ ts, u ∈ t.constituents := by
  induction ts with
  | nil => simp [constituentsList]
  | cons t ts ih => simp [constituentsList, ih]

theorem mem_constituentsRelations {rs : List TypeRelation} :
    u ∈ constituentsRelations rs ↔ ∃ r ∈ rs, ∃ t ∈ r.args, u ∈ t.constituents := by
  induction rs with
  | nil => simp [constituentsRelations]
  | cons r rs ih =>
    obtain ⟨name, as, inputs, attrs⟩ := r
    simp [constituentsRelations, mem_constituentsList, ih]

theorem mem_constituents : u ∈ t.constituents ↔ u = t ∨ ∃ c ∈ t.children, u ∈ c.constituents := by
  cases t with
  | func as r ps rs =>
    simp only [constituents, children, List.mem_append, List.mem_cons, List.mem_flatMap,
      mem_constituentsList, mem_constituentsRelations]
    constructor
    · rintro (((h | ⟨t, ht, h⟩) | h) | ⟨rel, hrel, t, ht, h⟩)
      · exact .inl h
      · exact .inr ⟨t, .inl ht, h⟩
      · exact .inr ⟨r, .inr (.inl rfl), h⟩
      · exact .inr ⟨t, .inr (.inr ⟨rel, hrel, ht⟩), h⟩
    · rintro (h | ⟨t, ht | rfl | ⟨rel, hrel, ht⟩, h⟩)
      · exact .inl (.inl (.inl h))
      · exact .inl (.inl (.inr ⟨t, ht, h⟩))
      · exact .inl (.inr h)
      · exact .inr ⟨rel, hrel, t, ht, h⟩
  | _ => simp [constituents, mem_constituentsList]

theorem everywhere_iff_constituents {q : Ty → Prop} :
    Everywhere q t ↔ ∀ u ∈ t.constituents, q u := by
  induction t using induction_children with
  | step t ih =>
    constructor
    · intro h u hu
      rcases mem_constituents.1 hu with rfl | ⟨c, hc, hu⟩
      · exact h.top
      · exact (ih c hc).1 (h.child hc) u hu
    · intro h
      apply Everywhere.intro (h t (mem_constituents.2 (.inl rfl)))
      intro c hc
      exact (ih c hc).2 fun u hu => h u (mem_constituents.2 (.inr ⟨c, hc, hu⟩))

end TensorTyping.Ty
