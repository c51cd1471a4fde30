import TensorTyping.Expr.Listing

/-!
# Expressions as trees

The immediate parts of an expression, induction over them, and what they mention.
-/
namespace TensorTyping.Expr

open List

@[simp]
def children : Expr → List Expr
  | .fn _ _ body _ _ _ => [body]
  | .call _ callee args _ _ => callee :: args
  | .letIn _ _ value body => [value, body]
  | .tuple _ fields => fields
  | .proj _ t _ => [t]
  | .cond _ test whenTrue whenFalse => [test, whenTrue, whenFalse]
  | .matchOn _ subject clauses => subject :: clauses.map Prod.snd
  | .var _ | .global _ | .op .. | .ctor _ | .constant .. => []

theorem induction_children {P : Expr → Prop} (step : ∀ e : Expr, (∀ c ∈ e.children, P c) → P e)
    (e : Expr) : P e := by
  refine @Expr.rec P (fun es => ∀ e ∈ es, P e) (fun cs => ∀ c ∈ cs, P c.2) (fun c => P c.2)
    ?_ ?_ ?_ ?_ ?_ ?_ ?_ ?_ ?_ ?_ ?_ ?_ ?_ ?_ ?_ ?_ ?_ e
  · exact fun x => step _ (by simp)
  · exact fun g => step _ (by simp)
  · exact fun n name => step _ (by simp)
  · exact fun c => step _ (by simp)
  · exact fun n c => step _ (by simp)
  · exact fun n params body ret ps rs hbody => step _ (by simpa using hbody)
  · exact fun n callee args ts attrs hcallee hargs =>
      step _ (forall_mem_cons.2 ⟨hcallee, hargs⟩)
  · exact fun n x value body hvalue hbody => step _ (by simp [hvalue, hbody])
  · exact fun n fields hfields => step _ hfields
  · exact fun n t index ht => step _ (by simpa using ht)
  · exact fun n a b c ha hb hc => step _ (by simp [ha, hb, hc])
  · intro n subject clauses hsubject hclauses
    refine step _ (forall_mem_cons.2 ⟨hsubject, fun e he => ?_⟩)
    obtain ⟨c, hc, rfl⟩ := mem_map.1 he
    exact hclauses c hc
  · exact forall_mem_nil _
  · exact fun e es he hes => forall_mem_cons.2 ⟨he, hes⟩
  · exact forall_mem_nil _
  · exact fun c cs hc hcs => forall_mem_cons.2 ⟨hc, hcs⟩
  · exact fun p e he => he

theorem mem_mentionsList {g : Global} {es : List Expr} :
    g ∈ mentionsList es ↔ ∃ e ∈ es, g ∈ e.mentions := by
  induction es with
  | nil => simp [mentionsList]
  | cons e es ih => simp [mentionsList, ih]

theorem mem_mentionsClauses {g : Global} {cs : List (Pattern × Expr)} :
    g ∈ mentionsClauses cs ↔ ∃ c ∈ cs, g ∈ c.2.mentions := by
  induction cs with
  | nil => simp [mentionsClauses]
  | cons c cs ih => simp [mentionsClauses, ih]

theorem mentions_of_child {e c : Expr} (hc : c ∈ e.children) {g : Global} (hg : g ∈ c.mentions) :
    g ∈ e.mentions := by
  cases e with
  | fn n params body ret ps rs =>
    obtain rfl : c = body := by simpa using hc
    exact hg
  | call n callee args ts attrs =>
    simp only [mentions, mem_append, mem_mentionsList]
    rcases mem_cons.1 hc with rfl | hc
    · exact .inl hg
    · exact .inr ⟨c, hc, hg⟩
  | letIn n x value body =>
    simp only [children, mem_cons, not_mem_nil, or_false] at hc
    simp only [mentions, mem_append]
    rcases hc with rfl | rfl
    · exact .inl hg
    · exact .inr hg
  | tuple n fields => exact mem_mentionsList.2 ⟨c, hc, hg⟩
  | proj n t index =>
    obtain rfl : c = t := by simpa using hc
    exact hg
  | cond n test whenTrue whenFalse =>
    simp only [children, mem_cons, not_mem_nil, or_false] at hc
    simp only [mentions, mem_append]
    rcases hc with rfl | rfl | rfl
    · exact .inl (.inl hg)
    · exact .inl (.inr hg)
    · exact .inr hg
  | matchOn n subject clauses =>
    simp only [mentions, mem_append, mem_mentionsClauses]
    rcases mem_cons.1 hc with rfl | hc
    · exact .inl hg
    · obtain ⟨clause, hclause, rfl⟩ := mem_map.1 hc
      exact .inr ⟨clause, hclause, hg⟩
  | var | global | op | ctor | constant => simp at hc

end TensorTyping.Expr
