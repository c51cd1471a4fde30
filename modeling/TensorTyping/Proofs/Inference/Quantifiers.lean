import TensorTyping.Proofs.Inference.RunConduct
import TensorTyping.Proofs.Ty.Constituents

/-!
# What signatures quantify over

A signature that is recorded has the parameters of its function and all that are free in the type
that was found and in the relations that are left. What the type itself binds at its top is left
out. So the signature is closed if the type binds no other parameters than the function has, which
is so if the function is not used before its own type is known, or if no type binds parameters at
all.
-/
namespace TensorTyping

namespace Signature

/-- Every parameter in a signature is one of its own or bound inside. -/
def Closed (sig : Signature) : Prop := sig.toTy.paramOccurrences [] = []

instance (sig : Signature) : Decidable sig.Closed := inferInstanceAs (Decidable (_ = []))

theorem closed_iff {sig : Signature} :
    sig.Closed ↔ ∀ u ∈ sig.toTy.children, ∀ p ∈ u.paramOccurrences [], p ∈ sig.params := by
  unfold Closed
  rw [List.eq_nil_iff_forall_not_mem]
  constructor
  · intro h u hu p hp
    by_contra hnot
    exact h p (Ty.mem_free.2 (.inr ⟨u, hu, hp, hnot⟩))
  · intro h p hp
    rcases Ty.mem_free.1 hp with heq | ⟨u, hu, hp, hnot⟩
    · cases heq
    · exact hnot (h u hu p hp)

end Signature

namespace Inference

theorem mem_addParams {ps qs : List TypeParam} {p : TypeParam} :
    p ∈ addParams ps qs ↔ p ∈ ps ∨ p ∈ qs := by
  unfold addParams
  by_cases h : p ∈ ps <;> simp [h]

/-- A signature that quantifies over all that is free is closed, if the type found binds nothing
else and the written relations have no other parameters than the function. -/
theorem SignatureFor.closed {f : Function} {sig : Signature} {t : Ty} {left : List TypeRelation}
    (h : SignatureFor f t left sig) (hbinders : t.binders ⊆ f.typeParams)
    (hrelations : ∀ r ∈ f.relations, ∀ a ∈ r.args, ∀ p ∈ a.paramOccurrences [], p ∈ f.typeParams) :
    sig.Closed := by
  obtain ⟨⟨ps, rs, rfl⟩, hrels, hparams⟩ := h
  have hown {p : TypeParam} (hp : p ∈ f.typeParams) : p ∈ sig.params := by
    rw [hparams]
    exact mem_addParams.2 (.inl hp)
  have hfree {u : Ty} (hu : u ∈ Ty.func sig.args sig.ret ps rs :: left.flatMap fun r => r.args)
      {p : TypeParam} (hp : p ∈ u.paramOccurrences []) : p ∈ sig.params := by
    rw [hparams]
    exact mem_addParams.2 (.inr (Ty.mem_freeParamsOf.2 ⟨u, hu, hp⟩))
  -- Free in the type found, or bound by it and so a parameter of the function.
  have htype {u : Ty} (hu : u ∈ (Ty.func sig.args sig.ret ps rs).children) {p : TypeParam}
      (hp : p ∈ u.paramOccurrences []) : p ∈ sig.params := by
    by_cases hps : p ∈ ps
    · exact hown (hbinders hps)
    · exact hfree (.head _) (Ty.mem_free.2 (.inr ⟨u, hu, hp, hps⟩))
  rw [Signature.closed_iff]
  intro u hu p hp
  simp only [Signature.toTy, Ty.mem_children_func] at hu
  rcases hu with hu | rfl | ⟨r, hr, hu⟩
  · exact htype (by simp [hu]) hp
  · exact htype (by simp) hp
  · rw [hrels, List.mem_append] at hr
    rcases hr with hr | hr
    · exact hown (hrelations r hr u hu p hp)
    · exact hfree (.tail _ (List.mem_flatMap.2 ⟨r, hr, hu⟩)) hp

end Inference

end TensorTyping
