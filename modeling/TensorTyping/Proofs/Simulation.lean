import TensorTyping.Proofs.Effects

/-!
# Computations that keep step

One computation tracks another along a relation of their states if, from related states, it comes
to a result whenever the other does, and to a related result in a related state. Nothing is said of
computations that stop. Sequences, choices and changes of state keep step if their parts
do. Two runs are in lockstep if the one stops where the other does as well.
-/
namespace TensorTyping

variable {ε σ τ α β α' β' : Type}
variable {k : α → EStateM ε σ α'} {l : β → EStateM ε τ β'}

/-- Whenever `x` comes to a result, `y` comes to a related one. -/
def Tracks (R : σ → τ → Prop) (A : α → β → Prop) (x : EStateM ε σ α) (y : EStateM ε τ β) : Prop :=
  ∀ ⦃s t⦄, R s t → ∀ ⦃a s'⦄, x s = .ok a s' → ∃ b t', y t = .ok b t' ∧ A a b ∧ R s' t'

/-- The relation of each thing to its image. -/
abbrev Image (f : α → β) (a : α) (b : β) : Prop := b = f a

namespace Tracks

variable {R : σ → τ → Prop} {A : α → β → Prop} {B : α' → β' → Prop}
variable {x x' : EStateM ε σ α} {y : EStateM ε τ β} {p : Prop}

protected theorem pure {a : α} {b : β} (h : A a b) :
    Tracks R A (pure a : EStateM ε σ α) (pure b) := by
  intro s t hst a' s' hrun
  cases hrun
  exact ⟨b, t, rfl, h, hst⟩

protected theorem throw {e : ε} {y : EStateM ε τ β} : Tracks R A (throw e : EStateM ε σ α) y := by
  intro s t hst a s' hrun
  cases hrun

theorem throw_bind {e : ε} {y : EStateM ε τ β'} :
    Tracks R B (throw e >>= k : EStateM ε σ α') y := by
  intro s t hst a s' hrun
  cases hrun

protected theorem bind (hx : Tracks R A x y) (hk : ∀ a b, A a b → Tracks R B (k a) (l b)) :
    Tracks R B (x >>= k) (y >>= l) := by
  intro s t hst c s'' hrun
  obtain ⟨a, s', hfirst, hrest⟩ := bind_eq_ok hrun
  obtain ⟨b, t', hy, hab, hst'⟩ := hx hst hfirst
  rw [bind_of_ok hy]
  exact hk a b hab hst' hrest

theorem bind_image {f : α → β} (hx : Tracks R (Image f) x y)
    (hk : ∀ a, Tracks R B (k a) (l (f a))) : Tracks R B (x >>= k) (y >>= l) := by
  apply hx.bind
  rintro a b rfl
  exact hk a

theorem bind_unit {P : Unit → Unit → Prop} {x : EStateM ε σ Unit} {y : EStateM ε τ Unit}
    {k : Unit → EStateM ε σ α'} {l : Unit → EStateM ε τ β'} (hx : Tracks R P x y)
    (hk : Tracks R B (k ()) (l ())) : Tracks R B (x >>= k) (y >>= l) :=
  hx.bind fun _ _ _ => hk

theorem get_bind {k : σ → EStateM ε σ α'} {l : τ → EStateM ε τ β'}
    (hk : ∀ s t, R s t → Tracks R B (k s) (l t)) : Tracks R B (get >>= k) (get >>= l) :=
  fun s t hst _ _ hrun => hk s t hst hst hrun

protected theorem modify {f : σ → σ} {g : τ → τ} (h : ∀ s t, R s t → R (f s) (g t)) :
    Tracks R (fun _ _ => True) (modify f : EStateM ε σ PUnit) (modify g) := by
  intro s t hst a s' hrun
  cases hrun
  exact ⟨⟨⟩, g t, rfl, trivial, h s t hst⟩

protected theorem ite {q : Prop} [Decidable p] [Decidable q] (hpq : p ↔ q) {y' : EStateM ε τ β}
    (hx : p → Tracks R A x y) (hx' : ¬ p → Tracks R A x' y') :
    Tracks R A (if p then x else x') (if q then y else y') := by
  by_cases hp : p
  · rw [if_pos hp, if_pos (hpq.1 hp)]
    exact hx hp
  · rw [if_neg hp, if_neg fun hq => hp (hpq.2 hq)]
    exact hx' hp

theorem of_ite [Decidable p] (hx : p → Tracks R A x y) (hx' : ¬ p → Tracks R A x' y) :
    Tracks R A (if p then x else x') y := by
  split
  · next hp => exact hx hp
  · next hp => exact hx' hp

end Tracks

/-- Both runs have come to related results or stopped with related faults, in related states. -/
inductive Lockstep (R : σ → τ → Prop) (A : σ → α → β → Prop) (E : ε → ε → Prop) :
    EStateM.Result ε σ α → EStateM.Result ε τ β → Prop
  | ok {a : α} {b : β} {s : σ} {t : τ} : R s t → A s a b → Lockstep R A E (.ok a s) (.ok b t)
  | error {f g : ε} {s : σ} {t : τ} : R s t → E f g → Lockstep R A E (.error f s) (.error g t)

namespace Lockstep

variable {R : σ → τ → Prop} {A : σ → α → β → Prop} {B : σ → α' → β' → Prop} {E : ε → ε → Prop}
  {x : EStateM ε σ α} {y : EStateM ε τ β} {s : σ} {t : τ}

protected theorem bind (hxy : Lockstep R A E (x s) (y t))
    (hkl : ∀ {a b s' t'}, x s = .ok a s' → R s' t' → A s' a b → Lockstep R B E (k a s') (l b t')) :
    Lockstep R B E ((x >>= k) s) ((y >>= l) t) := by
  generalize hx : x s = rx at hxy
  generalize hy : y t = ry at hxy
  cases hxy with
  | ok h hab =>
    rw [bind_of_ok hx, bind_of_ok hy]
    exact hkl hx h hab
  | error h hfg =>
    rw [bind_of_error hx, bind_of_error hy]
    exact .error h hfg

protected theorem endState (hxy : Lockstep R A E (x s) (y t)) :
    R (endState x s) (endState y t) := by
  generalize hx : x s = rx at hxy
  generalize hy : y t = ry at hxy
  cases hxy with
  | ok h => rwa [endState_of_ok hx, endState_of_ok hy]
  | error h => rwa [endState_of_error hx, endState_of_error hy]

end Lockstep

end TensorTyping
