import TensorTyping.Proofs.Effects

/-!
# How computations end

A computation ends with a result or stops with a fault, and in both cases in some state. `Ends` asks
for one thing of results and for another of faults. A sequence of two computations ends so if the
first does, and the second does from wherever the first may get to.
-/
namespace TensorTyping

variable {ε σ α β : Type}

/-- However the computation ends: `Q` holds of a result and the state after it, `E` of a fault and
the state in which it stopped. -/
structure Ends (act : EStateM ε σ α) (s : σ) (Q : α → σ → Prop) (E : ε → σ → Prop) : Prop where
  of_ok : ∀ {a s'}, act s = .ok a s' → Q a s'
  of_error : ∀ {e s'}, act s = .error e s' → E e s'

namespace Ends

variable {s : σ} {P P' : α → σ → Prop} {Q : β → σ → Prop} {E E' : ε → σ → Prop}
variable {x y act : EStateM ε σ α} {e : ε} {f : α → EStateM ε σ β} {a : α} {s' : σ}

theorem of_eq_ok (h : act s = .ok a s') (hP : P a s') : Ends act s P E := by
  constructor
  · intro b s'' hrun
    cases h.symm.trans hrun
    exact hP
  · intro e s'' hrun
    cases h.symm.trans hrun

theorem of_eq_error (h : act s = .error e s') (hE : E e s') : Ends act s P E := by
  constructor
  · intro b s'' hrun
    cases h.symm.trans hrun
  · intro e s'' hrun
    cases h.symm.trans hrun
    exact hE

theorem congr (heq : x s = y s) (h : Ends y s P E) : Ends x s P E where
  of_ok hrun := h.of_ok (heq ▸ hrun)
  of_error hrun := h.of_error (heq ▸ hrun)

protected theorem pure (h : P a s) : Ends (pure a) s P E := of_eq_ok rfl h

protected theorem throw (h : E e s) : Ends (throw e) s P E := of_eq_error rfl h

/-- The second computation may rely on how the first has gone. -/
theorem bind_run (hx : Ends x s P E) (hf : ∀ a s', x s = .ok a s' → P a s' → Ends (f a) s' Q E) :
    Ends (x >>= f) s Q E := by
  cases hrun : x s with
  | ok a s' =>
    have hrest := hf a s' hrun (hx.of_ok hrun)
    constructor
    · intro b s'' h
      rw [bind_of_ok hrun] at h
      exact hrest.of_ok h
    · intro e s'' h
      rw [bind_of_ok hrun] at h
      exact hrest.of_error h
  | error e s' => exact of_eq_error (bind_of_error hrun) (hx.of_error hrun)

protected theorem bind (hx : Ends x s P E) (hf : ∀ a s', P a s' → Ends (f a) s' Q E) :
    Ends (x >>= f) s Q E :=
  hx.bind_run fun a s' _ => hf a s'

theorem get_bind {f : σ → EStateM ε σ β} (h : Ends (f s) s Q E) : Ends (get >>= f) s Q E :=
  ⟨h.of_ok, h.of_error⟩

theorem modify_bind {g : σ → σ} {f : PUnit → EStateM ε σ β} (h : Ends (f ⟨⟩) (g s) Q E) :
    Ends (modify g >>= f) s Q E :=
  ⟨h.of_ok, h.of_error⟩

protected theorem modify {g : σ → σ} {Q : PUnit → σ → Prop} (h : Q ⟨⟩ (g s)) :
    Ends (modify g) s Q E := of_eq_ok rfl h

theorem throw_bind (h : E e s) :
    Ends (throw e >>= f) s Q E := of_eq_error rfl h

protected theorem ite {p : Prop} [Decidable p] (hx : p → Ends x s P E) (hy : ¬ p → Ends y s P E) :
    Ends (if p then x else y) s P E := by
  split
  · next hp => exact hx hp
  · next hp => exact hy hp

theorem imp (hx : Ends x s P E) (h : ∀ a s', P a s' → P' a s') (hE : ∀ e s', E e s' → E' e s') :
    Ends x s P' E' :=
  ⟨fun hrun => h _ _ (hx.of_ok hrun), fun hrun => hE _ _ (hx.of_error hrun)⟩

/-- What is asked of a result may rely on how the computation has gone. -/
theorem mono_run (hx : Ends x s P E) (h : ∀ a s', x s = .ok a s' → P a s' → P' a s') :
    Ends x s P' E where
  of_ok hrun := h _ _ hrun (hx.of_ok hrun)
  of_error hrun := hx.of_error hrun

theorem mono (hx : Ends x s P E) (h : ∀ a s', P a s' → P' a s') : Ends x s P' E :=
  hx.imp h fun _ _ he => he

protected theorem endState {x : EStateM ε σ α} {R : σ → Prop} (hx : Ends x s P E)
    (hok : ∀ a s', P a s' → R s') (herror : ∀ e s', E e s' → R s') : R (endState x s) := by
  cases hrun : x s with
  | ok a s' =>
    rw [endState_of_ok hrun]
    exact hok a s' (hx.of_ok hrun)
  | error e s' =>
    rw [endState_of_error hrun]
    exact herror e s' (hx.of_error hrun)

/-- A computation that cannot stop comes to a result. -/
theorem exists_ok (hx : Ends x s P E) (herror : ∀ e s', ¬ E e s') :
    ∃ a s', x s = .ok a s' ∧ P a s' := by
  cases hrun : x s with
  | ok a s' => exact ⟨a, s', rfl, hx.of_ok hrun⟩
  | error e s' => exact absurd (hx.of_error hrun) (herror e s')

end Ends

end TensorTyping
