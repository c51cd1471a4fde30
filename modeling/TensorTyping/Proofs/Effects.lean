/-!
# Computations that may stop

The computations of this library change a state and may stop with a fault, and then keep the state
they had reached. The laws below say what a sequence of two does, and when a relation between the
state before and the state after holds of a computation however it ends.
-/
namespace TensorTyping

variable {ε σ α β : Type}
variable {s s' : σ} {x y act : EStateM ε σ α} {f : α → EStateM ε σ β} {a : α} {e : ε}

def endState (act : EStateM ε σ α) (s : σ) : σ :=
  match act s with
  | .ok _ s' => s'
  | .error _ s' => s'

theorem endState_of_ok (h : act s = .ok a s') : endState act s = s' := by
  simp [endState, h]

theorem endState_of_error (h : act s = .error e s') : endState act s = s' := by
  simp [endState, h]

def succeeds (act : EStateM ε σ α) (s : σ) : Bool :=
  match act s with
  | .ok _ _ => true
  | .error _ _ => false

theorem succeeds_iff : succeeds act s = true ↔ ∃ a, act s = .ok a (endState act s) := by
  unfold succeeds endState
  cases act s <;> simp

theorem bind_of_ok (h : x s = .ok a s') : (x >>= f) s = f a s' := by
  change EStateM.bind x f s = _
  simp [EStateM.bind, h]

theorem bind_of_error (h : x s = .error e s') : (x >>= f) s = .error e s' := by
  change EStateM.bind x f s = _
  simp [EStateM.bind, h]

theorem get_bind (f : σ → EStateM ε σ α) (s : σ) : (get >>= f) s = f s s := rfl

theorem modify_bind (g : σ → σ) (f : PUnit → EStateM ε σ α) (s : σ) :
    (modify g >>= f) s = f ⟨⟩ (g s) := rfl

theorem throw_run (e : ε) (s : σ) : (throw e : EStateM ε σ α) s = .error e s := rfl

theorem bind_eq_ok {b : β} (h : (x >>= f) s = .ok b s') :
    ∃ a s₁, x s = .ok a s₁ ∧ f a s₁ = .ok b s' := by
  cases hx : x s with
  | ok a s₁ => exact ⟨a, s₁, rfl, (bind_of_ok hx).symm.trans h⟩
  | error e s₁ => exact absurd ((bind_of_error hx).symm.trans h) (by simp)

theorem bind_eq_error (h : (x >>= f) s = .error e s') :
    x s = .error e s' ∨ ∃ a s₁, x s = .ok a s₁ ∧ f a s₁ = .error e s' := by
  cases hx : x s with
  | ok a s₁ => exact .inr ⟨a, s₁, rfl, (bind_of_ok hx).symm.trans h⟩
  | error e' s₁ =>
    obtain ⟨rfl, rfl⟩ : e' = e ∧ s₁ = s' := by simpa [bind_of_error hx] using h
    exact .inl rfl

theorem endState_bind_pure (x : EStateM ε σ α) (f : α → β) (s : σ) :
    endState (x >>= fun a => pure (f a)) s = endState x s := by
  cases h : x s with
  | ok a s' =>
    have hrun : (x >>= fun a => pure (f a)) s = .ok (f a) s' := bind_of_ok h
    rw [endState_of_ok h, endState_of_ok hrun]
  | error e s' => rw [endState_of_error h, endState_of_error (bind_of_error h)]

theorem endState_bind_of_ok (h : x s = .ok a s') : endState (x >>= f) s = endState (f a) s' := by
  unfold endState
  rw [bind_of_ok h]

/-- What holds of two computations holds of their sequence, if it can be chained. -/
theorem endState_bind {R : σ → σ → Prop} (trans : ∀ {a b c : σ}, R a b → R b c → R a c)
    (hx : R s (endState x s)) (hf : ∀ a s', x s = .ok a s' → R s' (endState (f a) s')) :
    R s (endState (x >>= f) s) := by
  cases h : x s with
  | ok a s' =>
    rw [endState_of_ok h] at hx
    rw [endState_bind_of_ok h]
    exact trans hx (hf a s' h)
  | error e s' =>
    rw [endState_of_error h] at hx
    rw [endState_of_error (bind_of_error h)]
    exact hx

/-- However a computation ends, the states before and after it are related. -/
def Leads (R : σ → σ → Prop) (act : EStateM ε σ α) : Prop := ∀ s, R s (endState act s)

namespace Leads

variable {R : σ → σ → Prop}

protected theorem modify {f : σ → σ} (h : ∀ s, R s (f s)) :
    Leads R (modify f : EStateM ε σ PUnit) := h

protected theorem ite {p : Prop} [Decidable p] (hx : Leads R x) (hy : Leads R y) :
    Leads R (if p then x else y) := by
  split
  · exact hx
  · exact hy

protected theorem bind [Trans R R R] (hx : Leads R x) (hf : ∀ a, Leads R (f a)) :
    Leads R (x >>= f) :=
  fun s => endState_bind Trans.trans (hx s) fun a s' _ => hf a s'

/-- The two parts of a sequence may keep to different relations. -/
theorem seq {S T : σ → σ → Prop} [Trans R S T] [Std.Refl S] (hx : Leads R x)
    (hf : ∀ a, Leads S (f a)) : Leads T (x >>= f) := by
  intro s
  have hs := hx s
  cases h : x s with
  | ok a s' =>
    rw [endState_of_ok h] at hs
    rw [endState_bind_of_ok h]
    exact Trans.trans hs (hf a s')
  | error e s' =>
    rw [endState_of_error h] at hs
    rw [endState_of_error (bind_of_error h)]
    exact Trans.trans hs (Std.Refl.refl (r := S) s')

variable [Std.Refl R]

protected theorem pure (a : α) : Leads R (pure a : EStateM ε σ α) := Std.Refl.refl

protected theorem throw (e : ε) : Leads R (throw e : EStateM ε σ α) := Std.Refl.refl

protected theorem get : Leads R (get : EStateM ε σ σ) := Std.Refl.refl

end Leads

theorem bind_run_congr {f' : α → EStateM ε σ β} (hx : x s = y s)
    (hf : ∀ a s', x s = .ok a s' → f a s' = f' a s') : (x >>= f) s = (y >>= f') s := by
  cases hrun : x s with
  | error e s' => rw [bind_of_error hrun, bind_of_error (hx.symm.trans hrun)]
  | ok a s' =>
    rw [bind_of_ok hrun, bind_of_ok (hx.symm.trans hrun)]
    exact hf a s' hrun

end TensorTyping
