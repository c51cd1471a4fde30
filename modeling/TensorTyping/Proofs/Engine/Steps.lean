import TensorTyping.Proofs.Engine.Moves

/-!
# Steps of an engine

Propagation that succeeds is a sequence of steps, each of which tries one instance. An instance
that waits before it and not after it was discharged by one of these steps, because its rule held
of its slots as they were resolved then.
-/
namespace TensorTyping

namespace Engine

def Steps (registry : Registry) : Engine → Engine → Prop :=
  Relation.ReflTransGen fun e e' => EngineM.step registry e = .ok true e'

/-- One of the steps from `e` to `e'` discharges the instance `i`, because its rule holds. -/
def Discharged (registry : Registry) (i : Instance) (e e' : Engine) : Prop :=
  ∃ e₁ e₂, Steps registry e e₁ ∧ EngineM.step registry e₁ = .ok true e₂ ∧
    Settles registry i e₁ e₂ ∧ Steps registry e₂ e'

variable {registry : Registry} {e e' : Engine}
variable {i : Instance}

theorem moves_of_step {more : Bool} (h : EngineM.step registry e = .ok more e') (he : e.Valid) :
    Moves registry e e' := by
  have hmoves : Moves registry e (endState (EngineM.step registry) e) := EngineM.step_moves he
  rwa [endState_of_ok h] at hmoves

theorem Steps.advances (h : Steps registry e e') (he : e.Valid) : Advances registry e e' := by
  induction h with
  | refl => exact .refl
  | tail _ hstep ih => exact ih.tail (moves_of_step hstep (ih.valid he))

theorem Steps.mem_waiting (h : Steps registry e e') (he : e.Valid) (hi : i ∈ e.waiting) :
    i ∈ e'.waiting ∨ Discharged registry i e e' := by
  induction h with
  | refl => exact .inl hi
  | tail hsteps hstep ih =>
    rcases ih with hwaits | ⟨e₁, e₂, hbefore, hdischarge, hsettles, hafter⟩
    · have hvalid := (Steps.advances hsteps he).valid he
      rcases (moves_of_step hstep hvalid).mem_waiting hvalid hwaits with hwaits | hsettles
      · exact .inl hwaits
      · exact .inr ⟨_, _, hsteps, hstep, hsettles, .refl⟩
    · exact .inr ⟨e₁, e₂, hbefore, hdischarge, hsettles, hafter.tail hstep⟩

theorem Discharged.not_mem_waiting (h : Discharged registry i e e') (he : e.Valid) :
    i ∉ e'.waiting := by
  obtain ⟨e₁, e₂, hbefore, -, hsettles, hafter⟩ := h
  have hvalid := hsettles.valid ((hbefore.advances he).valid he)
  intro hi
  have hearlier := (hafter.advances hvalid).waiting_sublist.subset hi
  rw [hsettles.waiting_eq] at hearlier
  simp at hearlier

theorem Discharged.satisfied (h : Discharged registry i e e') (he : e.Valid) :
    i.Satisfied registry e'.store := by
  obtain ⟨e₁, e₂, hbefore, -, hsettles, hafter⟩ := h
  have hvalid := hsettles.valid ((hbefore.advances he).valid he)
  exact hsettles.satisfied.later ((hafter.advances hvalid).evolves hvalid).later

end Engine

namespace EngineM

open Engine

variable {registry : Registry} {e e' : Engine}

theorem step_false (h : step registry e = .ok false e') : e' = e ∧ e.queue = [] := by
  obtain ⟨hq, hstep⟩ | ⟨n, rest, -, -, hstep⟩ | ⟨n, rest, i, -, -, -, hstep⟩ :=
    step_cases registry e
  all_goals rw [hstep] at h
  · cases h
    exact ⟨rfl, hq⟩
  · cases h
  · obtain ⟨_, _, -, h⟩ := bind_eq_ok h
    cases h

theorem step_of_idle (hidle : e.waiting = []) (h : step registry e = .ok true e') :
    e'.store = e.store ∧ e'.waiting = [] := by
  have hpending : e.pending = [] := List.map_eq_nil_iff.1 hidle
  cases hq : e.queue with
  | nil =>
    rw [step_nil hq] at h
    cases h
  | cons n rest =>
    rw [step_idle hq (by simp [instance?, hpending])] at h
    cases h
    exact ⟨rfl, hidle⟩

theorem propagateWithin_eq_ok {fuel : Nat} (h : propagateWithin registry fuel e = .ok () e') :
    Steps registry e e' := by
  induction fuel generalizing e with
  | zero =>
    unfold propagateWithin at h
    rw [get_bind] at h
    split at h
    · cases h
      exact .refl
    · cases h
  | succ fuel ih =>
    obtain ⟨more, e₁, hstep, hrest⟩ := bind_eq_ok h
    cases more with
    | true => exact .head hstep (ih hrest)
    | false =>
      obtain ⟨rfl, -⟩ := step_false hstep
      cases hrest
      exact .refl

/-- Where no instance waits, steps leave the store as it is. -/
theorem steps_of_idle (hidle : e.waiting = []) (h : Steps registry e e') :
    e'.store = e.store ∧ e'.waiting = [] := by
  induction h with
  | refl => exact ⟨rfl, hidle⟩
  | tail _ hstep ih =>
    obtain ⟨hstore, hwaiting⟩ := step_of_idle ih.2 hstep
    exact ⟨hstore.trans ih.1, hwaiting⟩

theorem propagate_eq_ok (h : propagate registry e = .ok () e') : Steps registry e e' := by
  have hrun : propagate registry e = propagateWithin registry e.attempts e := rfl
  rw [hrun] at h
  exact propagateWithin_eq_ok h

end EngineM

end TensorTyping
