import TensorTyping.Proofs.Engine.Instances
import TensorTyping.Proofs.Store.Reachable

/-!
# Soundness of the engine

A history is an engine together with a record of every instance that was ever added and of the
numbers of those that were taken out of play again. Whatever is done, in whatever order and
however it ends, every instance on record waits, or was taken out of play, or is satisfied by the
present store. An engine that finishes has no instance left that waits, so whatever was not taken
out of play is satisfied by the final types.
-/
namespace TensorTyping

open List

namespace EngineM

open Engine

variable {registry : Registry} {e e' : Engine}

theorem finish_advances (h : e.Valid) : Advances registry e (endState (finish registry) e) := by
  have hprop : Advances registry e (endState (propagate registry) e) := propagate_advances h
  refine endState_bind .trans hprop fun _ e₁ hrun => ?_
  rw [endState_of_ok hrun] at hprop
  have hvalid := (hprop.valid h).store
  unfold endState
  rw [get_bind]
  cases hp : e₁.pending with
  | nil => exact .refl
  | cons i is =>
    -- What is left is resolved for the report.
    have hresolve := resolveAll_rests hvalid i.relation.args
    cases hargs : resolveAll i.relation.args e₁ with
    | ok args e₂ =>
      rw [endState_of_ok hargs] at hresolve
      simp only
      rw [bind_of_ok hargs]
      exact .single (.inl hresolve)
    | error f e₂ =>
      rw [endState_of_error hargs] at hresolve
      simp only
      rw [bind_of_error hargs]
      exact .single (.inl hresolve)

theorem finish_eq_ok (h : finish registry e = .ok () e') :
    propagate registry e = .ok () e' ∧ e'.pending = [] := by
  obtain ⟨_, e₁, hprop, h⟩ := bind_eq_ok h
  rw [get_bind] at h
  cases hp : e₁.pending with
  | nil =>
    rw [hp] at h
    obtain rfl : e₁ = e' := by simpa [pure, EStateM.pure] using h
    exact ⟨hprop, hp⟩
  | cons i is =>
    rw [hp] at h
    obtain ⟨args, e₂, _, h⟩ := bind_eq_ok h
    simp [throw_run] at h

end EngineM

namespace Engine

/-- An operation on an engine or on its store. -/
inductive Operation where
  | add (r : TypeRelation) (origin : Option Phrase) (attrs : Attrs)
  | store (op : Store.Operation)
  | propagate
  | detach (ns : List Int)
  | mark
  | finish

structure History where
  engine : Engine
  /-- The instances that were added. -/
  added : List Instance := []
  /-- The numbers of those that were taken out of play. -/
  detached : List Nat := []

namespace History

variable {h : History}

def start (serial : Serial) : History := { engine := { store := { serial } } }

/-- The history after one more operation, whether or not that stops with a fault. -/
def after (registry : Registry) (h : History) : Operation → History
  | .add r origin attrs =>
    match EngineM.add registry r origin attrs h.engine with
    | .ok i e => { h with engine := e, added := h.added ++ [i] }
    | .error _ e => { h with engine := e }
  | .store op => { h with engine := endState (EngineM.onStore op.perform) h.engine }
  | .propagate => { h with engine := endState (EngineM.propagate registry) h.engine }
  | .detach ns =>
    let e := endState (EngineM.detachNumbered ns) h.engine
    let gone := (h.engine.pending.map Instance.seq).filter fun n => (e.instance? n).isNone
    { h with engine := e, detached := h.detached ++ gone }
  -- A mark is the number of instances added so far, which is only read.
  | .mark => h
  | .finish => { h with engine := endState (EngineM.finish registry) h.engine }

def afterAll (registry : Registry) (h : History) (ops : List Operation) : History :=
  ops.foldl (after registry) h

/-- Every instance that was added waits, was taken out of play, or is satisfied. -/
structure Accounted (registry : Registry) (h : History) : Prop where
  valid : h.engine.Valid
  accounted : ∀ i ∈ h.added, i.asleep ∈ h.engine.waiting ∨ i.seq ∈ h.detached ∨
    i.Satisfied registry h.engine.store

variable {registry : Registry}

theorem start_accounted (serial : Serial) : Accounted registry (start serial) where
  valid := ⟨Store.valid_empty serial, by simp [start, waiting], by simp [start, waiting]⟩
  accounted := by simp [start]

section

variable (ha : Accounted registry h)

include ha

theorem Accounted.advances {e : Engine} (hadv : Advances registry h.engine e) :
    Accounted registry { h with engine := e } where
  valid := hadv.valid ha.valid
  accounted i hi := by
    rcases ha.accounted i hi with hw | hd | hs
    · rcases hadv.mem_waiting ha.valid hw with hw | hs
      · exact .inl hw
      · exact .inr (.inr hs)
    · exact .inr (.inl hd)
    · exact .inr (.inr (hs.later (hadv.evolves ha.valid).later))

theorem Accounted.add (r : TypeRelation) (origin : Option Phrase) (attrs : Attrs) :
    Accounted registry (h.after registry (.add r origin attrs)) := by
  rcases EngineM.add_outcome registry r origin attrs h.engine with ⟨f, hf⟩ | hok
  · simp only [after, hf]
    exact ha
  · simp only [after, hok]
    refine ⟨(Gains.enlist ha.valid.store rfl).valid ha.valid, fun i hi => ?_⟩
    rw [waiting_enlist]
    rcases mem_append.1 hi with hi | hi
    · exact (ha.accounted i hi).imp_left (mem_append_left _)
    · exact .inl (mem_append_right _ (by simp_all))

theorem Accounted.detach (ns : List Int) : Accounted registry (h.after registry (.detach ns)) := by
  obtain ⟨p, hp⟩ := EngineM.detachNumbered_drops ns h.engine
  simp only [after]
  generalize endState (EngineM.detachNumbered ns) h.engine = e at hp ⊢
  refine ⟨hp.valid ha.valid, fun i hi => ?_⟩
  rcases ha.accounted i hi with hw | hd | hs
  · -- Either some instance of the same number still waits, which is this one, or none does.
    cases hj : e.instance? i.seq with
    | none =>
      refine .inr (.inl (mem_append_right _ (mem_filter.2 ⟨?_, by simp [hj]⟩)))
      obtain ⟨k, hk, hki⟩ := mem_map.1 hw
      have hseq : k.asleep.seq = i.asleep.seq := by rw [hki]
      exact mem_map.2 ⟨k, hk, hseq⟩
    | some j =>
      obtain ⟨hjw, hseq⟩ := mem_waiting_of_instance? hj
      have hjw' : j.asleep ∈ h.engine.waiting := by
        rw [hp.waiting_eq] at hjw
        exact mem_of_mem_filter hjw
      exact .inl (ha.valid.eq_of_seq hjw' hw hseq ▸ hjw)
  · exact .inr (.inl (mem_append_left _ hd))
  · rw [hp.store_eq]
    exact .inr (.inr hs)

theorem Accounted.after (op : Operation) : Accounted registry (h.after registry op) := by
  cases op with
  | add r origin attrs => exact ha.add r origin attrs
  | store op =>
    have hrests := moved_rests (ha.valid.store.after_evolves op)
    rw [Store.after, ← EngineM.endState_onStore] at hrests
    exact ha.advances (.single (.inl hrests))
  | propagate => exact ha.advances (EngineM.propagate_advances ha.valid)
  | detach ns => exact ha.detach ns
  | mark => exact ha
  | finish => exact ha.advances (EngineM.finish_advances ha.valid)

theorem Accounted.afterAll (ops : List Operation) :
    Accounted registry (h.afterAll registry ops) := by
  induction ops generalizing h with
  | nil => exact ha
  | cons op ops ih => exact ih (ha.after op)

end

/-- Whenever an engine finishes, every instance that was ever added to it and not taken out of play
is satisfied by the final types: its rule holds of its resolved slots, and the type that it assigns
to its output slot agrees with what the slot has become. -/
theorem finish_satisfies (registry : Registry) (serial : Serial) (ops : List Operation)
    {e : Engine}
    (hfinish : EngineM.finish registry ((start serial).afterAll registry ops).engine = .ok () e)
    {i : Instance} (hi : i ∈ ((start serial).afterAll registry ops).added)
    (hd : i.seq ∉ ((start serial).afterAll registry ops).detached) :
    i.Satisfied registry e.store := by
  have ha : Accounted registry ((start serial).afterAll registry ops) :=
    (start_accounted serial).afterAll ops
  have hadv : Advances registry _ _ := EngineM.propagate_advances ha.valid
  obtain ⟨hprop, hempty⟩ := EngineM.finish_eq_ok hfinish
  rw [endState_of_ok hprop] at hadv
  have hnone : i.asleep ∉ e.waiting := by simp [waiting, hempty]
  rcases (ha.advances hadv).accounted i hi with hw | hdet | hs
  · exact absurd hw hnone
  · exact absurd hdet hd
  · exact hs

/-- A broadcast waits until its second operand is unified with a tensor type. -/
theorem finish_satisfies_broadcast :
    let ops : List Operation :=
      [.store .fresh, .store .fresh,
        .add ⟨"Broadcast", [.tensor [.known 2, .known 1] "float32", .cell ⟨0, 0⟩, .cell ⟨0, 1⟩],
          2, .empty⟩ none .empty,
        .propagate,
        .store (.unify (.cell ⟨0, 0⟩) (.tensor [.known 3] "float32") none)]
    let h := (start 0).afterAll .standard ops
    h.added.map Instance.seq = [1] ∧ h.detached = [] ∧
      ∃ e, EngineM.finish .standard h.engine = .ok () e ∧
        ∀ i ∈ h.added, i.Satisfied .standard e.store := by
  intro ops h
  have hd : h.detached = [] := by decide +kernel
  have hok : succeeds (EngineM.finish .standard) h.engine = true := by decide +kernel
  obtain ⟨_, hfinish⟩ := succeeds_iff.1 hok
  refine ⟨by decide +kernel, hd, _, hfinish, fun i hi => ?_⟩
  exact finish_satisfies .standard 0 ops hfinish hi (hd ▸ List.not_mem_nil)

end History

end Engine

end TensorTyping
