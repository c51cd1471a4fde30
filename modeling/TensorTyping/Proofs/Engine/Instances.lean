import Mathlib.Data.List.Sort
import TensorTyping.Proofs.Engine.Moves

/-!
# Instances that come and go

An instance is added under the next number, behind all that wait. Instances are taken out of play
by their numbers, and the others keep their order.
-/
namespace TensorTyping

open List

variable {i : Instance} {p : Nat → Bool}

namespace Engine

def enlist (e : Engine) (i : Instance) : Engine :=
  { e with added := i.seq, pending := e.pending ++ [i], queue := insertSorted i.seq e.queue }

theorem waiting_enlist (e : Engine) (i : Instance) :
    (e.enlist i).waiting = e.waiting ++ [i.asleep] := by
  simp [waiting, enlist]

/-- The instances `new` have been added, under the next numbers, and the others go on waiting. -/
structure Gains (e : Engine) (new : List Instance) (e' : Engine) : Prop where
  evolves : e.store.Evolves e'.store
  waiting_eq : e'.waiting = e.waiting ++ new
  numbers : new.map Instance.seq = List.range' (e.added + 1) new.length
  added_eq : e'.added = e.added + new.length

namespace Gains

variable {e e' e'' : Engine} {new new' : List Instance}

theorem of_rests (h : e.Rests e') : e.Gains [] e' where
  evolves := h.evolves
  waiting_eq := by rw [h.waiting_eq, append_nil]
  numbers := rfl
  added_eq := h.added_eq

theorem enlist (h : e.store.Valid) (hi : i.seq = e.added + 1) :
    e.Gains [i.asleep] (e.enlist i) where
  evolves := .refl h
  waiting_eq := waiting_enlist e i
  numbers := by simp [Instance.asleep, hi]
  added_eq := hi

theorem trans (h : e.Gains new e') (h' : e'.Gains new' e'') : e.Gains (new ++ new') e'' where
  evolves := h.evolves.trans h'.evolves
  waiting_eq := by rw [h'.waiting_eq, h.waiting_eq, append_assoc]
  numbers := by
    rw [map_append, h.numbers, h'.numbers, h.added_eq, length_append,
      ← range'_append_1, Nat.add_right_comm]
  added_eq := by
    rw [h'.added_eq, h.added_eq, length_append]
    omega

theorem seq_mem (h : e.Gains new e') (hi : i ∈ new) : e.added < i.seq ∧ i.seq ≤ e'.added := by
  have hnumber : i.seq ∈ List.range' (e.added + 1) new.length := by
    rw [← h.numbers]
    exact mem_map_of_mem hi
  have := h.added_eq
  rw [mem_range'_1] at hnumber
  omega

theorem valid (h : e.Gains new e') (he : e.Valid) : e'.Valid where
  store := h.evolves.valid
  ordered := by
    rw [h.waiting_eq, map_append, pairwise_append]
    refine ⟨he.ordered, ?_, fun m hm n hn => ?_⟩
    · rw [h.numbers]
      exact pairwise_lt_range'
    · obtain ⟨i, hi, rfl⟩ := mem_map.1 hm
      obtain ⟨j, hj, rfl⟩ := mem_map.1 hn
      exact (he.bounded i hi).trans_lt (h.seq_mem hj).1
  bounded := by
    intro i hi
    rw [h.waiting_eq] at hi
    rcases mem_append.1 hi with hi | hi
    · have := he.bounded i hi
      have := h.added_eq
      omega
    · exact (h.seq_mem hi).2

end Gains

theorem eq_of_mem_iff {is js : List Instance} (his : (is.map Instance.seq).Pairwise (· < ·))
    (hjs : (js.map Instance.seq).Pairwise (· < ·)) (h : ∀ i, i ∈ is ↔ i ∈ js) : is = js := by
  have : Std.Irrefl fun i j : Instance => i.seq < j.seq := ⟨fun _ => Nat.lt_irrefl _⟩
  have : Std.Antisymm fun i j : Instance => i.seq < j.seq :=
    ⟨fun _ _ hlt hgt => absurd hlt (Nat.lt_asymm hgt)⟩
  exact (pairwise_map.1 his).eq_of_mem_iff (pairwise_map.1 hjs) h

theorem isSome_instance?_iff {e e' : Engine} (he : e.Valid) (hsub : e'.waiting.Sublist e.waiting)
    (hi : i ∈ e.waiting) : (e'.instance? i.seq).isSome = true ↔ i ∈ e'.waiting := by
  constructor
  · intro hsome
    obtain ⟨j, hj⟩ := Option.isSome_iff_exists.1 hsome
    obtain ⟨hwaits, hseq⟩ := mem_waiting_of_instance? hj
    rwa [he.eq_of_seq hi (hsub.subset hwaits) hseq.symm]
  · intro hwaits
    obtain ⟨j, hj, rfl⟩ := mem_map.1 hwaits
    rw [instance?, find?_isSome]
    exact ⟨j, hj, by simp [Instance.asleep]⟩

/-- Some of the instances that wait have been taken out of play. -/
structure Drops (e : Engine) (p : Nat → Bool) (e' : Engine) : Prop where
  store_eq : e'.store = e.store
  waiting_eq : e'.waiting = e.waiting.filter fun i => !p i.seq
  added_eq : e'.added = e.added

theorem Drops.refl (e : Engine) : e.Drops (fun _ => false) e := ⟨rfl, by simp, rfl⟩

theorem Drops.valid {e e' : Engine} (h : e.Drops p e') (he : e.Valid) : e'.Valid :=
  he.of_filter (h.store_eq ▸ he.store) h.waiting_eq h.added_eq

end Engine

namespace EngineM

variable {n : Nat} {ns : List Nat}

open Engine

variable {registry : Registry} {e e' : Engine}

theorem add_outcome (registry : Registry) (r : TypeRelation) (origin : Option Phrase)
    (attrs : Attrs) (e : Engine) :
    (∃ f, add registry r origin attrs e = .error f e) ∨
      add registry r origin attrs e =
        .ok ⟨e.added + 1, r, origin, r.attrs.merge attrs, true⟩
          (e.enlist ⟨e.added + 1, r, origin, r.attrs.merge attrs, true⟩) := by
  unfold add
  cases hentry : registry.lookup r.name origin with
  | error f => exact .inl ⟨f, rfl⟩
  | ok entry =>
    rw [bind_of_ok (ofExcept_eq_ok.2 ⟨rfl, rfl⟩)]
    cases entry.arity with
    | none => exact .inr rfl
    | some n =>
      by_cases hn : n = r.args.length
      · simp only [hn, ne_eq, not_true_eq_false, if_false]
        exact .inr rfl
      · simp only [ne_eq, hn, not_false_eq_true, if_true]
        exact .inl ⟨_, rfl⟩

theorem detach_cons_of_some (h : e.instance? n = some i) :
    detach (n :: ns) e = detach ns (e.discharge n) := by
  rw [detach, get_bind, h]
  rfl

theorem detach_cons_of_none (h : e.instance? n = none) :
    detach (n :: ns) e = .error (.missing (toString n)) e := by
  rw [detach, get_bind, h]
  rfl

theorem Drops.discharge (h : (e.discharge n).Drops p e') : e.Drops (fun m => m == n || p m) e' where
  store_eq := h.store_eq
  waiting_eq := by
    rw [h.waiting_eq, waiting_discharge, filter_filter]
    refine filter_congr fun i _ => ?_
    cases p i.seq <;> simp [bne]
  added_eq := h.added_eq

theorem detach_drops (ns : List Nat) (e : Engine) : ∃ p, e.Drops p (endState (detach ns) e) := by
  induction ns generalizing e with
  | nil => exact ⟨_, .refl e⟩
  | cons n ns ih =>
    unfold endState
    cases hi : e.instance? n with
    | none =>
      rw [detach_cons_of_none hi]
      exact ⟨_, .refl e⟩
    | some i =>
      rw [detach_cons_of_some hi]
      obtain ⟨p, hp⟩ := ih (e.discharge n)
      exact ⟨_, Drops.discharge hp⟩

theorem detach_eq_ok (h : detach ns e = .ok () e') : e.Drops (fun n => ns.contains n) e' := by
  induction ns generalizing e with
  | nil =>
    obtain rfl : e = e' := by simpa [detach, pure, EStateM.pure] using h
    exact .refl e
  | cons n ns ih =>
    cases hi : e.instance? n with
    | none => simp [detach_cons_of_none hi] at h
    | some i =>
      rw [detach_cons_of_some hi] at h
      have hdrops := Drops.discharge (ih h)
      simpa only [contains_cons] using hdrops

theorem numbered_state (ns : List Int) (e : Engine) : endState (numbered ns) e = e := by
  induction ns with
  | nil => rfl
  | cons n ns ih =>
    unfold endState
    rw [numbered, get_bind]
    cases e.number? n with
    | none => rfl
    | some seq =>
      unfold endState at ih
      simp only
      cases hrun : numbered ns e with
      | ok seqs e₁ =>
        rw [hrun] at ih
        rw [bind_of_ok hrun]
        exact ih
      | error f e₁ =>
        rw [hrun] at ih
        rw [bind_of_error hrun]
        exact ih

theorem detachNumbered_drops (ns : List Int) (e : Engine) :
    ∃ p, e.Drops p (endState (detachNumbered ns) e) := by
  have hstate := numbered_state ns e
  unfold endState detachNumbered at *
  cases hrun : numbered ns e with
  | ok seqs e₁ =>
    rw [hrun] at hstate
    obtain rfl : e₁ = e := hstate
    rw [bind_of_ok hrun]
    exact detach_drops seqs e₁
  | error f e₁ =>
    rw [hrun] at hstate
    obtain rfl : e₁ = e := hstate
    rw [bind_of_error hrun]
    exact ⟨_, .refl e₁⟩

end EngineM

end TensorTyping
