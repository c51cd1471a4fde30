import TensorTyping.Proofs.Engine.Soundness
import TensorTyping.Proofs.Engine.Trials

/-!
# No wake-up is lost

Between operations every pending instance is in the queue, once, or sleeps. One that sleeps could
not be decided when it was last tried, and watches every free cell in its resolved slots. As long as
none of these cells is bound its slots resolve as they did, so it still cannot be decided; and when
one of them is bound it is woken. Propagation therefore ends at a fixpoint.

It does end. Each step takes a number from the queue, and puts at most the pending instances back,
which it does only if it binds a cell.
-/
namespace TensorTyping

open List

/-- The rule of an instance cannot tell yet whether it holds of its resolved slots. -/
def Instance.Undecided (registry : Registry) (s : Store) (i : Instance) : Prop :=
  ∃ entry, registry.lookup i.relation.name i.origin = .ok entry ∧
    (∀ a ∈ i.relation.args, s.ownsAll a = true) ∧
    entry.rule.verdict (i.relation.args.map s.resolve) i.attrs = .ok .indeterminate

theorem Instance.Undecided.of_resolve_eq {registry : Registry} {s s' : Store} {i : Instance}
    (h : i.Undecided registry s) (hs : s.Extends s')
    (hresolve : ∀ a ∈ i.relation.args, s'.resolve a = s.resolve a) : i.Undecided registry s' := by
  obtain ⟨entry, hentry, howned, hv⟩ := h
  refine ⟨entry, hentry, fun a ha => hs.ownsAll (howned a ha), ?_⟩
  rwa [map_congr_left hresolve]

namespace Engine

variable {rest heard : List Nat}

/-- The instance watches every free cell in its resolved slots. -/
def Watches (e : Engine) (i : Instance) : Prop :=
  ∀ a ∈ i.relation.args, ∀ c ∈ (e.store.resolve a).cellOccurrences,
    (c.index, i.seq) ∈ e.watchers

/-- The queue is in order and so is the trail, whatever was done before and however it ended. -/
structure Tidy (e : Engine) : Prop where
  orderly : e.Orderly
  told : e.store.Told

namespace Tidy

variable {registry : Registry} {e e' : Engine} {n : Nat} {s : Store}

theorem start (h : s.Valid) (ht : s.Told) : Tidy { store := s } where
  orderly :=
    { valid := ⟨h, by simp [waiting], by simp [waiting]⟩
      nodup := nodup_nil
      queued := by simp
      given := by simp }
  told := ht

theorem with_store (h : e.Orderly) (hs : s.Valid) : ({ e with store := s } : Engine).Orderly :=
  ⟨⟨hs, h.valid.ordered, h.valid.bounded⟩, h.nodup, h.queued, h.given⟩

section

variable (h : e.Tidy)

include h

theorem eyes (he : e.Eyes e') : e'.Tidy := by
  rw [he.rest_eq]
  obtain ⟨hvalid, hnodup, hqueued, hgiven⟩ := with_store h.orderly he.kept.valid
  exact ⟨⟨⟨hvalid.store, hvalid.ordered, hvalid.bounded⟩, hnodup, hqueued, hgiven⟩,
    he.kept.told h.told⟩

theorem moved (hs : e.store.Tells heard s) : (e.moved s).Tidy := by
  have hrouses := (foldl_hear_rouses (with_store h.orderly hs.evolves.valid) heard).1
  rw [← moved_eq hs] at hrouses
  exact ⟨hrouses.orderly, by rw [e.store_moved]; exact hs.told h.told⟩

theorem discharge (n : Nat) : (e.discharge n).Tidy where
  orderly :=
    { valid :=
        { store := h.orderly.valid.store
          ordered := by
            rw [waiting_discharge]
            exact h.orderly.valid.ordered.sublist (filter_sublist.map _)
          bounded := fun i hi => by
            rw [waiting_discharge] at hi
            exact h.orderly.valid.bounded i (mem_of_mem_filter hi) }
      nodup := h.orderly.nodup
      queued := fun i hi => h.orderly.queued i (mem_of_mem_filter hi)
      given := h.orderly.given }
  told := h.told

theorem enlist {i : Instance} (hseq : i.seq = e.added + 1) (hdirty : i.dirty = true) :
    (e.enlist i).Tidy where
  orderly :=
    { valid := (Gains.enlist h.orderly.valid.store hseq).valid h.orderly.valid
      nodup := by
        apply nodup_insertSorted h.orderly.nodup
        intro hin
        have hle := h.orderly.given _ hin
        omega
      queued := by
        intro j hj
        rw [Engine.enlist, mem_insertSorted]
        rcases mem_append.1 hj with hj | hj
        · have hle := h.orderly.valid.pending_le hj
          have hne : j.seq ≠ i.seq := by omega
          simp [hne, h.orderly.queued j hj]
        · obtain rfl : j = i := by simpa using hj
          simp [hdirty]
      given := by
        intro m hm
        change m ≤ i.seq
        rcases mem_insertSorted.1 hm with rfl | hm
        · exact Nat.le_refl _
        · have hle := h.orderly.given m hm
          omega }
  told := h.told

theorem taken (hq : e.queue = n :: rest) : (EngineM.taken e n rest).Tidy := by
  have hnodup := h.orderly.nodup
  rw [hq, nodup_cons] at hnodup
  refine ⟨⟨(EngineM.taken_sameWork e n rest).valid h.orderly.valid, hnodup.2, ?_, ?_⟩, h.told⟩
  · intro i hi
    obtain ⟨j, hj, rfl⟩ := mem_setDirty.1 hi
    have hqueued := h.orderly.queued j hj
    rw [hq, mem_cons] at hqueued
    change _ ↔ _ ∈ rest
    by_cases hjn : j.seq = n
    · simp [hjn, hnodup.1]
    · simpa [hjn] using hqueued
  · intro m hm
    apply h.orderly.given
    rw [hq]
    exact .tail _ hm

theorem dropped (hq : e.queue = n :: rest) (hidle : ∀ i, e.instance? n = some i → i.dirty = false) :
    ({ e with queue := rest } : Engine).Tidy := by
  -- Nobody has this number: whoever had it would be dirty.
  have hnone : ∀ i ∈ e.pending, i.seq ≠ n := by
    rintro i hi rfl
    cases hj : e.instance? i.seq with
    | none => exact instance?_eq_none hj hi rfl
    | some j =>
      obtain ⟨hmem, hseq⟩ := mem_of_instance? hj
      have hin : j.seq ∈ e.queue := by
        rw [hq, hseq]
        exact .head _
      have hdirty := (h.orderly.queued j hmem).2 hin
      rw [hidle j hj] at hdirty
      exact Bool.noConfusion hdirty
  have hnodup := h.orderly.nodup
  rw [hq, nodup_cons] at hnodup
  refine ⟨⟨⟨h.orderly.valid.store, h.orderly.valid.ordered, h.orderly.valid.bounded⟩,
    hnodup.2, fun i hi => ?_, fun m hm => ?_⟩, h.told⟩
  · have hqueued := h.orderly.queued i hi
    rwa [hq, mem_cons, or_iff_right (hnone i hi)] at hqueued
  · apply h.orderly.given
    rw [hq]
    exact .tail _ hm

theorem tries {i : Instance} (ht : EngineM.Tries registry i e e') : e'.Tidy := by
  cases ht with
  | settles _ _ _ _ hpeek hunify =>
    have h₁ := h.eyes hpeek.eyes
    obtain ⟨-, heard, htells⟩ := StoreM.narrows_of_unify h₁.orderly.valid.store hunify
    exact (h₁.moved htells).discharge _
  | sleeps _ _ _ heyes _ => exact h.eyes heyes

end

end Tidy

/-- Every instance that is not in the queue is undecided and watches, but for the one that is being
tried. -/
structure Watchful (registry : Registry) (busy : Option Nat) (e : Engine) : Prop
    extends Tidy e where
  idles : ∀ i ∈ e.pending, i.dirty = false → busy ≠ some i.seq →
    i.Undecided registry e.store ∧ e.Watches i

namespace Watchful

variable {registry : Registry} {busy : Option Nat} {e e' : Engine} {n : Nat} {i : Instance}

theorem idle (h : Watchful registry none e) (hi : i ∈ e.pending) (hd : i.dirty = false) :
    i.Undecided registry e.store ∧ e.Watches i :=
  h.idles i hi hd (by simp)

theorem start {s : Store} (h : s.Valid) (ht : s.Told) : Watchful registry none { store := s } :=
  ⟨.start h ht, by simp⟩

theorem eyes (h : Watchful registry busy e) (he : e.Eyes e') : Watchful registry busy e' := by
  refine ⟨h.toTidy.eyes he, fun i hi hd hbusy => ?_⟩
  rw [he.rest_eq] at hi
  obtain ⟨hund, hwatch⟩ := h.idles i hi hd hbusy
  refine ⟨hund.of_resolve_eq he.kept.later fun a _ => he.kept.view.resolve_eq a, ?_⟩
  intro a ha c hc
  rw [he.kept.view.resolve_eq] at hc
  exact he.watchers _ (hwatch a ha c hc)

/-- Whoever sleeps after the store has moved on watched no cell that was settled, so that its slots
resolve as they did. -/
theorem moved {s : Store} (h : Watchful registry busy e) (hs : e.store.Tells heard s) :
    Watchful registry busy (e.moved s) := by
  refine ⟨h.toTidy.moved hs, fun i hi hd hbusy => ?_⟩
  obtain ⟨hrouses, hkeep⟩ :=
    foldl_hear_rouses (Tidy.with_store h.orderly hs.evolves.valid) heard
  rw [← moved_eq hs] at hrouses hkeep
  obtain ⟨hund, hwatch⟩ := h.idles i (hrouses.asleep i hi hd) hd hbusy
  have hresolve : ∀ a ∈ i.relation.args, s.resolve a = e.store.resolve a := by
    intro a ha
    apply hs.resolve_eq h.orderly.valid.store
    intro c hc
    exact (hkeep i hi hd c.index (hwatch a ha c hc)).1
  rw [Watches, e.store_moved]
  refine ⟨hund.of_resolve_eq hs.evolves.later hresolve, fun a ha c hc => ?_⟩
  rw [hresolve a ha] at hc
  exact (hkeep i hi hd c.index (hwatch a ha c hc)).2

theorem discharge (h : Watchful registry (some n) e) : Watchful registry none (e.discharge n) := by
  refine ⟨h.toTidy.discharge n, fun i hi hd _ => ?_⟩
  obtain ⟨hi, hne⟩ := mem_filter.1 hi
  apply h.idles i hi hd
  rintro heq
  simp only [Option.some.injEq] at heq
  simp [heq] at hne

/-- An invariant that nobody is exempt from holds with an exemption. -/
theorem exempt (h : Watchful registry none e) (busy : Option Nat) : Watchful registry busy e :=
  ⟨h.toTidy, fun _ hi hd _ => h.idle hi hd⟩

theorem enlist {i : Instance} (h : Watchful registry none e) (hseq : i.seq = e.added + 1)
    (hdirty : i.dirty = true) : Watchful registry none (e.enlist i) := by
  refine ⟨h.toTidy.enlist hseq hdirty, fun j hj hd _ => ?_⟩
  rcases mem_append.1 hj with hj | hj
  · exact h.idle hj hd
  · obtain rfl : j = i := by simpa using hj
    rw [hdirty] at hd
    exact Bool.noConfusion hd

theorem taken (h : Watchful registry none e) (hq : e.queue = n :: rest) :
    Watchful registry (some n) (EngineM.taken e n rest) := by
  refine ⟨h.toTidy.taken hq, fun i hi hd hbusy => ?_⟩
  obtain ⟨j, hj, rfl⟩ := mem_setDirty.1 hi
  by_cases hjn : j.seq = n
  · simp [hjn] at hbusy
  · rw [if_neg hjn] at hd ⊢
    exact h.idle hj hd

/-- A trial leaves nobody exempt: the instance is discharged, or it is undecided and watches. -/
theorem tries (h : Watchful registry (some i.seq) e) (hi : i ∈ e.waiting)
    (ht : EngineM.Tries registry i e e') : Watchful registry none e' := by
  cases ht with
  | settles _ _ _ _ hpeek hunify =>
    have h₁ := h.eyes hpeek.eyes
    obtain ⟨-, heard, htells⟩ := StoreM.narrows_of_unify h₁.orderly.valid.store hunify
    exact (h₁.moved htells).discharge
  | sleeps hentry howned hv heyes hall =>
    have h' := h.eyes heyes
    refine ⟨h'.toTidy, fun j hj hd _ => ?_⟩
    by_cases hji : j.seq = i.seq
    · have hpending : e'.pending = e.pending := by rw [heyes.rest_eq]
      have hasleep : j.asleep ∈ e.waiting := mem_map_of_mem (hpending ▸ hj)
      obtain rfl : j.asleep = i := h.orderly.valid.eq_of_seq hasleep hi hji
      have hund : j.Undecided registry e.store := ⟨_, hentry, howned, hv⟩
      refine ⟨hund.of_resolve_eq heyes.kept.later fun a _ => heyes.kept.view.resolve_eq a, ?_⟩
      intro a ha c hc
      rw [heyes.kept.view.resolve_eq] at hc
      exact hall a ha c hc
    · exact h'.idles j hj hd fun heq => hji (by simpa using heq.symm)

end Watchful

/-- How many more numbers can be taken from the queue. -/
def effort (e : Engine) : Nat :=
  e.queue.length + (e.store.size - e.store.trail.size) * e.pending.length

theorem effort_lt_attempts (e : Engine) : e.effort < e.attempts := by
  have hle := Nat.mul_le_mul_right e.pending.length (Nat.sub_le e.store.size e.store.trail.size)
  unfold effort attempts
  omega

theorem effort_discharge_le (e : Engine) (n : Nat) : (e.discharge n).effort ≤ e.effort := by
  have hle : (e.discharge n).pending.length ≤ e.pending.length := length_filter_le _ _
  have hmul := Nat.mul_le_mul_left (e.store.size - e.store.trail.size) hle
  exact Nat.add_le_add_left hmul _

variable {registry : Registry} {busy : Option Nat} {e e' : Engine}

/-- When cells are bound, the cells that are left make up for the instances that are woken. -/
theorem effort_moved_le {s : Store} (h : e.Tidy) (hs : e.store.Narrows s) :
    (e.moved s).effort ≤ e.effort := by
  obtain ⟨hsize, heard, htells⟩ := hs
  have hstore := e.store_moved s
  have hrouses := (foldl_hear_rouses (Tidy.with_store h.orderly htells.evolves.valid) heard).1
  rw [← moved_eq htells] at hrouses
  have hqueue := hrouses.queue_length_le
  have hpending : (e.moved s).pending.length = e.pending.length := hrouses.pending_length_eq
  have htrail : s.trail.size = e.store.trail.size + heard.length := by
    rw [← Array.length_toList, htells.trail_eq, length_append, Array.length_toList]
  have hroom := (htells.told h.told).trail_le
  unfold effort
  rw [hstore, hpending, hsize, htrail]
  rw [hsize, htrail] at hroom
  cases heard with
  | nil =>
    rw [moved_eq htells]
    exact Nat.le_refl _
  | cons r heard =>
    obtain ⟨k, hk⟩ : ∃ k, e.store.size - e.store.trail.size = k + (r :: heard).length :=
      ⟨e.store.size - (e.store.trail.size + (r :: heard).length), by omega⟩
    have hleft : e.store.size - (e.store.trail.size + (r :: heard).length) = k := by omega
    have hone : e.pending.length ≤ (r :: heard).length * e.pending.length :=
      Nat.le_mul_of_pos_left _ (by simp)
    rw [hk, hleft, Nat.add_mul]
    dsimp only at hqueue
    omega

theorem effort_eyes (h : e.Eyes e') : e'.effort = e.effort := by
  have hview := h.kept.view
  rw [effort, hview.size_eq, hview.trail_eq, h.rest_eq, effort]

theorem effort_tries_le {i : Instance} (h : e.Tidy) (ht : EngineM.Tries registry i e e') :
    e'.effort ≤ e.effort := by
  cases ht with
  | @settles _ _ _ _ e₁ s _ _ _ _ hpeek hunify =>
    have h₁ := h.eyes hpeek.eyes
    have hnarrows := StoreM.narrows_of_unify h₁.orderly.valid.store hunify
    calc ((e₁.moved s).discharge i.seq).effort ≤ (e₁.moved s).effort := effort_discharge_le _ _
      _ ≤ e₁.effort := effort_moved_le h₁ hnarrows
      _ = e.effort := effort_eyes hpeek.eyes
  | sleeps _ _ _ heyes _ => exact Nat.le_of_eq (effort_eyes heyes)

theorem effort_taken {n : Nat} (hq : e.queue = n :: rest) :
    (EngineM.taken e n rest).effort + 1 = e.effort := by
  simp only [effort, EngineM.taken, setDirty, hq, length_cons, length_map]
  omega

theorem Tidy.step (h : e.Tidy) (hrun : EngineM.step registry e = .ok true e') :
    e'.Tidy ∧ e'.effort < e.effort := by
  obtain ⟨n, rest, hq, ⟨hidle, rfl⟩ | ⟨i, -, -, htries⟩⟩ :=
    EngineM.step_eq_true h.orderly.valid.store hrun
  · refine ⟨h.dropped hq hidle, ?_⟩
    simp only [effort, hq, length_cons]
    omega
  · have hle := effort_tries_le (h.taken hq) htries
    have htaken := effort_taken hq
    exact ⟨(h.taken hq).tries htries, by omega⟩

theorem Watchful.step (h : Watchful registry none e)
    (hrun : EngineM.step registry e = .ok true e') : Watchful registry none e' := by
  obtain ⟨n, rest, hq, ⟨hidle, rfl⟩ | ⟨i, hi, hd, htries⟩⟩ :=
    EngineM.step_eq_true h.orderly.valid.store hrun
  · exact ⟨h.toTidy.dropped hq hidle, h.idles⟩
  · obtain ⟨hmem, rfl⟩ := mem_of_instance? hi
    have htaken : Watchful registry (some i.asleep.seq) (EngineM.taken e i.seq rest) :=
      h.taken hq
    have hwaits : i.asleep ∈ (EngineM.taken e i.seq rest).waiting := by
      rw [(EngineM.taken_sameWork e i.seq rest).waiting_eq]
      exact mem_map_of_mem hmem
    exact htaken.tries hwaits htries

theorem Watchful.steps (h : Watchful registry none e) (hsteps : Steps registry e e') :
    Watchful registry none e' := by
  induction hsteps with
  | refl => exact h
  | tail _ hstep ih => exact ih.step hstep

end Engine

namespace EngineM

open Engine

variable {registry : Registry} {e e' : Engine}

/-- Propagation ends with an empty queue, or with the fault of a step; it never stops for want of
fuel. -/
theorem propagateWithin_outcome {fuel : Nat} (h : e.Tidy)
    (hfuel : e.effort < fuel) :
    (∃ e', propagateWithin registry fuel e = .ok () e' ∧ Steps registry e e' ∧ e'.queue = []) ∨
      ∃ f e₁ e', propagateWithin registry fuel e = .error f e' ∧ Steps registry e e₁ ∧
        step registry e₁ = .error f e' := by
  induction fuel generalizing e with
  | zero => exact absurd hfuel (Nat.not_lt_zero _)
  | succ fuel ih =>
    rw [propagateWithin]
    cases hstep : step registry e with
    | error f e₁ =>
      rw [bind_of_error hstep]
      exact .inr ⟨f, e, e₁, rfl, .refl, hstep⟩
    | ok more e₁ =>
      rw [bind_of_ok hstep]
      cases more with
      | false =>
        obtain ⟨rfl, hqueue⟩ := step_false hstep
        exact .inl ⟨e₁, rfl, .refl, hqueue⟩
      | true =>
        obtain ⟨htidy, hlt⟩ := h.step hstep
        rcases ih htidy (by omega) with
          ⟨e', hrun, hsteps, hq⟩ | ⟨f, e₂, e', hrun, hsteps, hfault⟩
        · exact .inl ⟨e', hrun, .head hstep hsteps, hq⟩
        · exact .inr ⟨f, e₂, e', hrun, .head hstep hsteps, hfault⟩

theorem propagate_outcome (h : e.Tidy) :
    (∃ e', propagate registry e = .ok () e' ∧ Steps registry e e' ∧ e'.queue = []) ∨
      ∃ f e₁ e', propagate registry e = .error f e' ∧ Steps registry e e₁ ∧
        step registry e₁ = .error f e' :=
  propagateWithin_outcome h e.effort_lt_attempts

/-- Where propagation ends, every instance that is left sleeps undecided. -/
theorem propagate_fixpoint (h : Watchful registry none e)
    (hrun : propagate registry e = .ok () e') :
    Watchful registry none e' ∧
      ∀ i ∈ e'.pending, i.dirty = false ∧ i.Undecided registry e'.store := by
  rcases propagate_outcome h.toTidy with ⟨e₁, hok, hsteps, hq⟩ | ⟨f, e₁, e₂, herror, -, -⟩
  · obtain rfl : e₁ = e' := by
      have hsame := hok.symm.trans hrun
      rw [EStateM.Result.ok.injEq] at hsame
      exact hsame.2
    have h' := h.steps hsteps
    refine ⟨h', fun i hi => ?_⟩
    have hd : i.dirty = false := by
      have hqueued := h'.orderly.queued i hi
      rw [hq] at hqueued
      simpa using hqueued
    exact ⟨hd, (h'.idle hi hd).1⟩
  · rw [herror] at hrun
    cases hrun

end EngineM

namespace Engine

variable {registry : Registry}

def Operation.propagates : Operation → Bool
  | .propagate | .finish => true
  | _ => false

namespace History

variable {e : Engine} {h : History}

def unbroken (registry : Registry) (h : History) : List Operation → Bool
  | [] => true
  | op :: ops =>
    (!op.propagates || succeeds (EngineM.propagate registry) h.engine) &&
      unbroken registry (h.after registry op) ops

theorem watchful_finish (h : Watchful registry none e)
    (hrun : succeeds (EngineM.propagate registry) e = true) :
    Watchful registry none (endState (EngineM.finish registry) e) := by
  obtain ⟨_, hok⟩ := succeeds_iff.1 hrun
  obtain ⟨hwatchful, hleft⟩ := EngineM.propagate_fixpoint h hok
  unfold endState EngineM.finish
  rw [bind_of_ok hok, get_bind]
  cases hp : (endState (EngineM.propagate registry) e).pending with
  | nil => exact hwatchful
  | cons i is =>
    -- What is left is resolved for the report.
    obtain ⟨_, -, howned, -⟩ := (hleft i (by rw [hp]; exact (.head _))).2
    obtain ⟨e₂, hargs, hpeek⟩ := EngineM.resolveAll_ok hwatchful.orderly.valid.store howned
    simp only
    rw [bind_of_ok hargs]
    exact hwatchful.eyes hpeek.eyes

theorem watchful_detach (h : Watchful registry none e) (ns : List Nat) :
    Watchful registry none (endState (EngineM.detach ns) e) := by
  induction ns generalizing e with
  | nil => exact h
  | cons n ns ih =>
    unfold endState
    cases hi : e.instance? n with
    | none =>
      rw [EngineM.detach_cons_of_none hi]
      exact h
    | some i =>
      rw [EngineM.detach_cons_of_some hi]
      exact ih (h.exempt (some n)).discharge

theorem watchful_after (hw : Watchful registry none h.engine) (op : Operation)
    (hop : op.propagates = true → succeeds (EngineM.propagate registry) h.engine = true) :
    Watchful registry none (h.after registry op).engine := by
  cases op with
  | add r origin attrs =>
    rcases EngineM.add_outcome registry r origin attrs h.engine with ⟨f, hf⟩ | hok
    · simp only [after, hf]
      exact hw
    · simp only [after, hok]
      exact hw.enlist rfl rfl
  | store op =>
    obtain ⟨heard, htells⟩ := hw.orderly.valid.store.after_tells op
    have hmoved := hw.moved htells
    rw [Store.after, ← EngineM.endState_onStore] at hmoved
    exact hmoved
  | propagate =>
    obtain ⟨_, hok⟩ := succeeds_iff.1 (hop rfl)
    exact (EngineM.propagate_fixpoint hw hok).1
  | detach ns =>
    have hstate := EngineM.numbered_state ns h.engine
    simp only [after]
    unfold EngineM.detachNumbered
    cases hrun : EngineM.numbered ns h.engine with
    | ok seqs e₁ =>
      rw [endState_of_ok hrun] at hstate
      subst hstate
      have hdetach := watchful_detach hw seqs
      unfold endState at hdetach ⊢
      rwa [bind_of_ok hrun]
    | error f e₁ =>
      rw [endState_of_error hrun] at hstate
      rw [endState_of_error (bind_of_error hrun), hstate]
      exact hw
  | mark => exact hw
  | finish => exact watchful_finish hw (hop rfl)

theorem watchful_afterAll (hw : Watchful registry none h.engine) {ops : List Operation}
    (hops : h.unbroken registry ops = true) :
    Watchful registry none (h.afterAll registry ops).engine := by
  induction ops generalizing h with
  | nil => exact hw
  | cons op ops ih =>
    rw [unbroken, Bool.and_eq_true] at hops
    refine ih (watchful_after hw op fun hp => ?_) hops.2
    simpa [hp] using hops.1

/-- Propagation stops only at a fixpoint. Take any sequence of operations on an engine in which no
propagation stopped with a fault. Then every pending instance is dirty and has exactly one entry in
the queue, or has none and watches every free cell in its resolved slots. If propagation ends from
there, no instance that it leaves is dirty, and the rule of each cannot tell yet whether it holds of
the slots as they are resolved by then. If it stops with a fault, this is the fault of trying an
instance. -/
theorem propagate_reaches_fixpoint (registry : Registry) (serial : Serial) (ops : List Operation)
    (hops : (start serial).unbroken registry ops = true) :
    let e := ((start serial).afterAll registry ops).engine
    (∀ i ∈ e.pending, i.dirty = true ∧ e.queue.count i.seq = 1 ∨
        i.dirty = false ∧ e.queue.count i.seq = 0 ∧ e.Watches i) ∧
      (∀ e', EngineM.propagate registry e = .ok () e' →
        ∀ i ∈ e'.pending, i.dirty = false ∧ i.Undecided registry e'.store) ∧
      ∀ f e', EngineM.propagate registry e = .error f e' →
        ∃ e₁, Steps registry e e₁ ∧ EngineM.step registry e₁ = .error f e' := by
  intro e
  have hw : Watchful registry none e :=
    watchful_afterAll (.start (Store.valid_empty serial) (Store.told_empty serial)) hops
  refine ⟨fun i hi => ?_, fun e' hrun => (EngineM.propagate_fixpoint hw hrun).2,
    fun f e' hrun => ?_⟩
  · cases hd : i.dirty with
    | true => exact .inl ⟨rfl, hw.orderly.count_eq hi hd⟩
    | false =>
      have hout : i.seq ∉ e.queue := by
        rw [← hw.orderly.queued i hi, hd]
        exact Bool.false_ne_true
      exact .inr ⟨rfl, List.count_eq_zero_of_not_mem hout, (hw.idle hi hd).2⟩
  · rcases EngineM.propagate_outcome hw.toTidy with
      ⟨e₁, hok, -, -⟩ | ⟨g, e₁, e₂, herror, hsteps, hstep⟩
    · rw [hok] at hrun
      cases hrun
    · rw [herror] at hrun
      cases hrun
      exact ⟨e₁, hsteps, hstep⟩

/-- A broadcast sleeps on its second operand, is woken when that becomes a tensor, and leaves behind
a reduction whose operand is still unknown. -/
theorem propagate_reaches_fixpoint_reduction :
    let ops : List Operation :=
      [.store .fresh, .store .fresh, .store .fresh, .store .fresh,
        .add ⟨"Broadcast", [.tensor [.known 2, .known 1] "float32", .cell ⟨0, 0⟩, .cell ⟨0, 1⟩],
          2, .empty⟩ none .empty,
        .add ⟨"Reduce", [.cell ⟨0, 2⟩, .cell ⟨0, 3⟩], 1, .empty⟩ none .empty,
        .propagate,
        .store (.unify (.cell ⟨0, 0⟩) (.tensor [.known 3] "float32") none)]
    let h := (start 0).afterAll .standard ops
    (start 0).unbroken .standard ops = true ∧
      h.engine.pending.map (fun i => (i.seq, i.dirty)) = [(1, true), (2, false)] ∧
      ∃ e, EngineM.propagate .standard h.engine = .ok () e ∧
        e.pending.map Instance.seq = [2] ∧
        ∀ i ∈ e.pending, i.dirty = false ∧ i.Undecided .standard e.store := by
  intro ops h
  have hops : (start 0).unbroken .standard ops = true := by decide +kernel
  have hok : succeeds (EngineM.propagate .standard) h.engine = true := by decide +kernel
  obtain ⟨_, hrun⟩ := succeeds_iff.1 hok
  refine ⟨hops, by decide +kernel, _, hrun, by decide +kernel, ?_⟩
  exact (propagate_reaches_fixpoint .standard 0 ops hops).2.1 _ hrun

end History

end Engine

end TensorTyping
