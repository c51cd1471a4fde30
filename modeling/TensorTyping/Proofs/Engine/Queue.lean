import TensorTyping.Proofs.Engine.Instances

/-!
# The queue of an engine

A pending instance is in the queue exactly if it is dirty, and no number is in the queue twice.
Hearing of a root takes its watchers off the list and wakes them, so that an instance which sleeps
afterwards did not watch that root and has kept its watches on all others.
-/
namespace TensorTyping.Engine

open List

variable {e e' e'' : Engine} {i j : Instance} {n : Nat}

theorem insertSorted_perm (n : Nat) (ms : List Nat) : (insertSorted n ms).Perm (n :: ms) := by
  induction ms with
  | nil => exact .refl _
  | cons m ms ih =>
    unfold insertSorted
    split
    · exact .refl _
    · exact (ih.cons m).trans (.swap n m ms)

theorem mem_insertSorted {m : Nat} {ms : List Nat} : m ∈ insertSorted n ms ↔ m = n ∨ m ∈ ms := by
  rw [(insertSorted_perm n ms).mem_iff, mem_cons]

theorem nodup_insertSorted {ms : List Nat} (hms : ms.Nodup) (hn : n ∉ ms) :
    (insertSorted n ms).Nodup :=
  (insertSorted_perm n ms).nodup_iff.2 (nodup_cons.2 ⟨hn, hms⟩)

theorem Valid.eq_of_pending (h : e.Valid) (hi : i ∈ e.pending) (hj : j ∈ e.pending)
    (hij : i.seq = j.seq) : i = j := by
  have hseqs : (e.pending.map Instance.seq).Nodup := by
    have hordered : (e.waiting.map Instance.seq).Nodup := h.ordered.imp Nat.ne_of_lt
    rwa [waiting, map_map] at hordered
  exact inj_on_of_nodup_map hseqs hi hj hij

theorem Valid.pending_le (h : e.Valid) (hi : i ∈ e.pending) : i.seq ≤ e.added :=
  h.bounded i.asleep (mem_map_of_mem hi)

theorem instance?_eq_none (h : e.instance? n = none) (hi : i ∈ e.pending) : i.seq ≠ n := by
  have hnone := find?_eq_none.1 h i hi
  simpa using hnone

theorem mem_of_instance? (h : e.instance? n = some i) : i ∈ e.pending ∧ i.seq = n :=
  ⟨mem_of_find?_eq_some h, by simpa using find?_some h⟩

theorem mem_setDirty {b : Bool} : i ∈ (e.setDirty n b).pending ↔
    ∃ j ∈ e.pending, (if j.seq = n then { j with dirty := b } else j) = i := by
  simp [setDirty]

theorem SameWork.valid (h : e.SameWork e') (he : e.Valid) : e'.Valid :=
  (h.rests he.store).valid he

/-- The queue holds the dirty instances, each once, and otherwise only numbers of instances that
are gone. -/
structure Orderly (e : Engine) : Prop where
  valid : e.Valid
  nodup : e.queue.Nodup
  queued : ∀ i ∈ e.pending, i.dirty = true ↔ i.seq ∈ e.queue
  given : ∀ n ∈ e.queue, n ≤ e.added

theorem Orderly.count_eq (h : e.Orderly) (hi : i ∈ e.pending) (hd : i.dirty = true) :
    e.queue.count i.seq = 1 :=
  count_eq_one_of_mem h.nodup ((h.queued i hi).1 hd)

/-- Some instances that slept have been put into the queue. -/
structure Rouses (e e' : Engine) : Prop where
  work : e.SameWork e'
  orderly : e'.Orderly
  asleep : ∀ i ∈ e'.pending, i.dirty = false → i ∈ e.pending
  queue_subset : ∀ n ∈ e'.queue, n ∈ e.queue ∨ n ∈ e.pending.map Instance.seq
  seqs_eq : e'.pending.map Instance.seq = e.pending.map Instance.seq

namespace Rouses

theorem refl (h : e.Orderly) : e.Rouses e :=
  ⟨.refl e, h, fun _ hi _ => hi, fun _ => .inl, rfl⟩

theorem trans (h : e.Rouses e') (h' : e'.Rouses e'') : e.Rouses e'' where
  work := h.work.trans h'.work
  orderly := h'.orderly
  asleep i hi hd := h.asleep i (h'.asleep i hi hd) hd
  queue_subset n hn := by
    rcases h'.queue_subset n hn with hn | hn
    · exact h.queue_subset n hn
    · exact .inr (h.seqs_eq ▸ hn)
  seqs_eq := h'.seqs_eq.trans h.seqs_eq

theorem queue_length_le (h : e.Rouses e') :
    e'.queue.length ≤ e.queue.length + e.pending.length := by
  have hsub : e'.queue ⊆ e.queue ++ e.pending.map Instance.seq := fun n hn =>
    mem_append.2 (h.queue_subset n hn)
  have hle := h.orderly.nodup.length_le_of_subset hsub
  simpa using hle

theorem pending_length_eq (h : e.Rouses e') : e'.pending.length = e.pending.length := by
  have hlength := congrArg List.length h.seqs_eq
  simpa using hlength

end Rouses

theorem wake_of_none (h : e.instance? n = none) : e.wake n = e := by
  simp only [wake, h]

theorem wake_of_dirty (h : e.instance? n = some j) (hd : j.dirty = true) : e.wake n = e := by
  simp only [wake, h, hd, if_true]

theorem wake_of_asleep (h : e.instance? n = some j) (hd : j.dirty = false) :
    e.wake n = { e.setDirty n true with queue := insertSorted n e.queue } := by
  simp only [wake, h, hd, Bool.false_eq_true, if_false]

theorem seqs_setDirty (e : Engine) (n : Nat) (b : Bool) :
    (e.setDirty n b).pending.map Instance.seq = e.pending.map Instance.seq := by
  simp only [setDirty, map_map]
  refine map_congr_left fun k _ => ?_
  simp only [Function.comp_apply]
  split <;> rfl

theorem rouses_of_asleep (h : e.Orderly) (hj : j ∈ e.pending) (hd : j.dirty = false) :
    e.Rouses { e.setDirty j.seq true with queue := insertSorted j.seq e.queue } := by
  have hwork : e.SameWork { e.setDirty j.seq true with queue := insertSorted j.seq e.queue } :=
    (e.setDirty_sameWork j.seq true).trans ⟨rfl, rfl, rfl⟩
  have hout : j.seq ∉ e.queue := by
    intro hin
    rw [← h.queued j hj, hd] at hin
    exact Bool.noConfusion hin
  refine ⟨hwork, ⟨hwork.valid h.valid, nodup_insertSorted h.nodup hout, ?_, ?_⟩, ?_, ?_,
    e.seqs_setDirty j.seq true⟩
  · intro i hi
    obtain ⟨k, hk, rfl⟩ := mem_setDirty.1 hi
    rw [mem_insertSorted]
    by_cases hkj : k.seq = j.seq
    · simp [hkj]
    · simp [hkj, h.queued k hk]
  · intro m hm
    rcases mem_insertSorted.1 hm with rfl | hm
    · exact h.valid.pending_le hj
    · exact h.given m hm
  · intro i hi hd
    obtain ⟨k, hk, rfl⟩ := mem_setDirty.1 hi
    split at hd
    · exact Bool.noConfusion hd
    · next hne => rwa [if_neg hne]
  · intro m hm
    rcases mem_insertSorted.1 hm with rfl | hm
    · exact .inr (mem_map_of_mem hj)
    · exact .inl hm

theorem wake_rouses (h : e.Orderly) (n : Nat) :
    e.Rouses (e.wake n) ∧ (e.wake n).watchers = e.watchers ∧
      ∀ i ∈ (e.wake n).pending, i.dirty = false → i.seq ≠ n := by
  cases hj : e.instance? n with
  | none =>
    rw [wake_of_none hj]
    exact ⟨.refl h, rfl, fun i hi _ => instance?_eq_none hj hi⟩
  | some j =>
    obtain ⟨hmem, rfl⟩ := mem_of_instance? hj
    cases hdirty : j.dirty with
    | true =>
      rw [wake_of_dirty hj hdirty]
      refine ⟨.refl h, rfl, fun i hi hd hij => ?_⟩
      rw [h.valid.eq_of_pending hi hmem hij, hdirty] at hd
      exact Bool.noConfusion hd
    | false =>
      rw [wake_of_asleep hj hdirty]
      refine ⟨rouses_of_asleep h hmem hdirty, rfl, fun i hi hd hij => ?_⟩
      obtain ⟨k, -, rfl⟩ := mem_setDirty.1 hi
      split at hd
      · exact Bool.noConfusion hd
      · next hne => exact hne (by rwa [if_neg hne] at hij)

theorem foldl_wake_rouses (h : e.Orderly) (ns : List Nat) :
    e.Rouses (ns.foldl wake e) ∧ (ns.foldl wake e).watchers = e.watchers ∧
      ∀ i ∈ (ns.foldl wake e).pending, i.dirty = false → i.seq ∉ ns := by
  induction ns generalizing e with
  | nil => exact ⟨.refl h, rfl, fun _ _ _ => not_mem_nil⟩
  | cons n ns ih =>
    obtain ⟨hfirst, hwatch, hne⟩ := wake_rouses h n
    obtain ⟨hrest, hwatch', hnot⟩ := ih hfirst.orderly
    refine ⟨hfirst.trans hrest, hwatch'.trans hwatch, fun i hi hd => ?_⟩
    rw [mem_cons, not_or]
    exact ⟨hne i (hrest.asleep i hi hd) hd, hnot i hi hd⟩

/-- Whoever sleeps after a root was heard of did not watch it, and still watches what it did. -/
theorem hear_rouses (h : e.Orderly) (root : Nat) :
    e.Rouses (e.hear root) ∧ ∀ i ∈ (e.hear root).pending, i.dirty = false →
      ∀ r, (r, i.seq) ∈ e.watchers → r ≠ root ∧ (r, i.seq) ∈ (e.hear root).watchers := by
  have hless : ({ e with watchers := e.watchers.filter fun w => w.1 != root } : Engine).Orderly :=
    ⟨⟨h.valid.store, h.valid.ordered, h.valid.bounded⟩, h.nodup, h.queued, h.given⟩
  obtain ⟨hr, hwatch, hnot⟩ := foldl_wake_rouses hless
    (e.watchers.filterMap fun w => if w.1 == root then some w.2 else none)
  refine ⟨⟨⟨hr.work.store_eq, hr.work.waiting_eq, hr.work.added_eq⟩, hr.orderly, hr.asleep,
    hr.queue_subset, hr.seqs_eq⟩, fun i hi hd r hw => ?_⟩
  have hne : r ≠ root := by
    rintro rfl
    apply hnot i hi hd
    exact mem_filterMap.2 ⟨_, hw, by simp⟩
  refine ⟨hne, ?_⟩
  rw [hear, hwatch]
  exact mem_filter.2 ⟨hw, by simpa using hne⟩

theorem foldl_hear_rouses (h : e.Orderly) (roots : List Nat) :
    e.Rouses (roots.foldl hear e) ∧ ∀ i ∈ (roots.foldl hear e).pending, i.dirty = false →
      ∀ r, (r, i.seq) ∈ e.watchers →
        r ∉ roots ∧ (r, i.seq) ∈ (roots.foldl hear e).watchers := by
  induction roots generalizing e with
  | nil => exact ⟨.refl h, fun _ _ _ _ hw => ⟨not_mem_nil, hw⟩⟩
  | cons root roots ih =>
    obtain ⟨hfirst, hkeep⟩ := hear_rouses h root
    obtain ⟨hrest, hkeep'⟩ := ih hfirst.orderly
    refine ⟨hfirst.trans hrest, fun i hi hd r hw => ?_⟩
    obtain ⟨hne, hw₁⟩ := hkeep i (hrest.asleep i hi hd) hd r hw
    obtain ⟨hnot, hw₂⟩ := hkeep' i hi hd r hw₁
    rw [mem_cons, not_or]
    exact ⟨⟨hne, hnot⟩, hw₂⟩

end TensorTyping.Engine
