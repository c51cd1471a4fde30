import TensorTyping.Proofs.Store.Reachable

/-!
# What the trail tells

Every cell that stops being free is written on the trail when it does, and only then. So a free
cell that the trail does not name since some moment is still free, and a type of which no free cell
is named resolves to what it resolved to. No cell is named twice, which bounds the length of the
trail by the number of cells.
-/
namespace TensorTyping

open List

variable {s : Store}

namespace Store

variable {v : Cell} {t : Ty}

/-- The trail names every cell at most once, and none that is free. -/
structure Told (s : Store) : Prop where
  nodup : s.trail.toList.Nodup
  settled : ∀ i ∈ s.trail.toList, i < s.size ∧ s.value (s.cellAt i) ≠ .cell (s.cellAt i)

theorem Told.trail_le {s : Store} (h : s.Told) : s.trail.size ≤ s.size := by
  have hsub : s.trail.toList ⊆ List.range s.size := fun i hi =>
    mem_range.2 (h.settled i hi).1
  have hle := h.nodup.length_le_of_subset hsub
  simpa using hle

theorem told_empty (serial : Serial) : ({ serial } : Store).Told where
  nodup := nodup_nil
  settled := by simp

/-- The trail of the later store tells that the cells `heard` were settled in between. -/
structure Tells (s : Store) (heard : List Nat) (s' : Store) : Prop where
  evolves : s.Evolves s'
  trail_eq : s'.trail.toList = s.trail.toList ++ heard
  kept : ∀ c, s.value c = .cell c → c.index ∉ heard → s'.value c = .cell c
  told : s.Told → s'.Told

/-- Nothing but cells that were free has changed, and the trail tells which. -/
def Narrows (s s' : Store) : Prop := s'.size = s.size ∧ ∃ heard, s.Tells heard s'

namespace Tells

variable {s s' s'' : Store} {heard heard' : List Nat}

theorem trans (h : s.Tells heard s') (h' : s'.Tells heard' s'') :
    s.Tells (heard ++ heard') s'' where
  evolves := h.evolves.trans h'.evolves
  trail_eq := by rw [h'.trail_eq, h.trail_eq, append_assoc]
  kept c hc hnot := by
    rw [mem_append, not_or] at hnot
    exact h'.kept c (h.kept c hc hnot.1) hnot.2
  told ht := h'.told (h.told ht)

theorem heardSince_eq (h : s.Tells heard s') : s'.heardSince s.trail.size = heard := by
  have hdrop : s'.heardSince s.trail.size = s'.trail.toList.drop s.trail.size := by
    rw [heardSince, Array.toList_extract, extract_eq_take_drop]
    exact take_of_length_le (by simp)
  rw [hdrop, h.trail_eq]
  exact drop_left' Array.length_toList

theorem resolve_eq (h : s.Tells heard s') (hs : s.Valid) {t : Ty}
    (hquiet : ∀ c ∈ (s.resolve t).cellOccurrences, c.index ∉ heard) :
    s'.resolve t = s.resolve t := by
  rw [h.evolves.later.resolve_eq]
  apply Ty.mapCells_eq_self
  intro c hc
  exact h.kept c (hs.value_of_mem_resolve hc) (hquiet c hc)

end Tells

variable {s s' s'' : Store}

theorem Kept.told (h : s.Kept s') (ht : s.Told) : s'.Told where
  nodup := by rw [h.view.trail_eq]; exact ht.nodup
  settled i hi := by
    rw [h.view.trail_eq] at hi
    rw [h.view.size_eq, h.view.value_eq, cellAt, h.view.serial_eq]
    exact ht.settled i hi

theorem Kept.tells (h : s.Kept s') : s.Tells [] s' where
  evolves := h.evolves
  trail_eq := by rw [h.view.trail_eq, append_nil]
  kept c hc _ := by rw [h.view.value_eq, hc]
  told := h.told

theorem Kept.narrows (h : s.Kept s') : s.Narrows s' := ⟨h.view.size_eq, [], h.tells⟩

theorem Binds.value_ne (h : s.Binds v t s') : s'.value v ≠ .cell v := by
  intro hv
  rw [h.value_eq, h.free, Ty.mapCells_cell, Ty.assign_self] at hv
  apply h.not_mem
  simp [hv]

theorem Binds.told (h : s.Binds v t s') (hs : s.Valid) (ht : s.Told) : s'.Told where
  nodup := by
    rw [h.trail_eq, Array.toList_push]
    refine nodup_append.2 ⟨ht.nodup, nodup_singleton _, ?_⟩
    rintro i hi j hj rfl
    obtain rfl : i = v.index := by simpa using hj
    -- What the trail names is not free, but `v` is.
    apply (ht.settled _ hi).2
    rw [cellAt_index h.owns, h.free]
  settled i hi := by
    rw [h.trail_eq, Array.toList_push, mem_append] at hi
    have hcell : s'.cellAt i = s.cellAt i := by rw [cellAt, cellAt, h.serial_eq]
    rw [h.size_eq, hcell]
    rcases hi with hi | hi
    · exact ⟨(ht.settled i hi).1, fun hfree => (ht.settled i hi).2 (h.free_of_free hs hfree)⟩
    · obtain rfl : i = v.index := by simpa using hi
      rw [cellAt_index h.owns]
      exact ⟨(owns_iff.1 h.owns).2, h.value_ne⟩

theorem Binds.tells (h : s.Binds v t s') (hs : s.Valid) : s.Tells [v.index] s' where
  evolves := h.evolves hs
  trail_eq := by rw [h.trail_eq, Array.toList_push]
  kept c hc hnot := by
    have hne : c ≠ v := by
      rintro rfl
      simp at hnot
    rw [h.value_eq, hc, Ty.mapCells_cell, Ty.assign_of_ne _ hne]
  told := h.told hs

theorem Binds.narrows (h : s.Binds v t s') (hs : s.Valid) : s.Narrows s' :=
  ⟨h.size_eq, _, h.tells hs⟩

theorem Valid.fresh_tells (h : s.Valid) : s.Tells [] s.fresh.2 where
  evolves := ⟨h.fresh, h.extends_fresh⟩
  trail_eq := (append_nil _).symm
  kept c hc _ := by rw [h.value_fresh, hc]
  told ht :=
    { nodup := ht.nodup
      settled := fun i hi => by
        have hcell : s.fresh.2.cellAt i = s.cellAt i := rfl
        rw [size_fresh, hcell, h.value_fresh]
        exact ⟨(ht.settled i hi).1.trans (Nat.lt_succ_self _), (ht.settled i hi).2⟩ }

theorem Narrows.trans (h : s.Narrows s') (h' : s'.Narrows s'') : s.Narrows s'' := by
  obtain ⟨hsize, heard, htells⟩ := h
  obtain ⟨hsize', heard', htells'⟩ := h'
  exact ⟨hsize'.trans hsize, _, htells.trans htells'⟩

end Store

namespace StoreM

open Store

variable {s : Store}

theorem bind_narrows (h : s.Valid) (v t : Ty) (site : Option Phrase) :
    s.Narrows (endState (bind v t site) s) := by
  have ho := bind_outcome h v t site
  unfold endState
  generalize bind v t site s = r at ho ⊢
  cases ho with
  | foreign _ hk => exact hk.narrows
  | notFree _ hk => exact hk.narrows
  | already _ _ hk => exact hk.narrows
  | occurs _ _ _ hk => exact hk.narrows
  | binds _ hb => exact hb.narrows h

theorem upkeep_narrows {site : Option Phrase} :
    Upkeep site (fun _ _ => True) Narrows fun _ _ => True :=
  .of_forall Kept.narrows .trans fun h hb => hb.narrows h

theorem unifyPair_narrows (h : s.Valid) (x y : Ty) (site : Option Phrase) :
    s.Narrows (endState (unifyPair site x y) s) :=
  (upkeep_narrows.pair h trivial).endState (fun _ _ hr => hr.2.1) fun _ _ hr => hr.1

theorem unify_narrows (h : s.Valid) (a b : Ty) (site : Option Phrase) :
    s.Narrows (endState (unify a b site) s) :=
  upkeep_narrows.endState_unify h a b

theorem narrows_of_unify (h : s.Valid) {a b : Ty} {site : Option Phrase} {s' : Store}
    (hrun : unify a b site s = .ok () s') : s.Narrows s' := by
  have hnarrows := unify_narrows h a b site
  rwa [endState_of_ok hrun] at hnarrows

end StoreM

/-- Whatever is done to a store, its trail tells which cells were settled. -/
theorem Store.Valid.after_tells (h : s.Valid) (op : Operation) :
    ∃ heard, s.Tells heard (s.after op) := by
  cases op with
  | fresh => exact ⟨_, h.fresh_tells⟩
  | find | resolve | freeCells => exact (h.after_kept rfl).narrows.2
  | bind v t site => exact (StoreM.bind_narrows h v t site).2
  | unify a b site => exact (StoreM.unify_narrows h a b site).2

theorem Store.Valid.afterAll_told (h : s.Valid) (ht : s.Told) (ops : List Operation) :
    (s.afterAll ops).Told := by
  induction ops generalizing s with
  | nil => exact ht
  | cons op ops ih =>
    obtain ⟨heard, htells⟩ := h.after_tells op
    exact ih htells.evolves.valid (htells.told ht)

theorem Store.Reachable.told (h : s.Reachable) : s.Told := by
  obtain ⟨serial, ops, rfl⟩ := h
  exact (valid_empty serial).afterAll_told (told_empty serial) ops

end TensorTyping
