import TensorTyping.Proofs.Store.Graph

/-!
# Resolution

In a valid store every cell has a value: the type that is left when all that is known has been put
in. The value of a linked cell is that of its target, a bound cell has the value of its type, and
any other cell stands for itself. No other assignment of types to cells satisfies these equations,
and this is how the value after a change is found.

Resolving a type replaces each of its cells with the value. The bound on nested cells is never
reached, so the recursion that `resolve` stands for ends; what it leaves are free cells, and
resolving again changes nothing.
-/
namespace TensorTyping

namespace Store

/-- What a type stands for at the top. -/
def top (s : Store) : Ty → Ty
  | .cell c => s.peek c
  | t => t

/-- The value of a cell. -/
def value (s : Store) (c : Cell) : Ty := s.resolve (.cell c)

/-- What the store says of a cell, given what it is to say of the others. -/
def expand (s : Store) (f : Cell → Ty) (c : Cell) : Ty :=
  if s.owns c then
    match s.slots[c.index]? with
    | some (.link j) => f (s.cellAt j)
    | some (.bound t) => t.mapCells f
    | _ => .cell c
  else .cell c

theorem top_of_not_cell (s : Store) {t : Ty} (ht : t.isCell = false) : s.top t = t := by
  cases t <;> first | rfl | simp at ht

theorem resolveWithin_succ (s : Store) (fuel : Nat) (t : Ty) :
    s.resolveWithin (fuel + 1) t = t.mapCells fun c =>
      if (s.peek c).isCell then s.peek c else s.resolveWithin fuel (s.peek c) := by
  rw [resolveWithin]
  refine Ty.mapCells_congr fun c _ => ?_
  cases s.peek c <;> rfl

theorem resolve_eq (s : Store) (t : Ty) : s.resolve t = t.mapCells s.value := by
  rw [resolve, resolveWithin_succ]
  refine Ty.mapCells_congr fun c _ => ?_
  rw [value, resolve, resolveWithin_succ, Ty.mapCells_cell]

theorem exists_slot {s : Store} {i : Nat} (hi : i < s.size) : ∃ x, s.slots[i]? = some x :=
  ⟨_, Array.getElem?_eq_getElem hi⟩

theorem peek_foreign {s : Store} {c : Cell} (hc : s.owns c = false) : s.peek c = .cell c := by
  simp [peek, hc]

theorem IsRoot.free_or_bound {s : Store} {r : Nat} (hr : s.IsRoot r) (h : r < s.size) :
    s.slots[r]? = some .free ∨ ∃ t, s.slots[r]? = some (.bound t) := by
  obtain ⟨x, hx⟩ := exists_slot h
  cases x with
  | free => exact .inl hx
  | link j => exact absurd hx (hr j)
  | bound t => exact .inr ⟨t, hx⟩

namespace Valid

variable {s : Store}
variable {c d : Cell} {t : Ty}

section

variable (h : s.Valid)

include h

/-- A cell of the store stands for its root, which is free, or for what its root is bound to. -/
theorem peek_cases (hc : s.owns c = true) :
    (s.slots[s.root c.index]? = some .free ∧ s.peek c = .cell (s.cellAt (s.root c.index))) ∨
      ∃ t, s.slots[s.root c.index]? = some (.bound t) ∧ s.peek c = t := by
  have hi := (owns_iff.1 hc).2
  rcases (h.isRoot_root hi).free_or_bound (h.root_lt hi) with hf | ⟨t, ht⟩
  · exact .inl ⟨hf, by simp [peek, hc, hf]⟩
  · exact .inr ⟨t, ht, by simp [peek, hc, ht]⟩

theorem rank_lt_of_peek (hc : s.owns c = true) (hp : (s.peek c).isCell = false)
    (hd : d ∈ (s.peek c).cellOccurrences) : s.owns d = true ∧ h.rank d.index < h.rank c.index := by
  rcases h.peek_cases hc with ⟨_, he⟩ | ⟨t, ht, he⟩
  · rw [he] at hp
    exact absurd hp (by simp)
  · rw [he] at hd
    have hneed : s.Needs (s.root c.index) d.index := .inr ⟨t, ht, d, hd, rfl⟩
    exact ⟨h.owned ht d hd, (h.rank_lt_of_needs hneed).trans_le
      (h.rank_le_of_path (h.path_root (owns_iff.1 hc).2))⟩

omit h in
theorem resolveWithin_foreign (fuel : Nat) (ht : ∀ c ∈ t.cellOccurrences, s.owns c = false) :
    s.resolveWithin fuel t = t := by
  cases fuel with
  | zero => rfl
  | succ fuel =>
    rw [resolveWithin_succ]
    refine Ty.mapCells_eq_self fun c hc => ?_
    simp [peek_foreign (ht c hc)]

theorem foreign_of_rank (ht : ∀ c ∈ t.cellOccurrences, s.owns c = true → h.rank c.index < 0) :
    ∀ c ∈ t.cellOccurrences, s.owns c = false := by
  intro c hc
  cases ho : s.owns c with
  | false => rfl
  | true => exact absurd (ht c hc ho) (Nat.not_lt_zero _)

/-- Fuel above the rank of every cell makes no difference. -/
theorem resolveWithin_stable {m n : Nat}
    (hm : ∀ c ∈ t.cellOccurrences, s.owns c = true → h.rank c.index < m)
    (hn : ∀ c ∈ t.cellOccurrences, s.owns c = true → h.rank c.index < n) :
    s.resolveWithin m t = s.resolveWithin n t := by
  induction m generalizing n t with
  | zero =>
    have ht := h.foreign_of_rank hm
    rw [resolveWithin_foreign 0 ht, resolveWithin_foreign n ht]
  | succ m ih =>
    cases n with
    | zero =>
      have ht := h.foreign_of_rank hn
      rw [resolveWithin_foreign _ ht, resolveWithin_foreign 0 ht]
    | succ n =>
      rw [resolveWithin_succ, resolveWithin_succ]
      refine Ty.mapCells_congr fun c hc => ?_
      cases hp : (s.peek c).isCell with
      | true => rfl
      | false =>
        cases ho : s.owns c with
        | false =>
          rw [peek_foreign ho] at hp
          exact absurd hp (by simp)
        | true =>
          -- The cells in what the cell is bound to have a lower rank, so one less is enough.
          have hlt {k : Nat} (hk : h.rank c.index < k + 1) :
              ∀ d ∈ (s.peek c).cellOccurrences, s.owns d = true → h.rank d.index < k := by
            intro d hd _
            have := (h.rank_lt_of_peek ho hp hd).2
            omega
          exact ih (hlt (hm c hc ho)) (hlt (hn c hc ho))

theorem value_eq (c : Cell) :
    s.value c = if (s.peek c).isCell then s.peek c else s.resolve (s.peek c) := by
  rw [value, resolve, resolveWithin_succ, Ty.mapCells_cell]
  cases hp : (s.peek c).isCell with
  | true => rfl
  | false =>
    cases ho : s.owns c with
    | false =>
      rw [peek_foreign ho] at hp
      exact absurd hp (by simp)
    | true =>
      refine h.resolveWithin_stable (fun d hd hod => ?_) (fun d hd hod => ?_)
      · exact h.rank_lt_size (owns_iff.1 hod).2
      · exact (h.rank_lt_size (owns_iff.1 hod).2).trans (Nat.lt_succ_self _)

theorem peek_of_value (hc : s.value c = .cell c) : s.peek c = .cell c := by
  rw [h.value_eq] at hc
  split at hc
  · exact hc
  · next hpeek =>
    rw [Store.resolve_eq, Ty.mapCells_of_not_cell _ (by simpa using hpeek)] at hc
    have hcell := congrArg Ty.isCell hc
    rw [Ty.isCell_mapChildren] at hcell
    exact absurd hcell hpeek

theorem value_foreign (hc : s.owns c = false) : s.value c = .cell c := by
  rw [h.value_eq, peek_foreign hc]
  rfl

theorem value_of_root (hc : s.owns c = true) (hd : s.owns d = true)
    (hr : s.root c.index = s.root d.index) : s.value c = s.value d := by
  have hp : s.peek c = s.peek d := by simp [peek, hc, hd, hr]
  rw [h.value_eq, h.value_eq, hp]

theorem value_link {j : Nat} (hc : s.owns c = true) (hj : s.Link c.index j) :
    s.value c = s.value (s.cellAt j) :=
  h.value_of_root hc (owns_cellAt.2 (h.link_lt hj)) (h.root_of_link hj)

theorem value_free (hc : s.owns c = true) (hf : s.slots[c.index]? = some .free) :
    s.value c = .cell c := by
  have hr := h.root_of_isRoot (owns_iff.1 hc).2 (isRoot_of_free hf)
  have hp : s.peek c = .cell c := by simp [peek, hc, hr, hf, cellAt_index hc]
  rw [h.value_eq, hp]
  rfl

theorem value_bound (hc : s.owns c = true) (ht : s.slots[c.index]? = some (.bound t)) :
    s.value c = s.resolve t := by
  have hr := h.root_of_isRoot (owns_iff.1 hc).2 (isRoot_of_bound ht)
  have hp : s.peek c = t := by simp [peek, hc, hr, ht]
  rw [h.value_eq, hp, h.proper ht]
  rfl

theorem value_eq_expand (c : Cell) : s.value c = s.expand s.value c := by
  cases hc : s.owns c with
  | false => simpa [expand, hc] using h.value_foreign hc
  | true =>
    obtain ⟨x, hx⟩ := exists_slot (owns_iff.1 hc).2
    cases x with
    | free => simpa [expand, hc, hx] using h.value_free hc hx
    | link j => simpa [expand, hc, hx] using h.value_link hc hx
    | bound t => simpa [expand, hc, hx] using (h.value_bound hc hx).trans (s.resolve_eq t)

/-- Induction along the edges of the graph, from what lies behind a cell to the cell. -/
theorem cell_induction {P : Cell → Prop}
    (step : ∀ c, (∀ d, s.owns c = true → s.owns d = true → s.Needs c.index d.index → P d) → P c)
    (c : Cell) : P c := by
  induction hn : h.rank c.index using Nat.strongRecOn generalizing c with
  | ind n ih =>
    refine step c fun d _ _ hcd => ?_
    exact ih _ (hn ▸ h.rank_lt_of_needs hcd) d rfl

/-- Values are the only solution of the equations of a store. -/
theorem value_unique {f : Cell → Ty} (hf : ∀ c, f c = s.expand f c) (c : Cell) :
    f c = s.value c := by
  induction c using h.cell_induction with
  | step c ih =>
    rw [hf, h.value_eq_expand, expand, expand]
    cases hc : s.owns c with
    | false => rfl
    | true =>
      simp only [if_true]
      split
      · next j hj =>
        have hl : s.Link c.index j := hj
        exact ih (s.cellAt j) hc (owns_cellAt.2 (h.link_lt hl)) (.inl hl)
      · next t ht =>
        exact Ty.mapCells_congr fun d hd => ih d hc (h.owned ht d hd) (.inr ⟨t, ht, d, hd, rfl⟩)
      · rfl

/-- What is left in a value are free cells. -/
theorem free_of_mem_value (hc : s.owns c = true) (hd : d ∈ (s.value c).cellOccurrences) :
    s.owns d = true ∧ s.slots[d.index]? = some .free := by
  induction c using h.cell_induction with
  | step c ih =>
    obtain ⟨x, hx⟩ := exists_slot (owns_iff.1 hc).2
    cases x with
    | free =>
      rw [h.value_free hc hx, Ty.cellOccurrences_cell, List.mem_singleton] at hd
      exact hd ▸ ⟨hc, hx⟩
    | link j =>
      have hj := owns_cellAt.2 (h.link_lt hx)
      rw [h.value_link hc hx] at hd
      exact ih (s.cellAt j) hc hj (.inl hx) hj hd
    | bound t =>
      rw [h.value_bound hc hx, s.resolve_eq, Ty.mem_cellOccurrences_mapCells] at hd
      obtain ⟨e, he, hd⟩ := hd
      have hoe := h.owned hx e he
      exact ih e hc hoe (.inr ⟨t, hx, e, he, rfl⟩) hoe hd

theorem free_of_mem_resolve (ht : s.ownsAll t = true) (hd : d ∈ (s.resolve t).cellOccurrences) :
    s.owns d = true ∧ s.slots[d.index]? = some .free := by
  rw [s.resolve_eq, Ty.mem_cellOccurrences_mapCells] at hd
  obtain ⟨c, hc, hd⟩ := hd
  exact h.free_of_mem_value (ownsAll_iff.1 ht c hc) hd

theorem value_of_mem_value (hd : d ∈ (s.value c).cellOccurrences) : s.value d = .cell d := by
  cases hc : s.owns c with
  | false =>
    rw [h.value_foreign hc, Ty.cellOccurrences_cell, List.mem_singleton] at hd
    rw [hd, h.value_foreign hc]
  | true =>
    obtain ⟨ho, hf⟩ := h.free_of_mem_value hc hd
    exact h.value_free ho hf

theorem value_of_mem_resolve (hd : d ∈ (s.resolve t).cellOccurrences) : s.value d = .cell d := by
  rw [s.resolve_eq, Ty.mem_cellOccurrences_mapCells] at hd
  obtain ⟨c, _, hd⟩ := hd
  exact h.value_of_mem_value hd

theorem resolve_value (c : Cell) : s.resolve (s.value c) = s.value c := by
  rw [s.resolve_eq]
  exact Ty.mapCells_eq_self fun d hd => h.value_of_mem_value hd

theorem resolve_resolve (t : Ty) : s.resolve (s.resolve t) = s.resolve t := by
  rw [s.resolve_eq t, s.resolve_eq, Ty.mapCells_mapCells]
  exact Ty.mapCells_congr fun c _ => by rw [← s.resolve_eq, h.resolve_value]

/-- Every free cell that lies behind a cell occurs in its value. -/
theorem mem_value_of_path {v : Nat} (hc : s.owns c = true) (hv : s.slots[v]? = some .free)
    (hp : Relation.ReflTransGen s.Needs c.index v) : s.cellAt v ∈ (s.value c).cellOccurrences := by
  induction c using h.cell_induction with
  | step c ih =>
    cases hp using Relation.ReflTransGen.head_induction_on with
    | refl =>
      rw [h.value_free hc hv, cellAt_index hc]
      simp
    | @head _ j hij hjv =>
      rcases hij with hij | ⟨t, ht, d, hd, rfl⟩
      · have hj := owns_cellAt.2 (h.link_lt hij)
        rw [h.value_link hc hij]
        exact ih (s.cellAt j) hc hj (.inl hij) hj hjv
      · have hod := h.owned ht d hd
        rw [h.value_bound hc ht, s.resolve_eq, Ty.mem_cellOccurrences_mapCells]
        exact ⟨d, hd, ih d hc hod (.inr ⟨t, ht, d, hd, rfl⟩) hod hjv⟩

theorem top_eq_cell (ht : s.ownsAll t = true) (hc : s.top t = .cell c) :
    s.owns c = true ∧ s.slots[c.index]? = some .free := by
  cases t with
  | cell d =>
    have hd : s.owns d = true := ownsAll_iff.1 ht d (by simp)
    rcases h.peek_cases hd with ⟨hf, hp⟩ | ⟨u, hu, hp⟩
    · have : s.cellAt (s.root d.index) = c := by
        have := hp.symm.trans hc
        simpa using this
      subst this
      exact ⟨owns_cellAt.2 (h.root_lt (owns_iff.1 hd).2), hf⟩
    · have hu' := h.proper hu
      have : u = .cell c := hp.symm.trans hc
      simp [this] at hu'
  | _ => simp [top] at hc

theorem resolve_top (t : Ty) : s.resolve (s.top t) = s.resolve t := by
  cases ht : t.isCell with
  | false => rw [s.top_of_not_cell ht]
  | true =>
    obtain ⟨c, rfl⟩ := Ty.isCell_iff.1 ht
    have hv := h.value_eq c
    cases hp : (s.peek c).isCell with
    | false =>
      rw [hp] at hv
      exact hv.symm
    | true =>
      rw [hp, if_pos rfl] at hv
      calc s.resolve (s.peek c) = s.resolve (s.value c) := by rw [hv]
        _ = s.value c := h.resolve_value c

theorem free_iff_peek (hc : s.owns c = true) :
    s.slots[c.index]? = some .free ↔ s.peek c = .cell c := by
  have hi := (owns_iff.1 hc).2
  constructor
  · intro hf
    have hr := h.root_of_isRoot hi (isRoot_of_free hf)
    simp [peek, hc, hr, hf, cellAt_index hc]
  · intro hp
    rcases h.peek_cases hc with ⟨hf, he⟩ | ⟨t, ht, he⟩
    · have hcell : s.cellAt (s.root c.index) = c := by simpa using he.symm.trans hp
      have hroot : s.root c.index = c.index := congrArg Cell.index hcell
      rwa [hroot] at hf
    · have hproper := h.proper ht
      rw [he.symm.trans hp] at hproper
      simp at hproper

theorem top_top (t : Ty) : s.top (s.top t) = s.top t := by
  cases t with
  | cell c =>
    cases hc : s.owns c with
    | false => simp only [top, peek_foreign hc]
    | true =>
      have hi := (owns_iff.1 hc).2
      rcases h.peek_cases hc with ⟨hf, hp⟩ | ⟨u, hu, hp⟩
      · have ho : s.owns (s.cellAt (s.root c.index)) = true := owns_cellAt.2 (h.root_lt hi)
        simp only [top, hp]
        exact (h.free_iff_peek ho).1 hf
      · simp only [top, hp]
        exact s.top_of_not_cell (h.proper hu)
  | _ => rfl

theorem resolve_of_top (hc : s.top t = .cell c) : s.resolve t = .cell c := by
  have hpeek : s.peek c = .cell c := by
    have htop := h.top_top t
    rwa [hc] at htop
  rw [← h.resolve_top, hc]
  exact (h.value_eq c).trans (by simp [hpeek])

/-- A type stands for a cell exactly if it resolves to one. -/
theorem isCell_top (t : Ty) : (s.top t).isCell = (s.resolve t).isCell := by
  have hproper {u : Ty} (hu : u.isCell = false) : (s.resolve u).isCell = false := by
    rw [s.resolve_eq, Ty.mapCells_of_not_cell _ hu, Ty.isCell_mapChildren, hu]
  cases ht : t.isCell with
  | false => rw [s.top_of_not_cell ht, ht, hproper ht]
  | true =>
    obtain ⟨c, rfl⟩ := Ty.isCell_iff.1 ht
    have hvalue : s.resolve (.cell c) =
        if (s.peek c).isCell then s.peek c else s.resolve (s.peek c) := h.value_eq c
    rw [hvalue, top]
    split
    · rfl
    · next hpeek => rw [Bool.not_eq_true] at hpeek; rw [hpeek, hproper hpeek]

theorem ownsAll_top (ht : s.ownsAll t = true) : s.ownsAll (s.top t) = true := by
  cases t with
  | cell c =>
    have hc : s.owns c = true := ownsAll_iff.1 ht c (by simp)
    rcases h.peek_cases hc with ⟨_, hp⟩ | ⟨u, hu, hp⟩
    · simp only [top, hp, ownsAll_iff, Ty.cellOccurrences_cell, List.mem_singleton]
      rintro _ rfl
      exact owns_cellAt.2 (h.root_lt (owns_iff.1 hc).2)
    · simp only [top, hp]
      exact ownsAll_iff.2 (h.owned hu)
  | _ => exact ht

theorem ownsAll_of_top_false (ht : s.ownsAll (s.top t) = false) : s.ownsAll t = false := by
  cases hall : s.ownsAll t with
  | false => rfl
  | true => exact (h.ownsAll_top hall).symm.trans ht

end

end Valid

/-- Resolution as a recursion without a bound: each cell stands for its root, or else for what
comes of resolving the type that its root is bound to. -/
inductive Resolves (s : Store) : Ty → Ty → Prop
  | intro (t : Ty) (f : Cell → Ty)
      (free : ∀ c ∈ t.cellOccurrences, (s.peek c).isCell = true → f c = s.peek c)
      (bound : ∀ c ∈ t.cellOccurrences, (s.peek c).isCell = false → Resolves s (s.peek c) (f c)) :
      Resolves s t (t.mapCells f)

/-- The recursion ends, with the result that `resolve` gives. -/
theorem Valid.resolves_resolve {s : Store} (h : s.Valid) (t : Ty) : s.Resolves t (s.resolve t) := by
  have hcell : ∀ c, (s.peek c).isCell = false → s.Resolves (s.peek c) (s.value c) := by
    intro c
    induction hn : h.rank c.index using Nat.strongRecOn generalizing c with
    | ind n ih =>
      intro hp
      cases hc : s.owns c with
      | false =>
        rw [peek_foreign hc] at hp
        exact absurd hp (by simp)
      | true =>
        have hv : s.value c = (s.peek c).mapCells s.value := by
          rw [h.value_eq, hp, ← s.resolve_eq]
          rfl
        rw [hv]
        refine .intro _ _ (fun d _ hd => ?_) (fun d hd hpd => ?_)
        · rw [h.value_eq, hd]
          rfl
        · exact ih _ (hn ▸ (h.rank_lt_of_peek hc hp hd).2) d rfl hpd
  rw [s.resolve_eq]
  refine .intro t s.value (fun c _ hp => ?_) (fun c _ hp => hcell c hp)
  rw [h.value_eq, hp]
  rfl

end Store

end TensorTyping
