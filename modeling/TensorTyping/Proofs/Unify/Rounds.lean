import TensorTyping.Proofs.Unify.Agreement

/-!
# Unification ends

The pairs of a round lie one level deeper in the types that unification started from than those of
the round before, whatever is put in for their cells. A resolved type is no more deeply nested than
its own height and that of one bound type for each cell, because cells of falling rank are nested in
it. So the bound on rounds is never reached.
-/
namespace TensorTyping

open List

variable {t x y : Ty} {ps : List (Ty × Ty)}

namespace Ty

variable {ts : List Ty}
variable {n : Nat} {f : Cell → Ty}

theorem heightList_le_iff : heightList ts ≤ n ↔ ∀ t ∈ ts, t.height ≤ n := by
  induction ts with
  | nil => simp [heightList]
  | cons t ts ih => simp [heightList, ih]

theorem height_le_heightList (ht : t ∈ ts) : t.height ≤ heightList ts :=
  heightList_le_iff.1 (Nat.le_refl _) t ht

theorem heightList_map_le {h : Ty → Ty} {k : Nat} (hts : heightList ts ≤ n)
    (hh : ∀ t ∈ ts, (h t).height ≤ t.height + k) : heightList (ts.map h) ≤ n + k := by
  refine heightList_le_iff.2 fun u hu => ?_
  obtain ⟨t, ht, rfl⟩ := mem_map.1 hu
  have := heightList_le_iff.1 hts t ht
  have := hh t ht
  omega

theorem height_mapCells_le {k : Nat} (h : ∀ c ∈ t.cellOccurrences, (f c).height ≤ k) :
    (t.mapCells f).height ≤ t.height + k := by
  induction t using induction_children with
  | step t ih =>
    have hu : ∀ u ∈ t.children, (u.mapCells f).height ≤ u.height + k := fun u hu =>
      ih u hu fun c hc => h c (mem_cellOccurrences_of_child hu hc)
    cases t with
    | cell c =>
      have := h c (by simp)
      simpa [height] using this
    | tuple ts =>
      have := heightList_map_le (Nat.le_refl _) hu
      simp only [children] at this
      simp only [mapCells_tuple, height]
      omega
    | data hd as =>
      have := heightList_map_le (Nat.le_refl _) hu
      simp only [children] at this
      simp only [mapCells_data, height]
      omega
    | func as r ps rs =>
      have has := heightList_map_le (Nat.le_refl (heightList as)) fun u hm =>
        hu u (by simp [hm])
      have hr := hu r (by simp)
      simp only [mapCells_func, height]
      omega
    | tensor | param | handle => simp [height]

theorem height_lt_of_parts (hps : Ty.parts x y = .ok ps) {p : Ty × Ty} (hp : p ∈ ps) :
    (p.1.mapCells f).height < (x.mapCells f).height ∧
      (p.2.mapCells f).height < (y.mapCells f).height := by
  have hzip {as bs : List Ty} (hm : p ∈ as.zip bs) :
      (p.1.mapCells f).height ≤ heightList (as.map (mapCells f)) ∧
        (p.2.mapCells f).height ≤ heightList (bs.map (mapCells f)) := by
    obtain ⟨h₁, h₂⟩ := of_mem_zip (a := p.1) (b := p.2) hm
    exact ⟨height_le_heightList (mem_map_of_mem h₁),
      height_le_heightList (mem_map_of_mem h₂)⟩
  cases splits_of_parts hps with
  | tensor => simp at hp
  | tuple | data =>
    have := hzip hp
    simp only [mapCells_tuple, mapCells_data, height]
    omega
  | @func as bs r q =>
    simp only [mapCells_func, height]
    rcases mem_append.1 hp with hp | hp
    · have := hzip hp
      omega
    · obtain rfl : p = (r, q) := by simpa using hp
      dsimp only
      omega

end Ty

namespace Store

variable {s : Store} {H : Nat}

theorem Valid.height_value_le (h : s.Valid) (hH : s.height ≤ H) {c : Cell} (hc : s.owns c = true) :
    (s.value c).height ≤ H * (h.rank c.index + 1) := by
  induction c using h.cell_induction with
  | step c ih =>
    have hle {d : Cell} (hd : s.owns d = true) (hcd : s.Needs c.index d.index) :
        (s.value d).height ≤ H * h.rank c.index :=
      (ih d hc hd hcd hd).trans (Nat.mul_le_mul_left H (h.rank_lt_of_needs hcd))
    obtain ⟨x, hx⟩ := exists_slot (owns_iff.1 hc).2
    cases x with
    | free =>
      rw [h.value_free hc hx]
      exact Nat.zero_le _
    | link j =>
      rw [h.value_link hc hx, Nat.mul_succ]
      exact (hle (owns_cellAt.2 (h.link_lt hx)) (.inl hx)).trans (Nat.le_add_right _ _)
    | bound t =>
      have ht := (h.height_le hx).trans hH
      have := Ty.height_mapCells_le (f := s.value) (t := t) fun d hd =>
        hle (h.owned hx d hd) (.inr ⟨t, hx, d, hd, rfl⟩)
      rw [h.value_bound hc hx, s.resolve_eq, Nat.mul_succ]
      omega

/-- A bound on the height of every resolved type. -/
theorem Valid.height_resolve_le (h : s.Valid) (hH : s.height ≤ H) (ht : t.height ≤ H) :
    (s.resolve t).height ≤ H * (s.size + 1) := by
  have hcells : ∀ c ∈ t.cellOccurrences, (s.value c).height ≤ H * s.size := by
    intro c _
    cases hc : s.owns c with
    | false =>
      rw [h.value_foreign hc]
      exact Nat.zero_le _
    | true =>
      exact (h.height_value_le hH hc).trans
        (Nat.mul_le_mul_left H (h.rank_lt_size (owns_iff.1 hc).2))
  have := Ty.height_mapCells_le hcells
  rw [s.resolve_eq, Nat.mul_succ]
  omega

/-- Whatever comes in for the cells, `x` is less high than `a` by at least `k`. -/
def Below (s : Store) (k : Nat) (a x : Ty) : Prop :=
  ∀ f : Cell → Ty, k + ((s.resolve x).mapCells f).height ≤ ((s.resolve a).mapCells f).height

theorem Extends.below {s' : Store} (h : s.Extends s') {k : Nat} {a : Ty} (hx : s.Below k a x) :
    s'.Below k a x := by
  intro f
  rw [h.resolve_eq, h.resolve_eq, Ty.mapCells_mapCells, Ty.mapCells_mapCells]
  exact hx _

/-- The pairs of the `k`-th round of a unification that started from `a`. -/
structure RoundAt (s : Store) (H k : Nat) (a : Ty) (pairs : List (Ty × Ty)) : Prop where
  height_le : s.height ≤ H
  pair_le : ∀ p ∈ pairs, p.1.height ≤ H ∧ p.2.height ≤ H
  below : ∀ p ∈ pairs, s.Below k a p.1

theorem Valid.height_top_le (h : s.Valid) (hH : s.height ≤ H) (ht : t.height ≤ H) :
    (s.top t).height ≤ H := by
  cases t with
  | cell c =>
    cases hc : s.owns c with
    | false =>
      simp only [top, peek_foreign hc]
      exact Nat.zero_le _
    | true =>
      rcases h.peek_cases hc with ⟨_, hp⟩ | ⟨u, hu, hp⟩
      · simp only [top, hp]
        exact Nat.zero_le _
      · simp only [top, hp]
        exact (h.height_le hu).trans hH
  | _ => exact ht

end Store

namespace StoreM

variable {pairs : List (Ty × Ty)}

open Store

variable {s s' : Store} {site : Option Phrase} {H k : Nat} {a : Ty}
variable {b : Ty}

theorem unifyPair_roundAt (h : s.Valid) (hinv : s.RoundAt H k a [(x, y)])
    (hrun : unifyPair site x y s = .ok ps s') : s'.RoundAt H (k + 1) a ps ∧ s'.size = s.size := by
  obtain ⟨hx, hy⟩ : x.height ≤ H ∧ y.height ≤ H := hinv.pair_le (x, y) (by simp)
  have htx := h.height_top_le hinv.height_le hx
  have hty := h.height_top_le hinv.height_le hy
  cases unifyPair_cases h hrun with
  | same _ hk =>
    exact ⟨⟨hk.view.height_eq ▸ hinv.height_le, by simp, by simp⟩, hk.view.size_eq⟩
  | @binds _ r u hxy hb =>
    have hu : u.height ≤ H := by
      rcases hxy with ⟨_, rfl⟩ | ⟨_, rfl⟩
      · exact hty
      · exact htx
    have hle := hb.height_le.trans
      (Nat.max_le.2 ⟨hinv.height_le, h.height_top_le hinv.height_le hu⟩)
    exact ⟨⟨hle, by simp, by simp⟩, hb.size_eq⟩
  | parts _ _ _ hparts hk =>
    refine ⟨⟨hk.view.height_eq ▸ hinv.height_le, fun p hp => ?_, fun p hp f => ?_⟩,
      hk.view.size_eq⟩
    · have := Ty.height_lt_of_parts (f := .cell) hparts hp
      simp only [Ty.mapCells_id] at this
      omega
    · have hbelow := hinv.below (x, y) (by simp) f
      have hlt := (Ty.height_lt_of_parts (f := fun c => (s.value c).mapCells f) hparts hp).1
      simp only [← Ty.mapCells_mapCells, ← s.resolve_eq, h.resolve_top] at hlt
      rw [hk.view.resolve_eq, hk.view.resolve_eq]
      simp only at hbelow
      omega

theorem unifyRound_roundAt (h : s.Valid) (hinv : s.RoundAt H k a pairs)
    (hrun : unifyRound site pairs s = .ok ps s') :
    s'.RoundAt H (k + 1) a ps ∧ s'.size = s.size := by
  induction pairs generalizing s ps with
  | nil =>
    cases hrun
    exact ⟨⟨hinv.height_le, by simp, by simp⟩, rfl⟩
  | cons p pairs ih =>
    obtain ⟨parts, s₁, hpair, hrun⟩ := bind_eq_ok hrun
    obtain ⟨rest, s₂, hround, hrun⟩ := bind_eq_ok hrun
    cases hrun
    obtain ⟨hvalid, hs₁, -⟩ := (upkeep_evolves.pair h trivial).of_ok hpair
    obtain ⟨-, hs₂, -⟩ := upkeep_evolves.turns (unifyRound_turns hround []) hvalid fun _ _ => trivial
    have hhead : s.RoundAt H k a [p] :=
      ⟨hinv.height_le, fun q hq => hinv.pair_le q (by simp_all),
        fun q hq => hinv.below q (by simp_all)⟩
    obtain ⟨hparts, hsize₁⟩ := unifyPair_roundAt h hhead hpair
    have htail : s₁.RoundAt H k a pairs :=
      ⟨hparts.height_le, fun q hq => hinv.pair_le q (by simp [hq]),
        fun q hq => hs₁.later.below (hinv.below q (by simp [hq]))⟩
    obtain ⟨hrest, hsize₂⟩ := ih hvalid htail hround
    refine ⟨⟨hrest.height_le, fun q hq => ?_, fun q hq => ?_⟩, hsize₂.trans hsize₁⟩
    · rcases mem_append.1 hq with hq | hq
      · exact hparts.pair_le q hq
      · exact hrest.pair_le q hq
    · rcases mem_append.1 hq with hq | hq
      · exact hs₂.later.below (hparts.below q hq)
      · exact hrest.below q hq

theorem Stops.ne_outOfFuel {l : Loop} {fault : Fault} (hstops : Stops site l fault s')
    (h : l.store.Valid) : fault ≠ .outOfFuel := by
  rintro rfl
  obtain ⟨s₁, x, y, queue, hturns, hpair⟩ := hstops
  have ho := unifyPair_outcome (upkeep_evolves.turns hturns h fun _ _ => trivial).1 x y site
  rw [hpair] at ho
  cases ho

/-- The rounds are enough: there are pairs in the `k`-th round only if `k` is at most the height of
the type that unification started from. -/
theorem unifyWithin_ne_outOfFuel {fuel : Nat} (h : s.Valid) (ha : a.height ≤ H)
    (hinv : s.RoundAt H k a pairs) (hfuel : H * (s.size + 1) < fuel + k) :
    unifyWithin site fuel pairs s ≠ .error .outOfFuel s' := by
  induction fuel generalizing s k pairs with
  | zero =>
    cases pairs with
    | nil => simp [unifyWithin, pure, EStateM.pure]
    | cons p pairs =>
      have hbelow := hinv.below p (by simp) .cell
      have hheight := h.height_resolve_le hinv.height_le ha
      simp only [Ty.mapCells_id] at hbelow
      omega
  | succ fuel ih =>
    cases pairs with
    | nil => simp [unifyWithin, pure, EStateM.pure]
    | cons p pairs =>
      intro hrun
      rcases bind_eq_error hrun with hround | ⟨ps, s₁, hround, hrun⟩
      · exact (unifyRound_stops hround []).ne_outOfFuel h rfl
      · obtain ⟨hvalid, -, -⟩ :=
          upkeep_evolves.turns (unifyRound_turns hround []) h fun _ _ => trivial
        obtain ⟨hinv₁, hsize⟩ := unifyRound_roundAt h hinv hround
        exact ih hvalid hinv₁ (by rw [hsize]; omega) hrun

theorem unify_ne_outOfFuel (h : s.Valid) : unify a b site s ≠ .error .outOfFuel s' := by
  refine unifyWithin_ne_outOfFuel (a := a) (k := 0)
    (H := max s.height (max a.height b.height)) h (by omega) ?_ ?_
  · refine ⟨by omega, fun p hp => ?_, fun p hp f => ?_⟩
    · obtain rfl : p = (a, b) := by simpa using hp
      dsimp only
      omega
    · obtain rfl : p = (a, b) := by simpa using hp
      dsimp only
      omega
  · simp only [rounds, Nat.add_mul, Nat.one_mul]
    omega

/-- A run has rounds enough for every pair that comes up. -/
theorem Upkeep.run {I : Store → Ty × Ty → Prop} {R : Store → Store → Prop}
    {E : Fault → Store → Prop} (hw : Upkeep site I R E) (h : s.Valid) (hab : I s (a, b)) :
    Ends (unify a b site) s (fun _ s' => R s s') fun f s' => R s s' ∧ E f s' := by
  have hends : Ends (unify a b site) s (fun _ s' => R s s')
      fun f s' => R s s' ∧ (f = .outOfFuel ∨ E f s') :=
    .get_bind (hw.within h _ (forall_mem_singleton.2 hab))
  refine ⟨hends.of_ok, fun {f s'} hrun => ?_⟩
  obtain ⟨hr, rfl | hf⟩ := hends.of_error hrun
  · exact absurd hrun (unify_ne_outOfFuel h)
  · exact ⟨hr, hf⟩

end StoreM

end TensorTyping
