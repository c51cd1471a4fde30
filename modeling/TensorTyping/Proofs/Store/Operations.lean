import TensorTyping.Proofs.Effects
import TensorTyping.Proofs.Store.Change

/-!
# Operations on a store

What each operation can do to a valid store. Looking things up only shortens paths (`Kept`).
Binding either settles one free cell (`Binds`), or leaves every answer as it was, because the two
sides are one already or because it stops with a fault. In all cases the store stays valid and is
extended by the later one.
-/
namespace TensorTyping

variable {site : Option Phrase}

/-- The cell that a type is, or else the given one. -/
def Ty.cellOr (c : Cell) : Ty → Cell
  | .cell d => d
  | _ => c

theorem Ty.cellOr_of_not_cell (c : Cell) {t : Ty} (ht : t.isCell = false) : t.cellOr c = c := by
  cases t <;> first | rfl | cases ht

namespace Store

variable {s s' : Store} {v : Cell} {t : Ty}
variable {c : Cell}

/-- The store was only looked at. -/
structure Kept (s s' : Store) : Prop where
  valid : s'.Valid
  view : s.SameView s'

/-- The free cell `v` has come to stand for `t`, in which it does not occur. -/
structure Binds (s : Store) (v : Cell) (t : Ty) (s' : Store) : Prop where
  valid : s'.Valid
  serial_eq : s'.serial = s.serial
  size_eq : s'.size = s.size
  trail_eq : s'.trail = s.trail.push v.index
  height_le : s'.height ≤ max s.height (s.top t).height
  value_eq : ∀ c, s'.value c = (s.value c).mapCells (Ty.assign v (s.resolve t))
  peek_self : ∀ c, s.peek c = .cell v → s'.peek c = s.top t
  peek_of_ne : ∀ c, s.peek c ≠ .cell v → s'.peek c = s.peek c
  leader_eq : ∀ c, s.owns c = true →
    s'.leader c = if s.leader c = v then (s.top t).cellOr v else s.leader c
  owns : s.owns v = true
  free : s.value v = .cell v
  ownsAll : s.ownsAll t = true
  not_mem : v ∉ (s.resolve t).cellOccurrences

/-- A later store: its values absorb those of the earlier one, and a cell that is free in it was
free before. -/
structure Extends (s s' : Store) : Prop where
  serial_eq : s'.serial = s.serial
  size_le : s.size ≤ s'.size
  value_eq : ∀ c, s'.value c = (s.value c).mapCells s'.value
  free : ∀ c, s'.value c = .cell c → s.value c = .cell c

namespace Kept

variable {s s' s'' : Store}

theorem refl (h : s.Valid) : s.Kept s := ⟨h, .refl s⟩

theorem trans (h : s.Kept s') (h' : s'.Kept s'') : s.Kept s'' := ⟨h'.valid, h.view.trans h'.view⟩

end Kept

namespace Extends

variable {s s' s'' : Store}

theorem refl (h : s.Valid) : s.Extends s :=
  ⟨rfl, Nat.le_refl _, fun c => by rw [← s.resolve_eq, h.resolve_value], fun _ hc => hc⟩

section

variable (h : s.Extends s')

include h

theorem trans (h' : s'.Extends s'') : s.Extends s'' where
  serial_eq := h'.serial_eq.trans h.serial_eq
  size_le := h.size_le.trans h'.size_le
  value_eq c :=
    calc s''.value c = (s'.value c).mapCells s''.value := h'.value_eq c
      _ = ((s.value c).mapCells s'.value).mapCells s''.value := by rw [h.value_eq c]
      _ = (s.value c).mapCells fun d => (s'.value d).mapCells s''.value :=
        Ty.mapCells_mapCells _ _ _
      _ = (s.value c).mapCells s''.value := Ty.mapCells_congr fun d _ => (h'.value_eq d).symm
  free c hc := h.free c (h'.free c hc)

theorem resolve_eq (t : Ty) : s'.resolve t = (s.resolve t).mapCells s'.value := by
  rw [s'.resolve_eq, s.resolve_eq, Ty.mapCells_mapCells]
  exact Ty.mapCells_congr fun c _ => h.value_eq c

theorem map_resolve (ts : List Ty) :
    ts.map s'.resolve = (ts.map s.resolve).map (Ty.mapCells s'.value) := by
  simp [h.resolve_eq]

theorem resolve_resolve (t : Ty) : s'.resolve (s.resolve t) = s'.resolve t :=
  (s'.resolve_eq _).trans (h.resolve_eq t).symm

theorem owns (hc : s.owns c = true) : s'.owns c = true := by
  obtain ⟨hs, hi⟩ := owns_iff.1 hc
  exact owns_iff.2 ⟨hs.trans h.serial_eq.symm, hi.trans_le h.size_le⟩

theorem ownsAll {t : Ty} (ht : s.ownsAll t = true) : s'.ownsAll t = true :=
  ownsAll_iff.2 fun c hc => h.owns (ownsAll_iff.1 ht c hc)

end

end Extends

theorem Kept.later (h : s.Kept s') : s.Extends s' where
  serial_eq := h.view.serial_eq
  size_le := Nat.le_of_eq h.view.size_eq.symm
  value_eq c := by rw [← s'.resolve_eq, ← h.view.value_eq c, h.valid.resolve_value]
  free c hc := by rw [← h.view.value_eq c, hc]

theorem Binds.resolve_eq (h : s.Binds v t s') (u : Ty) :
    s'.resolve u = (s.resolve u).mapCells (Ty.assign v (s.resolve t)) := by
  rw [s'.resolve_eq, s.resolve_eq u, Ty.mapCells_mapCells]
  exact Ty.mapCells_congr fun c _ => h.value_eq c

theorem Binds.free_of_free (h : s.Binds v t s') (hs : s.Valid) (hc : s'.value c = .cell c) :
    s.value c = .cell c := by
  rw [h.value_eq] at hc
  cases hd : (s.value c).isCell with
  | false =>
    rw [Ty.mapCells_of_not_cell _ hd] at hc
    have hcell := (s.value c).isCell_mapChildren (Ty.mapCells (Ty.assign v (s.resolve t)))
    rw [hc, hd] at hcell
    simp at hcell
  | true =>
    obtain ⟨d, hd⟩ := Ty.isCell_iff.1 hd
    rw [hd, Ty.mapCells_cell] at hc
    by_cases hdv : d = v
    · -- Then `t` stands for `c`, and what a type stands for is free.
      rw [hdv, Ty.assign_self] at hc
      exact hs.value_of_mem_resolve (t := t) (by simp [hc])
    · rw [Ty.assign_of_ne _ hdv] at hc
      rw [hd, hc]

theorem Binds.later (h : s.Binds v t s') (hs : s.Valid) : s.Extends s' where
  serial_eq := h.serial_eq
  size_le := Nat.le_of_eq h.size_eq.symm
  value_eq c := by rw [← s'.resolve_eq, h.resolve_eq, hs.resolve_value, h.value_eq]
  free _ hc := h.free_of_free hs hc

theorem Binds.resolve_bound (h : s.Binds v t s') : s'.resolve (.cell v) = s'.resolve t := by
  rw [h.resolve_eq t, Ty.mapCells_assign_of_not_mem _ h.not_mem]
  exact (h.value_eq v).trans (by rw [h.free, Ty.mapCells_cell, Ty.assign_self])

theorem Valid.extends_fresh (h : s.Valid) : s.Extends s.fresh.2 where
  serial_eq := rfl
  size_le := by rw [size_fresh]; exact Nat.le_succ _
  value_eq c := by rw [← s.fresh.2.resolve_eq, ← h.value_fresh c, h.fresh.resolve_value]
  free c hc := by rw [← h.value_fresh c, hc]

theorem Valid.binds_link (h : s.Valid) {u : Cell} (hv : s.owns v = true)
    (hfv : s.slots[v.index]? = some .free) (hu : s.owns u = true)
    (hfu : s.slots[u.index]? = some .free) (hne : u ≠ v) :
    s.Binds v (.cell u) (s.settle v.index (.link u.index) 0) := by
  have hres : s.resolve (.cell u) = .cell u := h.value_free hu hfu
  have hback : ¬ Relation.ReflTransGen s.Needs u.index v.index := by
    intro hp
    have hmem := h.mem_value_of_path hu hfv hp
    rw [h.value_free hu hfu, cellAt_index hv, Ty.cellOccurrences_cell, List.mem_singleton] at hmem
    exact hne hmem.symm
  have hvalid : (s.settle v.index (.link u.index) 0).Valid := by
    refine h.settle hv (fun j hj => ?_) (fun t ht => by simp at ht) (fun j hj => ?_)
    · obtain rfl : u.index = j := by simpa using hj
      exact (owns_iff.1 hu).2
    · rcases hj with hj | ⟨t, ht, _⟩
      · obtain rfl : u.index = j := by simpa using hj
        exact hback
      · simp at ht
  have hcell : (s.settle v.index (.link u.index) 0).cellAt u.index = u :=
    cellAt_index ((owns_settle u).trans hu)
  have hslot : (s.settle v.index (.link u.index) 0).slots[u.index]? = some .free := by
    rw [slots_settle hv, if_neg, hfu]
    exact fun e => hne (by rw [← cellAt_index hu, ← cellAt_index hv, e])
  have hroot : (s.settle v.index (.link u.index) 0).root v.index = u.index := by
    rw [hvalid.root_of_link (j := u.index) (by rw [Link, slots_settle hv, if_pos rfl]),
      hvalid.root_of_isRoot (lt_size_of_slot hslot) (isRoot_of_free hslot)]
  have hpeek : (s.settle v.index (.link u.index) 0).peek v = .cell u := by
    simp [peek, owns_settle, hv, hroot, hslot, hcell]
  have hleader : (s.settle v.index (.link u.index) 0).leader v = u := by rw [leader, hroot, hcell]
  have htop : s.top (.cell u) = .cell u := (h.free_iff_peek hu).1 hfu
  refine
    { valid := hvalid
      serial_eq := rfl
      size_eq := size_settle s _ _ _
      trail_eq := rfl
      height_le := Nat.max_le.2 ⟨Nat.le_max_left _ _, Nat.zero_le _⟩
      value_eq := ?_
      peek_self := fun c hc => by rw [h.peek_settle_self hv hfv hvalid hc, hpeek, htop]
      peek_of_ne := fun _ => h.peek_settle_of_ne hv hfv hvalid
      leader_eq := fun c hc => by rw [h.leader_settle hv hfv hvalid hc, hleader, htop]; rfl
      owns := hv
      free := h.value_free hv hfv
      ownsAll := ownsAll_iff.2 (by simpa using hu)
      not_mem := ?_ }
  · rw [hres]
    refine h.value_settle hv hfv hvalid ?_
    simp [expand, owns_settle, hv, slots_settle hv, hcell, h.value_free hu hfu,
      Ty.assign_of_ne _ hne]
  · rw [hres, Ty.cellOccurrences_cell, List.mem_singleton]
    exact Ne.symm hne

theorem Valid.binds_bound (h : s.Valid) (hv : s.owns v = true)
    (hfv : s.slots[v.index]? = some .free) (ht : t.isCell = false) (hot : s.ownsAll t = true)
    (hocc : v ∉ (s.resolve t).cellOccurrences) :
    s.Binds v t (s.settle v.index (.bound t) t.height) := by
  have hback : ∀ c ∈ t.cellOccurrences, ¬ Relation.ReflTransGen s.Needs c.index v.index := by
    intro c hc hp
    refine hocc ?_
    rw [s.resolve_eq, Ty.mem_cellOccurrences_mapCells]
    have hmem := h.mem_value_of_path (ownsAll_iff.1 hot c hc) hfv hp
    rw [cellAt_index hv] at hmem
    exact ⟨c, hc, hmem⟩
  have hvalid : (s.settle v.index (.bound t) t.height).Valid := by
    refine h.settle hv (fun j hj => by simp at hj) (fun u hu => ?_) (fun j hj => ?_)
    · obtain rfl : t = u := by simpa using hu
      exact ⟨hot, ht, Nat.le_refl _⟩
    · rcases hj with hj | ⟨u, hu, c, hc, rfl⟩
      · simp at hj
      · obtain rfl : t = u := by simpa using hu
        exact hback c hc
  have hslot : (s.settle v.index (.bound t) t.height).slots[v.index]? = some (.bound t) := by
    rw [slots_settle hv, if_pos rfl]
  have hroot : (s.settle v.index (.bound t) t.height).root v.index = v.index :=
    hvalid.root_of_isRoot (lt_size_of_slot hslot) (isRoot_of_bound hslot)
  have hpeek : (s.settle v.index (.bound t) t.height).peek v = t := by
    simp [peek, owns_settle, hv, hroot, hslot]
  have hleader : (s.settle v.index (.bound t) t.height).leader v = v := by
    rw [leader, hroot]
    exact cellAt_index ((owns_settle v).trans hv)
  have htop := s.top_of_not_cell ht
  refine
    { valid := hvalid
      serial_eq := rfl
      size_eq := size_settle s _ _ _
      trail_eq := rfl
      height_le := by rw [s.top_of_not_cell ht]; exact Nat.le_refl _
      value_eq := ?_
      peek_self := fun c hc => by rw [h.peek_settle_self hv hfv hvalid hc, hpeek, htop]
      peek_of_ne := fun _ => h.peek_settle_of_ne hv hfv hvalid
      leader_eq := fun c hc => by
        rw [h.leader_settle hv hfv hvalid hc, hleader, htop, Ty.cellOr_of_not_cell v ht]
      owns := hv
      free := h.value_free hv hfv
      ownsAll := hot
      not_mem := hocc }
  · refine h.value_settle hv hfv hvalid ?_
    simp only [expand, owns_settle, hv, slots_settle hv, if_true]
    rw [← Ty.mapCells_mapCells, ← s.resolve_eq, Ty.mapCells_assign_of_not_mem _ hocc]

/-- Whether a type is no cell of some other store. -/
def ownsTop (s : Store) : Ty → Bool
  | .cell c => s.owns c
  | _ => true

theorem ownsTop_of_ownsAll (h : s.ownsAll t = true) : s.ownsTop t = true := by
  cases t <;> first | rfl | exact ownsAll_iff.1 h _ (by simp)

theorem SameView.ownsTop_eq (h : s.SameView s') (t : Ty) : s'.ownsTop t = s.ownsTop t := by
  cases t <;> first | rfl | exact h.owns_eq _

/-- A type that is no foreign cell belongs to the store if what it stands for does. -/
theorem Valid.ownsAll_of_top (ht : s.ownsTop t = true) (h : s.ownsAll (s.top t) = true) :
    s.ownsAll t = true := by
  cases t with
  | cell c => exact ownsAll_iff.2 (by simpa [ownsTop] using ht)
  | _ => exact h

end Store

namespace StoreM

variable {r : Cell}

open Store

variable {s : Store} {t v : Ty}
variable {u : Ty} {s₂ : Store}

theorem find_cell (s : Store) (c : Cell) : find (.cell c) s =
    if s.owns c then .ok (s.peek c) (s.shorten c.index) else .error .foreignCell s := rfl

theorem find_ok (h : s.Valid) (ht : s.ownsTop t = true) :
    ∃ s', find t s = .ok (s.top t) s' ∧ s.Kept s' := by
  cases t with
  | cell c =>
    have hc : s.owns c = true := ht
    obtain ⟨hvalid, hview⟩ := h.shorten c.index
    exact ⟨s.shorten c.index, (find_cell s c).trans (if_pos hc), hvalid, hview⟩
  | _ => exact ⟨s, rfl, .refl h⟩

theorem find_foreign (ht : s.ownsTop t = false) : find t s = .error .foreignCell s := by
  cases t with
  | cell c =>
    have hc : s.owns c = false := ht
    exact (find_cell s c).trans (if_neg (by simp [hc]))
  | _ => simp [ownsTop] at ht

theorem resolve_ok (h : s.Valid) (ht : s.ownsAll t = true) :
    ∃ s', resolve t s = .ok (s.resolve t) s' ∧ s.Kept s' := by
  obtain ⟨hvalid, hview⟩ := h.shortenThrough t
  refine ⟨s.shortenThrough t, ?_, hvalid, hview⟩
  simp only [resolve, resolve?, ht, if_true]

theorem resolve_foreign (h : s.Valid) (ht : s.ownsAll t = false) :
    ∃ s', resolve t s = .error .foreignCell s' ∧ s.Kept s' := by
  obtain ⟨hvalid, hview⟩ := h.shortenThrough t
  refine ⟨s.shortenThrough t, ?_, hvalid, hview⟩
  simp only [resolve, resolve?, ht, Bool.false_eq_true, if_false]

theorem freeCells_ok (h : s.Valid) (ht : s.ownsAll t = true) :
    ∃ s', freeCells t s = .ok (s.resolve t).cells s' ∧ s.Kept s' := by
  obtain ⟨s', hr, hk⟩ := resolve_ok h ht
  exact ⟨s', bind_of_ok hr, hk⟩

theorem freeCells_foreign (h : s.Valid) (ht : s.ownsAll t = false) :
    ∃ s', freeCells t s = .error .foreignCell s' ∧ s.Kept s' := by
  obtain ⟨s', hr, hk⟩ := resolve_foreign h ht
  exact ⟨s', bind_of_error hr, hk⟩

/-- Everything that can come of binding `v` to `t`. -/
inductive BindOutcome (s : Store) (v t : Ty) (site : Option Phrase) :
    EStateM.Result Fault Store Unit → Prop
  | foreign {s' : Store} : (s.ownsAll v = false ∨ s.ownsAll t = false) → s.Kept s' →
      BindOutcome s v t site (.error .foreignCell s')
  | notFree {s' : Store} : (s.top v).isCell = false → s.Kept s' →
      BindOutcome s v t site (.error .notFree s')
  | already {s' : Store} {r : Cell} : s.top v = .cell r → s.top t = .cell r → s.Kept s' →
      BindOutcome s v t site (.ok () s')
  | occurs {s' : Store} {r : Cell} : s.top v = .cell r → (s.top t).isCell = false →
      r ∈ (s.resolve t).cellOccurrences → s.Kept s' →
      BindOutcome s v t site (.error (.issue
        { kind := .occursCheck, evidence := [.type (.cell r), .type (s.top t)], site }) s')
  | binds {s' : Store} {r : Cell} : s.top v = .cell r → s.Binds r t s' →
      BindOutcome s v t site (.ok () s')

theorem Binds.of_kept {s₁ s' : Store} (h : s.Valid) (hk : s.Kept s₁) (ht : s.ownsAll t = true)
    (hu : s.top t = u) (hb : s₁.Binds r u s') : s.Binds r t s' := by
  have hres : s₁.resolve u = s.resolve t := by rw [hk.view.resolve_eq, ← hu, h.resolve_top]
  have htop : s₁.top u = s.top t := by
    rw [hk.view.top_eq, ← hu]
    exact h.top_top t
  exact
    { valid := hb.valid
      serial_eq := hb.serial_eq.trans hk.view.serial_eq
      size_eq := hb.size_eq.trans hk.view.size_eq
      trail_eq := by rw [hb.trail_eq, hk.view.trail_eq]
      height_le := by rw [← hk.view.height_eq, ← htop]; exact hb.height_le
      value_eq := fun c => by rw [hb.value_eq, hk.view.value_eq, hres]
      peek_self := fun c hc => by rw [hb.peek_self c (by rw [hk.view.peek_eq, hc]), htop]
      peek_of_ne := fun c hc => by rw [hb.peek_of_ne c (by rwa [hk.view.peek_eq]), hk.view.peek_eq]
      leader_eq := fun c hc => by
        rw [hb.leader_eq c (by rw [hk.view.owns_eq, hc]), hk.view.leader_eq hc, htop]
      owns := by rw [← hk.view.owns_eq]; exact hb.owns
      free := by rw [← hk.view.value_eq]; exact hb.free
      ownsAll := ht
      not_mem := by rw [← hres]; exact hb.not_mem }

theorem ownsAll_eq_false (ht : s.ownsTop t = false) : s.ownsAll t = false := by
  cases hall : s.ownsAll t with
  | false => rfl
  | true => rw [ownsTop_of_ownsAll hall] at ht; exact ht

/-- Bind the free root `r` to a type that is no cell. -/
def bindProper (r : Cell) (t : Ty) (site : Option Phrase) : StoreM Unit := do
  if r ∈ (← freeCells t) then
    throw (.issue { kind := .occursCheck, evidence := [.type (.cell r), .type t], site })
  else modify fun s => s.settle r.index (.bound t) t.height

theorem bindProper_outcome (h : s.Valid) (hr : s.top v = .cell r) (hor : s.owns r = true)
    (hfr : s.slots[r.index]? = some .free) (ht : s.ownsTop t = true) (hk : s.Kept s₂)
    (hu : s.top t = u) (hp : u.isCell = false) :
    BindOutcome s v t site (bindProper r u site s₂) := by
  unfold bindProper
  have hres : s₂.resolve u = s.resolve t := by rw [hk.view.resolve_eq, ← hu, h.resolve_top]
  cases hou : s₂.ownsAll u with
  | false =>
    obtain ⟨s₃, hfree, hk₃⟩ := freeCells_foreign hk.valid hou
    rw [bind_of_error hfree]
    refine .foreign (.inr ?_) (hk.trans hk₃)
    cases hot : s.ownsAll t with
    | false => rfl
    | true =>
      have := h.ownsAll_top hot
      rw [hu, ← hk.view.ownsAll_eq, hou] at this
      exact absurd this (by simp)
  | true =>
    have hot : s.ownsAll t = true := by
      refine Valid.ownsAll_of_top ht ?_
      rw [hu, ← hk.view.ownsAll_eq, hou]
    obtain ⟨s₃, hfree, hk₃⟩ := freeCells_ok hk.valid hou
    rw [bind_of_ok hfree, hres]
    have hks : s.Kept s₃ := hk.trans hk₃
    split
    · next hmem =>
      rw [← hu]
      exact .occurs hr (by rw [hu, hp]) (Ty.mem_cells.1 hmem) hks
    · next hmem =>
      refine .binds hr (Binds.of_kept h hks hot hu ?_)
      refine hks.valid.binds_bound (by rw [hks.view.owns_eq, hor])
        ((hks.view.free_iff h hks.valid hor).2 hfr) hp ?_ ?_
      · rw [hk₃.view.ownsAll_eq, hou]
      · rw [hk₃.view.resolve_eq, hres]
        exact fun hmem' => hmem (Ty.mem_cells.2 hmem')

/-- The second half of binding: `r` is the free root that `v` stands for. -/
theorem bind_root (h : s.Valid) (hv : s.ownsTop v = true) (hr : s.top v = .cell r)
    (ht : s.ownsTop t = true) (hk : s.Kept s₂) :
    BindOutcome s v t site
      ((match s.top t with
        | .cell u => if u = r then pure () else
            modify fun s => s.settle r.index (.link u.index) 0
        | t => bindProper r t site : StoreM Unit) s₂) := by
  have hov : s.ownsAll v = true := by
    cases v with
    | cell c => exact ownsAll_iff.2 (by simpa [ownsTop] using hv)
    | _ => simp [top] at hr
  obtain ⟨hor, hfr⟩ := h.top_eq_cell hov hr
  have hor₂ : s₂.owns r = true := by rw [hk.view.owns_eq, hor]
  have hfr₂ : s₂.slots[r.index]? = some .free := (hk.view.free_iff h hk.valid hor).2 hfr
  cases hu : s.top t with
  | cell u =>
    have hot : s.ownsAll t = true := by
      cases t with
      | cell c => exact ownsAll_iff.2 (by simpa [ownsTop] using ht)
      | _ => simp [top] at hu
    obtain ⟨hou, hfu⟩ := h.top_eq_cell hot hu
    simp only
    split
    · next he => exact .already hr (he ▸ hu) hk
    · next hne =>
      refine .binds hr (Binds.of_kept h hk hot hu ?_)
      exact hk.valid.binds_link hor₂ hfr₂ (by rw [hk.view.owns_eq, hou])
        ((hk.view.free_iff h hk.valid hou).2 hfu) hne
  | _ => exact bindProper_outcome h hr hor hfr ht hk hu rfl

theorem bind_outcome (h : s.Valid) (v t : Ty) (site : Option Phrase) :
    BindOutcome s v t site (bind v t site s) := by
  unfold bind
  cases hv : s.ownsTop v with
  | false =>
    rw [bind_of_error (find_foreign hv)]
    exact .foreign (.inl (ownsAll_eq_false hv)) (.refl h)
  | true =>
    obtain ⟨s₁, hfind₁, hk₁⟩ := find_ok h hv
    rw [bind_of_ok hfind₁]
    cases hr : s.top v with
    | cell r =>
      simp only
      cases ht : s.ownsTop t with
      | false =>
        rw [bind_of_error (find_foreign (by rw [hk₁.view.ownsTop_eq, ht]))]
        exact .foreign (.inr (ownsAll_eq_false ht)) hk₁
      | true =>
        have ht₁ : s₁.ownsTop t = true := by rw [hk₁.view.ownsTop_eq, ht]
        obtain ⟨s₂, hfind₂, hk₂⟩ := find_ok hk₁.valid ht₁
        have hk : s.Kept s₂ := hk₁.trans hk₂
        rw [bind_of_ok hfind₂, hk₁.view.top_eq]
        exact bind_root h hv hr ht hk
    | _ => exact .notFree (by rw [hr]; rfl) hk₁

end StoreM

namespace Store

/-- A later store that is valid as well. -/
structure Evolves (s s' : Store) : Prop where
  valid : s'.Valid
  later : s.Extends s'

namespace Evolves

variable {s s' s'' : Store}

theorem refl (h : s.Valid) : s.Evolves s := ⟨h, .refl h⟩

theorem trans (h : s.Evolves s') (h' : s'.Evolves s'') : s.Evolves s'' :=
  ⟨h'.valid, h.later.trans h'.later⟩

end Evolves

theorem Kept.evolves {s s' : Store} (h : s.Kept s') : s.Evolves s' := ⟨h.valid, h.later⟩

theorem Binds.evolves {s s' : Store} {v : Cell} {t : Ty} (h : s.Binds v t s') (hs : s.Valid) :
    s.Evolves s' := ⟨h.valid, h.later hs⟩

end Store

namespace StoreM

open Store

variable {s : Store}

theorem fresh_evolves (h : s.Valid) : s.Evolves (endState fresh s) := ⟨h.fresh, h.extends_fresh⟩

theorem find_kept (h : s.Valid) (t : Ty) : s.Kept (endState (find t) s) := by
  cases ht : s.ownsTop t with
  | false => rw [endState_of_error (find_foreign ht)]; exact .refl h
  | true =>
    obtain ⟨s', hf, hk⟩ := find_ok h ht
    rwa [endState_of_ok hf]

theorem resolve_kept (h : s.Valid) (t : Ty) : s.Kept (endState (resolve t) s) := by
  cases ht : s.ownsAll t with
  | false =>
    obtain ⟨s', hr, hk⟩ := resolve_foreign h ht
    rwa [endState_of_error hr]
  | true =>
    obtain ⟨s', hr, hk⟩ := resolve_ok h ht
    rwa [endState_of_ok hr]

theorem freeCells_kept (h : s.Valid) (t : Ty) : s.Kept (endState (freeCells t) s) := by
  cases ht : s.ownsAll t with
  | false =>
    obtain ⟨s', hr, hk⟩ := freeCells_foreign h ht
    rwa [endState_of_error hr]
  | true =>
    obtain ⟨s', hr, hk⟩ := freeCells_ok h ht
    rwa [endState_of_ok hr]

/-- A cell that has been bound resolves to what it was bound to. -/
theorem bind_resolve (h : s.Valid) {v t : Ty} {s' : Store} (hrun : bind v t site s = .ok () s') :
    s'.resolve v = s'.resolve t := by
  have ho := bind_outcome h v t site
  rw [hrun] at ho
  cases ho with
  | already hv ht hk =>
    rw [hk.view.resolve_eq, hk.view.resolve_eq, ← h.resolve_top v, ← h.resolve_top t, hv, ht]
  | binds hv hb =>
    rw [← hb.resolve_bound, (hb.later h).resolve_eq v, (hb.later h).resolve_eq (.cell _), ← hv,
      h.resolve_top]

theorem bind_evolves (h : s.Valid) (v t : Ty) (site : Option Phrase) :
    s.Evolves (endState (bind v t site) s) := by
  have ho := bind_outcome h v t site
  unfold endState
  generalize bind v t site s = r at ho ⊢
  cases ho with
  | foreign _ hk => exact hk.evolves
  | notFree _ hk => exact hk.evolves
  | already _ _ hk => exact hk.evolves
  | occurs _ _ _ hk => exact hk.evolves
  | binds _ hb => exact hb.evolves h

end StoreM

end TensorTyping
