import TensorTyping.Proofs.Store.Resolution

/-!
# Changes of a store

A store changes in three ways. A new cell changes no value. A shorter path changes no answer at all,
which is what `SameView` says. Settling a free cell replaces it in every value with what it has
come to stand for. Each change keeps the store valid, and after each the new values are those of the
old ones: resolving in the later store absorbs having resolved in the earlier one (`Extends`).
-/
namespace TensorTyping

variable {c : Cell} {t : Ty}

def Ty.assign (v : Cell) (w : Ty) (c : Cell) : Ty := if c = v then w else .cell c

@[simp] theorem Ty.assign_self (v : Cell) (w : Ty) : Ty.assign v w v = w := by simp [assign]

theorem Ty.assign_of_ne {v : Cell} (w : Ty) (h : c ≠ v) : Ty.assign v w c = .cell c := by
  simp [assign, h]

theorem Ty.mapCells_assign_of_not_mem {v : Cell} (w : Ty) (h : v ∉ t.cellOccurrences) :
    t.mapCells (Ty.assign v w) = t :=
  Ty.mapCells_eq_self fun _ hc => Ty.assign_of_ne w fun e => h (e ▸ hc)

namespace Store

variable {l : Nat}

/-- The same cells with the same roots and answers; only paths may differ. -/
structure SameView (s s' : Store) : Prop where
  serial_eq : s'.serial = s.serial
  size_eq : s'.size = s.size
  trail_eq : s'.trail = s.trail
  height_eq : s'.height = s.height
  root_eq : ∀ i < s.size, s'.root i = s.root i
  peek_eq : ∀ c, s'.peek c = s.peek c

namespace SameView

variable {s s' s'' : Store}

theorem refl (s : Store) : s.SameView s := ⟨rfl, rfl, rfl, rfl, fun _ _ => rfl, fun _ => rfl⟩

section

variable (h : s.SameView s')

include h

theorem trans (h' : s'.SameView s'') : s.SameView s'' where
  serial_eq := h'.serial_eq.trans h.serial_eq
  size_eq := h'.size_eq.trans h.size_eq
  trail_eq := h'.trail_eq.trans h.trail_eq
  height_eq := h'.height_eq.trans h.height_eq
  root_eq i hi := (h'.root_eq i (by rwa [h.size_eq])).trans (h.root_eq i hi)
  peek_eq c := (h'.peek_eq c).trans (h.peek_eq c)

theorem owns_eq (c : Cell) : s'.owns c = s.owns c := by
  simp [owns, h.serial_eq, h.size_eq]

theorem leader_eq (hc : s.owns c = true) : s'.leader c = s.leader c := by
  simp only [leader, cellAt, h.serial_eq, h.root_eq _ (owns_iff.1 hc).2]

theorem ownsAll_eq (t : Ty) : s'.ownsAll t = s.ownsAll t := by
  have : s'.owns = s.owns := funext h.owns_eq
  simp [ownsAll, this]

theorem top_eq (t : Ty) : s'.top t = s.top t := by
  cases t <;> first | rfl | exact h.peek_eq _

theorem resolveWithin_eq (fuel : Nat) (t : Ty) :
    s'.resolveWithin fuel t = s.resolveWithin fuel t := by
  induction fuel generalizing t with
  | zero => rfl
  | succ fuel ih =>
    simp only [resolveWithin_succ, h.peek_eq, ih]

theorem resolve_eq (t : Ty) : s'.resolve t = s.resolve t := by
  rw [resolve, resolve, h.size_eq, h.resolveWithin_eq]

theorem value_eq (c : Cell) : s'.value c = s.value c := h.resolve_eq _

end

end SameView

theorem SameView.free_iff {s s' : Store} (hv : s.SameView s') (h : s.Valid) (h' : s'.Valid)
    (hc : s.owns c = true) : s'.slots[c.index]? = some .free ↔ s.slots[c.index]? = some .free := by
  rw [h.free_iff_peek hc, h'.free_iff_peek ((hv.owns_eq c).trans hc), hv.peek_eq]

theorem slots_set {slots : Array Slot} {i : Nat} (hi : i < slots.size) (x : Slot) (k : Nat) :
    (slots.setIfInBounds i x)[k]? = if k = i then some x else slots[k]? := by
  rw [Array.getElem?_setIfInBounds]
  by_cases hk : k = i
  · subst hk
    simp [hi]
  · simp [hk, Ne.symm hk]

section Shorten

variable {s : Store}
variable {i j k : Nat}

/-- A linked cell pointed straight at its root. -/
def relink (s : Store) (i : Nat) : Store :=
  { s with slots := s.slots.setIfInBounds i (.link (s.root i)) }

theorem size_relink (s : Store) (i : Nat) : (s.relink i).size = s.size := by
  simp [relink, size]

theorem slots_relink (hij : s.Link i j) (k : Nat) :
    (s.relink i).slots[k]? = if k = i then some (.link (s.root i)) else s.slots[k]? :=
  slots_set hij.lt_size _ k

theorem link_relink_self (hij : s.Link i j) : (s.relink i).Link i (s.root i) := by
  simp [Link, slots_relink hij]

theorem link_relink_of_ne (hij : s.Link i j) (hk : k ≠ i) : (s.relink i).Link k l ↔ s.Link k l := by
  simp [Link, slots_relink hij, hk]

theorem bound_relink (hij : s.Link i j) :
    (s.relink i).slots[k]? = some (.bound t) ↔ s.slots[k]? = some (.bound t) := by
  rw [slots_relink hij]
  by_cases hk : k = i
  · subst hk
    have : s.slots[k]? = some (.link j) := hij
    simp [this]
  · simp [hk]

section

variable (h : s.Valid)

include h

theorem Valid.path_root_of_link (hij : s.Link i j) : Relation.TransGen s.Needs i (s.root i) := by
  rw [h.root_of_link hij]
  exact .head' (.inl hij) (needs_path (h.path_root (h.link_lt hij)))

theorem Valid.needs_relink (hij : s.Link i j) {a b : Nat} (hab : (s.relink i).Needs a b) :
    Relation.TransGen s.Needs a b := by
  rcases hab with hab | ⟨t, ht, hc⟩
  · by_cases ha : a = i
    · subst ha
      have : some (Slot.link b) = some (Slot.link (s.root a)) :=
        hab.symm.trans (link_relink_self hij)
      simp only [Option.some.injEq, Slot.link.injEq] at this
      exact this ▸ h.path_root_of_link hij
    · exact .single (.inl ((link_relink_of_ne hij ha).1 hab))
  · exact .single (.inr ⟨t, (bound_relink hij).1 ht, hc⟩)

theorem Valid.relink (hij : s.Link i j) : (s.relink i).Valid where
  link_lt := by
    intro k l hkl
    rw [size_relink]
    by_cases hk : k = i
    · subst hk
      have : some (Slot.link l) = some (Slot.link (s.root k)) :=
        hkl.symm.trans (link_relink_self hij)
      simp only [Option.some.injEq, Slot.link.injEq] at this
      exact this ▸ h.root_lt hij.lt_size
    · exact h.link_lt ((link_relink_of_ne hij hk).1 hkl)
  owned := by
    intro k t ht c hc
    have := owns_iff.1 (h.owned ((bound_relink hij).1 ht) c hc)
    exact owns_iff.2 ⟨this.1, by rw [size_relink]; exact this.2⟩
  proper ht := h.proper ((bound_relink hij).1 ht)
  height_le ht := h.height_le ((bound_relink hij).1 ht)
  acyclic := acyclic_of_paths (fun _ _ => h.needs_relink hij) h.acyclic

theorem Valid.path_relink (hij : s.Link i j) (hk : k < s.size) :
    Relation.ReflTransGen (s.relink i).Link k (s.root k) := by
  have hpath := h.path_root hk
  generalize hq : s.root k = q at hpath
  induction hpath using Relation.ReflTransGen.head_induction_on with
  | refl => exact .refl
  | @head a b hab _ ih =>
    have hroot : s.root b = q := (h.root_of_link hab).symm.trans hq
    by_cases ha : a = i
    · subst ha
      exact hq ▸ .single (link_relink_self hij)
    · exact (ih (h.link_lt hab) hroot).head ((link_relink_of_ne hij ha).2 hab)

theorem Valid.root_relink (hij : s.Link i j) (hk : k < s.size) :
    (s.relink i).root k = s.root k := by
  refine (h.relink hij).root_eq (by rwa [size_relink]) (h.path_relink hij hk) fun l hl => ?_
  have hroot := h.isRoot_root hk
  by_cases hi : s.root k = i
  · exact hroot j (hi ▸ hij)
  · exact hroot l ((link_relink_of_ne hij hi).1 hl)

theorem Valid.sameView_relink (hij : s.Link i j) : s.SameView (s.relink i) := by
  refine ⟨rfl, size_relink s i, rfl, rfl, fun k hk => h.root_relink hij hk, fun c => ?_⟩
  have howns : (s.relink i).owns c = s.owns c := by
    rw [owns, owns, size_relink]
    rfl
  cases hc : s.owns c with
  | false => rw [peek_foreign (howns.trans hc), peek_foreign hc]
  | true =>
    have hi := (owns_iff.1 hc).2
    have hne : s.root c.index ≠ i := fun e => h.isRoot_root hi j (e ▸ hij)
    have hslot : (s.relink i).slots[s.root c.index]? = s.slots[s.root c.index]? := by
      rw [slots_relink hij, if_neg hne]
    simp only [peek, howns, hc, h.root_relink hij hi, hslot]
    rfl

theorem Valid.shortenWithin {fuel i : Nat} (hi : i < s.size) :
    ({ s with slots := shortenWithin (s.root i) fuel i s.slots } : Store).Valid ∧
      s.SameView { s with slots := shortenWithin (s.root i) fuel i s.slots } := by
  induction fuel generalizing s i with
  | zero => exact ⟨h, .refl s⟩
  | succ fuel ih =>
    unfold Store.shortenWithin
    split
    · next j hj =>
      have hij : s.Link i j := hj
      split
      · exact ⟨h, .refl s⟩
      · -- The rest of the path has the same root, before and after the first step.
        have hlt : j < (s.relink i).size := by
          rw [size_relink]
          exact h.link_lt hij
        have hroot : (s.relink i).root j = s.root i := by
          rw [h.root_relink hij (h.link_lt hij), h.root_of_link hij]
        obtain ⟨hvalid, hview⟩ := ih (h.relink hij) hlt
        rw [hroot] at hvalid hview
        exact ⟨hvalid, (h.sameView_relink hij).trans hview⟩
    · exact ⟨h, .refl s⟩

theorem Valid.shorten (i : Nat) : (s.shorten i).Valid ∧ s.SameView (s.shorten i) := by
  by_cases hi : i < s.size
  · exact h.shortenWithin hi
  · have hnone : s.slots[i]? = none := Array.getElem?_eq_none (Nat.le_of_not_lt hi)
    have hsame : Store.shortenWithin (s.root i) s.size i s.slots = s.slots := by
      cases s.size with
      | zero => rfl
      | succ n => simp [Store.shortenWithin, hnone]
    rw [Store.shorten, hsame]
    exact ⟨h, .refl s⟩

theorem Valid.shortenAll (fuel : Nat) (cs : List Cell) :
    (shortenAll fuel cs s).Valid ∧ s.SameView (shortenAll fuel cs s) := by
  induction fuel generalizing s cs with
  | zero => exact ⟨h, .refl s⟩
  | succ fuel ih =>
    unfold Store.shortenAll
    induction cs generalizing s with
    | nil => exact ⟨h, .refl s⟩
    | cons c cs ihcs =>
      obtain ⟨hshort, hview⟩ := h.shorten c.index
      rw [List.foldl_cons]
      simp only
      split
      · obtain ⟨hvalid, hview'⟩ := ihcs hshort
        exact ⟨hvalid, hview.trans hview'⟩
      · obtain ⟨hdeep, hview₁⟩ := ih hshort ((s.shorten c.index).peek c).cellOccurrences
        obtain ⟨hvalid, hview₂⟩ := ihcs hdeep
        exact ⟨hvalid, (hview.trans hview₁).trans hview₂⟩

theorem Valid.shortenThrough (t : Ty) :
    (s.shortenThrough t).Valid ∧ s.SameView (s.shortenThrough t) :=
  h.shortenAll _ _

end

end Shorten

section Fresh

variable {s : Store}

theorem slots_fresh (s : Store) (k : Nat) :
    s.fresh.2.slots[k]? = if k = s.size then some .free else s.slots[k]? := by
  rw [fresh, Array.getElem?_push]
  rfl

theorem bound_fresh {k : Nat} :
    s.fresh.2.slots[k]? = some (.bound t) ↔ s.slots[k]? = some (.bound t) := by
  rw [slots_fresh]
  by_cases hk : k = s.size
  · subst hk
    simp [size]
  · simp [hk]

theorem link_fresh {k : Nat} : s.fresh.2.Link k l ↔ s.Link k l := by
  rw [Link, Link, slots_fresh]
  by_cases hk : k = s.size
  · subst hk
    simp [size]
  · simp [hk]

theorem owns_new (s : Store) : s.owns s.fresh.1 = false := by
  simp [fresh, owns, cellAt]

theorem owns_new_fresh (s : Store) : s.fresh.2.owns s.fresh.1 = true := by
  simp [fresh, owns, cellAt, size]

theorem owns_fresh_of_owns (hc : s.owns c = true) : s.fresh.2.owns c = true := by
  obtain ⟨hs, hi⟩ := owns_iff.1 hc
  exact owns_iff.2 ⟨hs, by rw [size_fresh]; omega⟩

theorem Valid.fresh (h : s.Valid) : s.fresh.2.Valid where
  link_lt hkl := by
    rw [size_fresh]
    exact Nat.lt_succ_of_lt (h.link_lt (link_fresh.1 hkl))
  owned ht c hc := owns_fresh_of_owns (h.owned (bound_fresh.1 ht) c hc)
  proper ht := h.proper (bound_fresh.1 ht)
  height_le ht := h.height_le (bound_fresh.1 ht)
  acyclic := by
    refine acyclic_of_paths (fun a b hab => .single ?_) h.acyclic
    rcases hab with hab | ⟨t, ht, hc⟩
    · exact .inl (link_fresh.1 hab)
    · exact .inr ⟨t, bound_fresh.1 ht, hc⟩

theorem Valid.value_fresh (h : s.Valid) (c : Cell) : s.fresh.2.value c = s.value c := by
  refine (h.fresh.value_unique (fun d => ?_) c).symm
  rw [h.value_eq_expand, expand, expand]
  cases hd : s.owns d with
  | true =>
    have hne : d.index ≠ s.size := Nat.ne_of_lt (owns_iff.1 hd).2
    simp only [owns_fresh_of_owns hd, slots_fresh, if_neg hne]
    rfl
  | false =>
    by_cases hd' : s.fresh.2.owns d = true
    · obtain ⟨hs, hi⟩ := owns_iff.1 hd'
      rw [size_fresh] at hi
      have hs : d.store = s.serial := hs
      have hne : ¬ d.index < s.size := fun hi' => by simp [owns_iff.2 ⟨hs, hi'⟩] at hd
      have he : d.index = s.size := by omega
      simp [hd', slots_fresh, he]
    · simp [hd']

theorem Valid.resolve_fresh (h : s.Valid) (t : Ty) : s.fresh.2.resolve t = s.resolve t := by
  rw [Store.resolve_eq, Store.resolve_eq]
  exact Ty.mapCells_congr fun c _ => h.value_fresh c

theorem Valid.root_fresh (h : s.Valid) {i : Nat} (hi : i < s.size) :
    s.fresh.2.root i = s.root i := by
  refine h.fresh.root_eq (by rw [size_fresh]; omega) ?_ fun j hj =>
    h.isRoot_root hi j (link_fresh.1 hj)
  exact Relation.ReflTransGen.mono (fun _ _ => link_fresh.2) _ _ (h.path_root hi)

theorem root_new (s : Store) (h : s.Valid) : s.fresh.2.root s.size = s.size := by
  have hslot : s.fresh.2.slots[s.size]? = some .free := by rw [slots_fresh, if_pos rfl]
  exact h.fresh.root_of_isRoot (lt_size_of_slot hslot) (isRoot_of_free hslot)

theorem Valid.peek_fresh (h : s.Valid) (c : Cell) : s.fresh.2.peek c = s.peek c := by
  cases hc : s.owns c with
  | true =>
    have hi := (owns_iff.1 hc).2
    have hne := Nat.ne_of_lt (h.root_lt hi)
    simp only [peek, owns_fresh_of_owns hc, hc, h.root_fresh hi, slots_fresh, if_neg hne, if_true]
    rfl
  | false =>
    rw [peek_foreign hc]
    cases hc' : s.fresh.2.owns c with
    | false => exact peek_foreign hc'
    | true =>
      have hslot : s.fresh.2.slots[c.index]? = some .free := by
        obtain ⟨hs, hi⟩ := owns_iff.1 hc'
        rw [size_fresh] at hi
        have hs : c.store = s.serial := hs
        have hnot : ¬ c.index < s.size := fun hlt => by simp [owns_iff.2 ⟨hs, hlt⟩] at hc
        rw [slots_fresh, if_pos (by omega)]
      exact (h.fresh.free_iff_peek hc').1 hslot

end Fresh

section Settle

variable {s : Store} {v : Cell} {x : Slot} {n : Nat}

theorem slots_settle (hv : s.owns v = true) (k : Nat) :
    (s.settle v.index x n).slots[k]? = if k = v.index then some x else s.slots[k]? :=
  slots_set (owns_iff.1 hv).2 x k

theorem owns_settle (c : Cell) : (s.settle v.index x n).owns c = s.owns c := by
  rw [owns, owns, size_settle]
  rfl

/-- Settling a free cell is safe if what it comes to stand for is in order and leads to no cell from
which there is a way back. -/
theorem Valid.settle (h : s.Valid) (hv : s.owns v = true)
    (hlink : ∀ j, x = .link j → j < s.size)
    (hbound : ∀ t, x = .bound t → s.ownsAll t = true ∧ t.isCell = false ∧ t.height ≤ n)
    (hback : ∀ j, x = .link j ∨ (∃ t, x = .bound t ∧ ∃ c ∈ t.cellOccurrences, c.index = j) →
      ¬ Relation.ReflTransGen s.Needs j v.index) : (s.settle v.index x n).Valid where
  link_lt := by
    intro k l hkl
    rw [Link, slots_settle hv] at hkl
    rw [size_settle]
    split at hkl
    · exact hlink l (by simpa using hkl)
    · exact h.link_lt hkl
  owned := by
    intro k t ht c hc
    rw [slots_settle hv] at ht
    rw [owns_settle]
    split at ht
    · exact ownsAll_iff.1 (hbound t (by simpa using ht)).1 c hc
    · exact h.owned ht c hc
  proper := by
    intro k t ht
    rw [slots_settle hv] at ht
    split at ht
    · exact (hbound t (by simpa using ht)).2.1
    · exact h.proper ht
  height_le := by
    intro k t ht
    rw [slots_settle hv] at ht
    split at ht
    · exact (hbound t (by simpa using ht)).2.2.trans (Nat.le_max_right _ _)
    · exact (h.height_le ht).trans (Nat.le_max_left _ _)
  acyclic := by
    refine acyclic_extend (fun a b hab => ?_) hback h.acyclic
    simp only [Needs, Link, slots_settle hv] at hab
    by_cases ha : a = v.index
    · simp only [ha, if_true, Option.some.injEq] at hab
      exact .inr ⟨ha, hab⟩
    · simp only [ha, if_false] at hab
      exact .inl hab

section

variable (h : s.Valid) (hv : s.owns v = true) (hf : s.slots[v.index]? = some .free)
  (h' : (s.settle v.index x n).Valid)

include h hv hf h'

/-- In every value, the settled cell is replaced with what it has come to stand for. -/
theorem Valid.value_settle {w : Ty}
    (hw : (s.settle v.index x n).expand (fun c => (s.value c).mapCells (Ty.assign v w)) v = w)
    (c : Cell) : (s.settle v.index x n).value c = (s.value c).mapCells (Ty.assign v w) := by
  refine (h'.value_unique (f := fun c => (s.value c).mapCells (Ty.assign v w)) (fun d => ?_) c).symm
  by_cases hd : d = v
  · subst hd
    rw [hw, h.value_free hv hf, Ty.mapCells_cell, Ty.assign_self]
  · rw [h.value_eq_expand, expand, expand, owns_settle]
    cases ho : s.owns d with
    | false => simp [Ty.assign_of_ne w hd]
    | true =>
      have hne : d.index ≠ v.index := fun e => hd <| by
        rw [← cellAt_index ho, ← cellAt_index hv, e]
      simp only [slots_settle hv, if_neg hne, if_true]
      split
      · rfl
      · exact Ty.mapCells_mapCells _ _ _
      · simp [Ty.assign_of_ne w hd]

/-- A cell whose root is settled gets the root of that; all other roots stay. -/
theorem Valid.root_settle {k : Nat} (hk : k < s.size) : (s.settle v.index x n).root k =
      if s.root k = v.index then (s.settle v.index x n).root v.index else s.root k := by
  have hlt : k < (s.settle v.index x n).size := by rwa [size_settle]
  have hpath : Relation.ReflTransGen (s.settle v.index x n).Link k (s.root k) := by
    refine Relation.ReflTransGen.mono (fun a b hab => ?_) _ _ (h.path_root hk)
    rw [Link, slots_settle hv, if_neg]
    · exact hab
    · rintro rfl
      exact isRoot_of_free hf b hab
  split
  · next hroot =>
    have hltv : v.index < (s.settle v.index x n).size := by
      rw [size_settle]
      exact (owns_iff.1 hv).2
    rw [hroot] at hpath
    exact h'.root_eq hlt (hpath.trans (h'.path_root hltv)) (h'.isRoot_root hltv)
  · next hroot =>
    refine h'.root_eq hlt hpath fun j hj => h.isRoot_root hk j ?_
    rwa [Link, slots_settle hv, if_neg hroot] at hj

theorem Valid.leader_settle (hc : s.owns c = true) : (s.settle v.index x n).leader c =
      if s.leader c = v then (s.settle v.index x n).leader v else s.leader c := by
  simp only [leader_eq_iff hv]
  unfold leader
  rw [h.root_settle hv hf h' (owns_iff.1 hc).2]
  split <;> rfl

theorem Valid.peek_settle_self (hc : s.peek c = .cell v) :
    (s.settle v.index x n).peek c = (s.settle v.index x n).peek v := by
  cases ho : s.owns c with
  | false =>
    rw [peek_foreign ho, Ty.cell.injEq] at hc
    rw [hc]
  | true =>
    have hr : s.root c.index = v.index := by
      rcases h.peek_cases ho with ⟨-, he⟩ | ⟨t, ht, he⟩
      · rw [he, Ty.cell.injEq] at hc
        exact hc ▸ rfl
      · exact absurd (he.symm.trans hc) (Ty.isCell_eq_false_iff.1 (h.proper ht) v)
    have hroot := h.root_settle hv hf h' (owns_iff.1 ho).2
    rw [if_pos hr] at hroot
    simp only [peek, owns_settle, ho, hv, hroot, if_true]

theorem Valid.peek_settle_of_ne (hc : s.peek c ≠ .cell v) :
    (s.settle v.index x n).peek c = s.peek c := by
  cases ho : s.owns c with
  | false => rw [peek_foreign ((owns_settle c).trans ho), peek_foreign ho]
  | true =>
    have hr : s.root c.index ≠ v.index := by
      intro hr
      exact hc (by simp [peek, ho, hr, hf, cellAt_index hv])
    have hroot := h.root_settle hv hf h' (owns_iff.1 ho).2
    rw [if_neg hr] at hroot
    simp only [peek, owns_settle, ho, hroot, slots_settle hv, if_neg hr]
    rfl

end

end Settle

end Store

end TensorTyping
