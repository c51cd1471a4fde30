import TensorTyping.Proofs.Relation.Conclusions
import TensorTyping.Proofs.Relation.Refinement
import TensorTyping.Proofs.Ty.Heredity
import TensorTyping.Proofs.Unify.Pair

/-!
# What unification keeps of types

A condition that is asked of every part of a type, and that holds of what is known of the types
given to unification, holds of what is known afterwards: no cell is bound to anything but parts of
the types that were given. Of other types nothing new becomes known (`Within`).
-/
namespace TensorTyping

open List

namespace Ty

theorem mapCells_mem_children (f : Cell → Ty) {t u : Ty} (hu : u ∈ t.children) :
    u.mapCells f ∈ (t.mapCells f).children := by
  have ht : t.isCell = false := by
    cases t <;> first | rfl | simp at hu
  rw [mapCells_of_not_cell f ht, children_mapChildren]
  exact mem_map_of_mem hu

theorem mem_children_of_parts {x y : Ty} {ps : List (Ty × Ty)} (hps : Ty.parts x y = .ok ps)
    {p : Ty × Ty} (hp : p ∈ ps) : p.1 ∈ x.children ∧ p.2 ∈ y.children := by
  cases splits_of_parts hps with
  | tensor => simp at hp
  | tuple | data => exact of_mem_zip (a := p.1) (b := p.2) hp
  | @func as bs r q =>
    simp only [children, mem_append, mem_cons]
    rcases mem_append.1 hp with hp | hp
    · obtain ⟨h₁, h₂⟩ := of_mem_zip (a := p.1) (b := p.2) hp
      exact ⟨.inl h₁, .inl h₂⟩
    · obtain rfl : p = (r, q) := by simpa using hp
      exact ⟨.inr (.inl rfl), .inr (.inl rfl)⟩

end Ty

namespace Store

variable {q : Ty → Prop} {s s' : Store} {t u : Ty}

def Holds (q : Ty → Prop) (s : Store) (t : Ty) : Prop := Ty.Everywhere q (s.resolve t)

theorem Kept.holds (h : s.Kept s') (ht : s.Holds q t) : s'.Holds q t := by
  rw [Holds, h.view.resolve_eq]
  exact ht

theorem ownsAll_of_child (ht : s.ownsAll t = true) (hu : u ∈ t.children) : s.ownsAll u = true :=
  ownsAll_iff.2 fun c hc => ownsAll_iff.1 ht c (Ty.mem_cellOccurrences_of_child hu hc)

theorem Valid.ownsAll_resolve (h : s.Valid) (ht : s.ownsAll t = true) :
    s.ownsAll (s.resolve t) = true :=
  ownsAll_iff.2 fun _ hc => (h.free_of_mem_resolve ht hc).1

theorem ownsAll_of_children (hcell : t.isCell = false)
    (hchildren : ∀ u ∈ t.children, s.ownsAll u = true) : s.ownsAll t = true := by
  rw [ownsAll_iff]
  intro c hc
  rcases Ty.mem_cellOccurrences.1 hc with rfl | ⟨u, hu, hc⟩
  · cases hcell
  · exact ownsAll_iff.1 (hchildren u hu) c hc

theorem Holds.intro (hq : Ty.Steady q) (hcell : t.isCell = false) (hpart : q t)
    (hchildren : ∀ u ∈ t.children, s.Holds q u) : s.Holds q t := by
  unfold Holds
  rw [resolve_eq, Ty.mapCells_of_not_cell _ hcell]
  apply Ty.Everywhere.mapChildren hq hpart
  intro u hu
  rw [← resolve_eq]
  exact hchildren u hu

theorem Holds.child (ht : s.Holds q t) (hu : u ∈ t.children) : s.Holds q u := by
  rw [Holds, s.resolve_eq] at ht ⊢
  exact ht.child (Ty.mapCells_mem_children _ hu)

theorem Valid.holds_top (h : s.Valid) (ht : s.Holds q t) : s.Holds q (s.top t) := by
  rw [Holds, h.resolve_top]
  exact ht

theorem holds_of_values (hq : Ty.Shallow q) (hvalues : ∀ c, Ty.Everywhere q (s.value c))
    (ht : Ty.Everywhere q t) : s.Holds q t := by
  rw [Holds, resolve_eq]
  exact ht.mapCells hq hvalues

theorem Valid.everywhere_top (h : s.Valid) (hq : Ty.Shallow q)
    (hvalues : ∀ c, Ty.Everywhere q (s.value c)) (ht : Ty.Everywhere q t) :
    Ty.Everywhere q (s.top t) := by
  have htop := h.holds_top (holds_of_values hq hvalues ht)
  rw [Holds, resolve_eq] at htop
  exact ((Ty.Everywhere.mapCells_iff hq).1 htop).1

/-- The condition goes on holding of what is known, and more is known only of types in which cells
occur that satisfy it. What is bound already stays bound to what it is. -/
structure Within (q : Ty → Prop) (s s' : Store) : Prop where
  holds : ∀ t, s.Holds q t → s'.Holds q t
  apart : ∀ t, (∀ c ∈ (s.resolve t).cellOccurrences, ¬ q (.cell c)) →
    s'.resolve t = s.resolve t
  peek_eq : ∀ c, (s.peek c).isCell = false → s'.peek c = s.peek c

theorem Within.trans {s'' : Store} (h : s.Within q s') (h' : s'.Within q s'') : s.Within q s'' where
  holds t ht := h'.holds t (h.holds t ht)
  apart t ht := by
    have heq := h.apart t ht
    rw [h'.apart t (by rwa [heq]), heq]
  peek_eq c hc := by
    have heq := h.peek_eq c hc
    rw [h'.peek_eq c (by rwa [heq]), heq]

theorem Kept.within (h : s.Kept s') : s.Within q s' where
  holds _ := h.holds
  apart t _ := h.view.resolve_eq t
  peek_eq c _ := h.view.peek_eq c

theorem Binds.within (hq : Ty.Steady q) {v : Cell} (h : s.Binds v u s') (hv : q (.cell v))
    (hu : s.Holds q u) : s.Within q s' where
  holds t ht := by
    rw [Holds, h.resolve_eq]
    refine ht.replace_of hq (fun _ _ => id) (fun _ hx => .intro hx (by simp)) ?_
    intro c _ hc
    by_cases hcv : c = v
    · rw [hcv, Ty.assign_self]
      exact hu
    · rw [Ty.assign_of_ne _ hcv]
      exact .intro hc (by simp)
  apart t ht := by
    rw [h.resolve_eq]
    exact Ty.mapCells_assign_of_not_mem _ fun hmem => ht v hmem hv
  peek_eq c hc := h.peek_of_ne c (Ty.isCell_eq_false_iff.1 hc v)

/-- The type belongs to the store, and the condition holds everywhere in what is known of it. -/
def Meets (q : Ty → Prop) (s : Store) (t : Ty) : Prop := s.ownsAll t = true ∧ s.Holds q t

namespace Meets

section

variable (h : s.Meets q t)

include h

theorem child (hu : u ∈ t.children) : s.Meets q u := ⟨ownsAll_of_child h.1 hu, h.2.child hu⟩

theorem top (hs : s.Valid) : s.Meets q (s.top t) := ⟨hs.ownsAll_top h.1, hs.holds_top h.2⟩

theorem resolve (hs : s.Valid) : s.Meets q (s.resolve t) := by
  refine ⟨hs.ownsAll_resolve h.1, ?_⟩
  rw [Holds, hs.resolve_resolve]
  exact h.2

theorem within (hs : s.Evolves s') (hwithin : s.Within q s') : s'.Meets q t :=
  ⟨hs.later.ownsAll h.1, hwithin.holds t h.2⟩

theorem of_resolve_eq (hs : s.Evolves s') (heq : s'.resolve t = s.resolve t) : s'.Meets q t := by
  refine ⟨hs.later.ownsAll h.1, ?_⟩
  rw [Holds, heq]
  exact h.2

theorem part (hq : ∀ f u, q (Ty.mapChildren f u) ↔ q u) (hcell : t.isCell = false) : q t := by
  have htop := h.2.top
  rw [resolve_eq, Ty.mapCells_of_not_cell _ hcell] at htop
  exact (hq _ t).1 htop

end

theorem intro (hq : Ty.Steady q) (hcell : t.isCell = false) (hpart : q t)
    (hchildren : ∀ u ∈ t.children, s.Meets q u) : s.Meets q t :=
  ⟨ownsAll_of_children hcell fun u hu => (hchildren u hu).1,
    .intro hq hcell hpart fun u hu => (hchildren u hu).2⟩

theorem of_closed (h : Ty.Everywhere q t) (hclosed : t.cellOccurrences = []) : s.Meets q t := by
  constructor
  · rw [ownsAll_iff, hclosed]
    exact forall_mem_nil _
  · rw [Holds, resolve_eq, Ty.mapCells_closed hclosed]
    exact h

theorem replace (hq : ∀ f u, q (Ty.mapChildren f u) ↔ q u) {f : TypeParam → Ty}
    (hf : ∀ p, s.Meets q (.param p) → s.Meets q (f p)) (h : s.Meets q t) :
    s.Meets q (t.replace f .cell) := by
  induction t using Ty.induction_leaves with
  | cell c => exact h
  | param p => exact hf p h
  | node t hleaf ih =>
    have hcell : t.isCell = false := by cases t <;> first | rfl | cases hleaf
    rw [Ty.replace_of_not_leaf _ _ hleaf]
    refine intro (fun f u => (hq f u).2) ?_ ((hq _ t).2 (h.part hq hcell)) fun u hu => ?_
    · rw [Ty.isCell_mapChildren, hcell]
    · rw [Ty.children_mapChildren] at hu
      obtain ⟨v, hv, rfl⟩ := mem_map.1 hu
      exact ih v hv (h.child hv)

/-- A rule concludes a tensor type or a part of a type in its slots. -/
theorem of_verdict (hq : Ty.Steady q) (htensor : ∀ shape dtype, q (.tensor shape dtype))
    {rule : Rule} {types : List Ty} {attrs : Attrs} {slot : Nat}
    (htypes : ∀ u ∈ types, s.Meets q u) (h : rule.verdict types attrs = .ok (.holds slot t)) :
    s.Meets q t := by
  rcases (Rule.conclude_ends rule types attrs).of_ok (Rule.verdict_eq_holds.1 h).1 with
    ⟨shape, dtype, rfl, -⟩ | ⟨-, ts, hts, ht⟩
  · exact intro hq rfl (htensor shape dtype) (by simp)
  · exact (htypes _ hts).child ht

end Meets

/-- Cells have become type parameters with numbers above the one given: the change stays within
whatever condition holds of cells and of such parameters. -/
def Names (last : Serial) (s s' : Store) : Prop :=
  ∀ q, Ty.Steady q → (∀ c, q (.cell c)) → (∀ p : TypeParam, last < p.serial → q (.param p)) →
    s.Within q s'

theorem Kept.names (last : Serial) (h : s.Kept s') : s.Names last s' := fun _ _ _ _ => h.within

theorem Names.trans {s'' : Store} {last last' : Serial} (h : s.Names last s')
    (h' : s'.Names last' s'') (hle : last ≤ last') : s.Names last s'' :=
  fun q hq hcell hparam => (h q hq hcell hparam).trans
    (h' q hq hcell fun p hp => hparam p (Nat.lt_of_le_of_lt hle hp))

end Store

namespace StoreM

open Store

variable {q : Ty → Prop} {s s' : Store} {site : Option Phrase}

theorem bind_param_names (h : s.Valid) {v : Ty} {p : TypeParam} {last : Serial}
    (hp : last < p.serial) (hrun : bind v (.param p) site s = .ok () s') : s.Names last s' := by
  intro q hq hcell hparam
  have ho := bind_outcome h v (.param p) site
  rw [hrun] at ho
  cases ho with
  | already _ _ hk => exact hk.within
  | binds _ hb =>
    refine hb.within hq (hcell _) ?_
    rw [Holds, s.resolve_eq, Ty.mapCells_param]
    exact .intro (hparam p hp) (by simp)

/-- Settling pairs that satisfy the condition keeps it, and leaves pairs that satisfy it. -/
theorem upkeep_within (hq : Ty.Steady q) :
    Upkeep site (fun s p => s.Holds q p.1 ∧ s.Holds q p.2) (Within q) fun _ _ => True where
  kept := Kept.within
  trans := .trans
  keeps hs hp := hp.imp (hs.holds _) (hs.holds _)
  binds {s s' x y u r} h hxy hru hb := by
    have hsides : s.Holds q (.cell r) ∧ s.Holds q u := by
      rcases hru with ⟨hr, rfl⟩ | ⟨hr, rfl⟩
      · exact ⟨hr ▸ h.holds_top hxy.1, h.holds_top hxy.2⟩
      · exact ⟨hr ▸ h.holds_top hxy.2, h.holds_top hxy.1⟩
    rw [Holds, show s.resolve (.cell r) = .cell r from hb.free] at hsides
    exact hb.within hq hsides.1.top hsides.2
  parts h hxy _ _ _ hparts p hp := by
    obtain ⟨h₁, h₂⟩ := Ty.mem_children_of_parts hparts hp
    exact ⟨(h.holds_top hxy.1).child h₁, (h.holds_top hxy.2).child h₂⟩
  fault _ _ _ := trivial

/-- Unification works within what is known of the types that it is given. -/
theorem unify_within (hq : Ty.Steady q) {a b : Ty} (h : s.Valid) (ha : s.Holds q a)
    (hb : s.Holds q b) (hrun : unify a b site s = .ok () s') : s.Within q s' :=
  ((upkeep_within hq).within h _ (forall_mem_singleton.2 ⟨ha, hb⟩)).of_ok hrun

theorem unify_holds (hq : Ty.Shallow q) {a b : Ty} (h : s.Valid) (ha : s.Holds q a)
    (hb : s.Holds q b) (hrun : unify a b site s = .ok () s') {t : Ty} (ht : s.Holds q t) :
    s'.Holds q t :=
  (unify_within hq.steady h ha hb hrun).holds t ht

theorem unify_free_cell {c : Cell} {t : Ty} (h : s.Valid) (hc : s.value c = .cell c)
    (ht : t.isCell = false) (hrun : unify (.cell c) t site s = .ok () s') : s'.peek c = t := by
  have htop : s.top (.cell c) = .cell c := h.peek_of_value hc
  have htop' : s.top t = t := s.top_of_not_cell ht
  unfold unify at hrun
  rw [get_bind] at hrun
  obtain ⟨n, hn⟩ : ∃ n, rounds s (.cell c) t = n + 1 :=
    Nat.exists_eq_succ_of_ne_zero (by simp [rounds])
  rw [hn] at hrun
  unfold unifyWithin at hrun
  obtain ⟨ps, s₁, hround, hrun⟩ := bind_eq_ok hrun
  unfold unifyRound at hround
  obtain ⟨ps₁, s₂, hpair, hround⟩ := bind_eq_ok hround
  have hpairs := unifyPair_outcome h (.cell c) t site
  rw [hpair] at hpairs
  cases hpairs with
  | same hsame =>
    rw [htop, htop'] at hsame
    cases t with
    | cell => cases ht
    | _ => cases hsame
  | parts hx =>
    rw [htop] at hx
    cases hx
  | binds hr hbinds =>
    cases hround
    rw [append_nil, unifyWithin] at hrun
    cases hrun
    obtain ⟨rfl, rfl⟩ : c = _ ∧ t = _ := by
      rcases hr with ⟨hr, hu⟩ | ⟨hr, hu⟩
      · rw [htop] at hr
        rw [htop'] at hu
        exact ⟨by simpa using hr, hu⟩
      · rw [htop'] at hr
        rw [hr] at ht
        cases ht
    rw [hbinds.peek_self _ (h.peek_of_value hc), htop']

end StoreM

end TensorTyping
