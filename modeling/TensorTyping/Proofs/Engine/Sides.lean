import TensorTyping.Proofs.Engine.Trials
import TensorTyping.Proofs.Relation.Conclusions
import TensorTyping.Proofs.Unify.Heredity

/-!
# An inside and an outside

Some type parameters are inside, and every cell is inside, outside or apart. A type is on the outside
if it has no cells but those outside and none of the parameters, and on the inside if it has no cells
but those inside. Types of one side are unified by binding cells of this side to types of this side.
So the two sides never come to share a cell, and what is known of the outside does not come to mention
a parameter of the inside (`Divide.Keeps`). A cell that is apart can be bound to anything, since no
type of either side has it.

The engine works on one instance at a time, so the same holds of it if the slots of each instance
are on one side.
-/
namespace TensorTyping

inductive Side where
  | inside
  | outside
deriving DecidableEq

/-- The parameters that are inside, and the sides that cells are on. -/
structure Divide where
  params : List TypeParam
  side? : Cell → Option Side

namespace Divide

variable {D D' D'' : Divide} {side : Side} {s s' s'' : Store} {t u : Ty}
variable {c : Cell} {site : Option Phrase} {i : Instance}

/-- What a leaf on one side may be. -/
def leaf (D : Divide) : Side → Ty → Prop
  | side, .cell c => D.side? c = some side
  | .outside, .param p => p ∉ D.params
  | _, _ => True

/-- What is asked of every part of a type on one side. A parameter of the inside is bound by no
function type, on either side. -/
def part (D : Divide) (side : Side) (t : Ty) : Prop :=
  (∀ p ∈ t.binders, p ∉ D.params) ∧ D.leaf side t

theorem part_mapChildren_iff (D : Divide) (side : Side) (f : Ty → Ty) (t : Ty) :
    D.part side (t.mapChildren f) ↔ D.part side t := by
  cases t <;> cases side <;> exact Iff.rfl

theorem part_steady (D : Divide) (side : Side) : Ty.Steady (D.part side) := fun f t =>
  (D.part_mapChildren_iff side f t).2

theorem part_of_not_leaf (ht : t.isLeaf = false) (hb : ∀ p ∈ t.binders, p ∉ D.params) :
    D.part side t := by
  refine ⟨hb, ?_⟩
  cases t <;> cases side <;> trivial

theorem part_cell : D.part side (.cell c) ↔ D.side? c = some side := by
  simp [part, leaf]

/-- The type belongs to the store, and what is known of it is on one side. -/
abbrev On (D : Divide) (side : Side) (s : Store) (t : Ty) : Prop := s.Meets (D.part side) t

namespace On

variable {ts : List Ty}

theorem intro (ht : t.isLeaf = false) (hb : ∀ p ∈ t.binders, p ∉ D.params)
    (hchildren : ∀ u ∈ t.children, D.On side s u) : D.On side s t := by
  have hcell : t.isCell = false := by cases t <;> first | rfl | cases ht
  exact Store.Meets.intro (D.part_steady side) hcell (part_of_not_leaf ht hb) hchildren

theorem tensor (shape : Shape) (dtype : String) : D.On side s (.tensor shape dtype) :=
  intro rfl (by simp) (by simp)

theorem tuple (h : ∀ t ∈ ts, D.On side s t) : D.On side s (.tuple ts) :=
  intro rfl (by simp) h

theorem data (n : Handle) (h : ∀ t ∈ ts, D.On side s t) : D.On side s (.data n ts) :=
  intro rfl (by simp) h

theorem func {as : List Ty} {r : Ty} {ps : List TypeParam} {rs : List TypeRelation}
    (has : ∀ t ∈ as, D.On side s t) (hr : D.On side s r) (hps : ∀ p ∈ ps, p ∉ D.params)
    (hrs : ∀ x ∈ rs, ∀ t ∈ x.args, D.On side s t) : D.On side s (.func as r ps rs) := by
  refine intro rfl hps fun u hu => ?_
  simp only [Ty.mem_children_func] at hu
  rcases hu with hu | rfl | ⟨x, hx, hu⟩
  · exact has u hu
  · exact hr
  · exact hrs x hx u hu

theorem side_of_mem (h : D.On side s t) (hc : c ∈ (s.resolve t).cellOccurrences) :
    D.side? c = some side := part_cell.1 (Ty.Everywhere.cell_of_mem h.2 hc)

end On

/-- The store has moved on by work on one side, perhaps with new cells that have been divided. What
was on a side is on it still, and what a type stands for stays. Work on the inside leaves the cells
that are apart as they are; work on the outside may take in work on the inside. -/
structure Keeps (side : Side) (D : Divide) (s : Store) (D' : Divide) (s' : Store) : Prop where
  params_eq : D'.params = D.params
  evolves : s.Evolves s'
  peek_eq : ∀ c, (s.peek c).isCell = false → s'.peek c = s.peek c
  on : ∀ {side t}, D.On side s t → D'.On side s' t
  apart : side = .inside → ∀ {c}, s.owns c = true → D.side? c = none → s.value c = .cell c →
    D'.side? c = none ∧ s'.value c = .cell c

namespace Keeps

theorem of_kept (D : Divide) (h : s.Kept s') : Keeps side D s D s' where
  params_eq := rfl
  evolves := h.evolves
  peek_eq c _ := h.view.peek_eq c
  on ht := ht.within h.evolves h.within
  apart _ c _ hc hfree := ⟨hc, (h.view.resolve_eq (.cell c)).trans hfree⟩

theorem refl (D : Divide) (h : s.Valid) : Keeps side D s D s := of_kept D (.refl h)

section

variable (h : Keeps side D s D' s')

include h

theorem owns (hc : s.owns c = true) : s'.owns c = true := by
  have hall := h.evolves.later.ownsAll (t := .cell c) (by simpa [Store.ownsAll_iff] using hc)
  simpa [Store.ownsAll_iff] using hall

theorem trans (h' : Keeps side D' s' D'' s'') : Keeps side D s D'' s'' where
  params_eq := h'.params_eq.trans h.params_eq
  evolves := h.evolves.trans h'.evolves
  peek_eq c hc := by
    rw [← h.peek_eq c hc]
    exact h'.peek_eq c (h.peek_eq c hc ▸ hc)
  on ht := h'.on (h.on ht)
  apart hside c howns hc hfree := by
    obtain ⟨hc, hfree⟩ := h.apart hside howns hc hfree
    exact h'.apart hside (h.owns howns) hc hfree

theorem outside : Keeps .outside D s D' s' :=
  ⟨h.params_eq, h.evolves, h.peek_eq, h.on, fun hno => Side.noConfusion hno⟩

theorem top_eq (ht : (s.top t).isCell = false) : s'.top t = s.top t := by
  cases t with
  | cell c => exact h.peek_eq c ht
  | _ => rfl

end

end Keeps

/-- A change that stays within one side leaves the other alone. -/
theorem keeps_of_within (hevolves : s.Evolves s') (h : s.Within (D.part side) s') :
    Keeps side D s D s' := by
  refine ⟨rfl, hevolves, h.peek_eq, ?_, ?_⟩
  · intro side' t ht
    by_cases hside : side' = side
    · subst hside
      exact ht.within hevolves h
    · refine ht.of_resolve_eq hevolves (h.apart t fun c hc hpart => hside ?_)
      rw [part_cell, ht.side_of_mem hc] at hpart
      exact Option.some.inj hpart
  · intro _ c _ hc hfree
    have hvalue : s.resolve (.cell c) = .cell c := hfree
    refine ⟨hc, (h.apart (.cell c) fun d hd hpart => ?_).trans hvalue⟩
    rw [hvalue] at hd
    obtain rfl : d = c := by simpa using hd
    rw [part_cell, hc] at hpart
    cases hpart

theorem unify_keeps {a b : Ty} (hs : s.Valid) (ha : D.On side s a) (hb : D.On side s b)
    (hrun : StoreM.unify a b site s = .ok () s') : Keeps side D s D s' :=
  keeps_of_within (endState_of_ok hrun ▸ StoreM.unify_evolves hs a b site)
    (StoreM.unify_within (D.part_steady side) hs ha.2 hb.2 hrun)

/-- Only cells that are apart. -/
def apart (D : Divide) : Ty → Prop
  | .cell c => D.side? c = none
  | _ => True

theorem unify_apart_keeps (hs : s.Valid) (hc : D.side? c = none) (hfree : s.value c = .cell c)
    (ht : t.cellOccurrences = []) (hrun : StoreM.unify (.cell c) t site s = .ok () s') :
    Keeps .outside D s D s' := by
  have hsteady : Ty.Steady D.apart := by
    intro h u hu
    cases u <;> exact hu
  have hclosed : Ty.Everywhere D.apart t := by
    refine Ty.everywhere_of_no_cells (fun u hu => ?_) ht
    cases u <;> trivial
  have hwithin : s.Within D.apart s' := by
    refine StoreM.unify_within hsteady hs ?_ ?_ hrun
    · rw [Store.Holds, show s.resolve (.cell c) = .cell c from hfree]
      exact .intro hc (by simp)
    · rwa [Store.Holds, Store.resolve_eq, Ty.mapCells_closed ht]
  have hsame {side' : Side} {u : Ty} (hu : D.On side' s u) : s'.resolve u = s.resolve u := by
    refine hwithin.apart u fun d hd hapart => ?_
    have hside := hu.side_of_mem hd
    rw [show D.side? d = none from hapart] at hside
    cases hside
  have hevolves : s.Evolves s' := endState_of_ok hrun ▸ StoreM.unify_evolves hs _ _ _
  exact ⟨rfl, hevolves, hwithin.peek_eq, fun hu => hu.of_resolve_eq hevolves (hsame hu),
    fun hno => Side.noConfusion hno⟩

def including (D : Divide) (side : Side) (c : Cell) : Divide :=
  { D with side? := fun d => if d = c then some side else D.side? d }

/-- No cell that is yet to come is on a side. -/
def Unborn (D : Divide) (s : Store) : Prop := ∀ c, s.owns c = false → D.side? c = none

theorem Unborn.later (h : D.Unborn s) (hs : s.Extends s') : D.Unborn s' := by
  intro c hc
  apply h
  by_contra howns
  have hall := hs.ownsAll (t := .cell c) (by simpa [Store.ownsAll_iff] using howns)
  simp [Store.ownsAll_iff, hc] at hall

theorem fresh_apart_keeps (hs : s.Valid) : Keeps side D s D s.fresh.2 where
  params_eq := rfl
  evolves := ⟨hs.fresh, hs.extends_fresh⟩
  peek_eq c _ := hs.peek_fresh c
  on ht := ht.of_resolve_eq ⟨hs.fresh, hs.extends_fresh⟩ (hs.resolve_fresh _)
  apart _ c _ hc hfree := ⟨hc, (hs.value_fresh c).trans hfree⟩

theorem fresh_keeps (hs : s.Valid) (h : D.Unborn s) (side : Side) :
    Keeps side D s (D.including side s.fresh.1) s.fresh.2 ∧
      (D.including side s.fresh.1).Unborn s.fresh.2 ∧
      (D.including side s.fresh.1).On side s.fresh.2 (.cell s.fresh.1) := by
  have hapart : Keeps side D s D s.fresh.2 := fresh_apart_keeps hs
  have hne {c : Cell} (hc : s.owns c = true) : c ≠ s.fresh.1 := by
    rintro rfl
    rw [s.owns_new] at hc
    cases hc
  refine ⟨⟨rfl, hapart.evolves, hapart.peek_eq, ?_, fun hside c howns hc hfree => ?_⟩, ?_, ?_, ?_⟩
  · intro side' t ht
    refine ⟨hs.extends_fresh.ownsAll ht.1, ?_⟩
    unfold Store.Holds
    rw [hs.resolve_fresh]
    refine Ty.Everywhere.of_cells ht.2 fun u hu hcells => ⟨hu.1, ?_⟩
    have hu := hu.2
    cases u with
    | cell c =>
      have howns := (hs.free_of_mem_resolve ht.1 (hcells c rfl)).1
      simpa only [leaf, including, if_neg (hne howns)] using hu
    | _ => cases side' <;> exact hu
  · simpa only [including, if_neg (hne howns)] using hapart.apart hside howns hc hfree
  · intro c hc
    have hne : c ≠ s.fresh.1 := by
      rintro rfl
      rw [s.owns_new_fresh] at hc
      cases hc
    simpa only [including, if_neg hne] using h.later hs.extends_fresh c hc
  · simp [Store.ownsAll_iff, s.owns_new_fresh]
  · have hvalue : s.fresh.2.resolve (.cell s.fresh.1) = .cell s.fresh.1 := by
      rw [hs.resolve_fresh]
      exact hs.value_foreign s.owns_new
    unfold Store.Holds
    rw [hvalue]
    exact .intro (part_cell.2 (if_pos rfl)) (by simp)

def Sided (D : Divide) (s : Store) (i : Instance) : Prop :=
  ∃ side, ∀ a ∈ i.relation.args, D.On side s a

theorem Sided.keeps (h : D.Sided s i) (hs : Keeps side D s D' s') : D'.Sided s' i := by
  obtain ⟨side', h⟩ := h
  exact ⟨side', fun a ha => hs.on (h a ha)⟩

variable {registry : Registry} {e e' : Engine}

theorem tries_keeps (hs : e.store.Valid) (h : D.Sided e.store i)
    (htries : EngineM.Tries registry i e e') : Keeps .outside D e.store D e'.store := by
  cases htries with
  | @settles entry slot t arg e₁ s _ _ hverdict harg hpeeks hunify =>
    obtain ⟨side, h⟩ := h
    have hkept : Keeps side D e.store D e₁.store := .of_kept D hpeeks.kept
    have ht : D.On side e.store t := by
      refine .of_verdict (D.part_steady side) (fun _ _ => part_of_not_leaf rfl (by simp))
        (fun u hu => ?_) hverdict
      obtain ⟨a, ha, rfl⟩ := List.mem_map.1 hu
      exact (h a ha).resolve hs
    have hs := unify_keeps hpeeks.kept.valid (hkept.on (h arg (List.mem_of_getElem? harg)))
      (hkept.on ht) hunify
    have hstore : ((e₁.moved s).discharge i.seq).store = s := Engine.store_moved e₁ s
    rw [hstore]
    exact (hkept.trans hs).outside
  | sleeps _ _ _ heyes => exact .of_kept D heyes.kept

theorem step_keeps (he : e.Valid) (h : ∀ i ∈ e.waiting, D.Sided e.store i)
    (hrun : EngineM.step registry e = .ok true e') : Keeps .outside D e.store D e'.store := by
  obtain ⟨n, rest, -, ⟨-, rfl⟩ | ⟨i, hi, -, htries⟩⟩ := EngineM.step_eq_true he.store hrun
  · exact .refl D he.store
  · have hwork := EngineM.taken_sameWork e n rest
    have hsided := h _ (Engine.mem_waiting_of_instance? hi).1
    rw [← hwork.store_eq] at hsided ⊢
    exact tries_keeps (hwork.store_eq ▸ he.store) hsided htries

theorem steps_keeps (he : e.Valid) (h : ∀ i ∈ e.waiting, D.Sided e.store i)
    (hsteps : Engine.Steps registry e e') : Keeps .outside D e.store D e'.store := by
  induction hsteps with
  | refl => exact .refl D he.store
  | @tail e₁ e₂ hsteps hstep ih =>
    have hadvances := Engine.Steps.advances hsteps he
    refine ih.trans (step_keeps (hadvances.valid he) (fun i hi => ?_) hstep)
    exact (h i (hadvances.waiting_sublist.subset hi)).keeps ih

end Divide

end TensorTyping
