import TensorTyping.Proofs.Store.Reachable
import TensorTyping.Proofs.Unify.Heredity
import TensorTyping.Proofs.Unify.Rounds

/-!
# Most general unifiers

A substitution models a store when it gives every cell what it gives to the cell's value. If a
substitution that models the store makes the two sides of a pair equal, then settling the pair
succeeds, the substitution models the store that is left, and it makes the sides of the remaining
pairs equal. So unification succeeds whenever a unifier exists, and every unifier factors through
the store in which it ends.

The converse holds on plain types. Unification binds no cell to a type that is not plain if it is
given plain types, and between plain types agreement is equality.

When types of the store cannot be unified, what unification ends in is a type error.
-/
namespace TensorTyping

variable {x y : Ty} {pairs : List (Ty × Ty)}

namespace Ty

variable {t : Ty} {f : Cell → Ty}
variable {c : Cell}

theorem sizeOf_lt_of_child {u : Ty} (hu : u ∈ t.children) : sizeOf u < sizeOf t := by
  cases t with
  | tuple ts =>
    have : sizeOf u < sizeOf ts := List.sizeOf_lt_of_mem hu
    simp only [tuple.sizeOf_spec]
    omega
  | data h as =>
    have : sizeOf u < sizeOf as := List.sizeOf_lt_of_mem hu
    simp only [data.sizeOf_spec]
    omega
  | func as r ps rs =>
    simp only [mem_children_func] at hu
    simp only [func.sizeOf_spec]
    rcases hu with hu | rfl | ⟨rel, hrel, hu⟩
    · have := List.sizeOf_lt_of_mem hu
      omega
    · omega
    · have h₁ := List.sizeOf_lt_of_mem hrel
      have h₂ := List.sizeOf_lt_of_mem hu
      cases rel
      simp only [Relation.mk.sizeOf_spec] at h₁
      dsimp only at h₂
      omega
  | tensor | param | cell | handle => simp at hu

theorem sizeOf_le_mapCells (hc : c ∈ t.cellOccurrences) : sizeOf (f c) ≤ sizeOf (t.mapCells f) := by
  induction t using induction_children with
  | step t ih =>
    rcases mem_cellOccurrences.1 hc with rfl | ⟨u, hu, hc⟩
    · exact Nat.le_refl _
    · have hlt := sizeOf_lt_of_child (mapCells_mem_children f hu)
      exact (ih u hu hc).trans (Nat.le_of_lt hlt)

/-- A type in which a cell occurs and that is not the cell itself is never made equal to it. -/
theorem mapCells_ne_of_mem (ht : t.isCell = false) (hc : c ∈ t.cellOccurrences) :
    f c ≠ t.mapCells f := by
  intro he
  obtain ⟨u, hu, hc⟩ := (mem_cellOccurrences.1 hc).resolve_left (isCell_eq_false_iff.1 ht c)
  have hlt := sizeOf_lt_of_child (mapCells_mem_children f hu)
  have hle := sizeOf_le_mapCells (f := f) hc
  rw [← he] at hlt
  omega

theorem parts_of_mapCells_eq (hx : x.isCell = false) (hy : y.isCell = false)
    (hne : x.same y = false) (h : x.mapCells f = y.mapCells f) :
    ∃ ps, Ty.parts x y = .ok ps ∧ ∀ p ∈ ps, p.1.mapCells f = p.2.mapCells f := by
  have hparallel : Parallel (· = ·) (x.mapCells f) (y.mapCells f) := h ▸ .refl fun _ _ => rfl
  exact parts_of_parallel hx hne ((Parallel.mapCells_iff hx hy).1 hparallel)

end Ty

namespace Store

variable {f : Cell → Ty} {s s' : Store}

/-- The substitution `f` respects all that the store knows. -/
def Models (f : Cell → Ty) (s : Store) : Prop := ∀ c, (s.value c).mapCells f = f c

theorem Models.resolve (hf : s.Models f) (t : Ty) : (s.resolve t).mapCells f = t.mapCells f := by
  rw [s.resolve_eq, Ty.mapCells_mapCells]
  exact Ty.mapCells_congr fun c _ => hf c

theorem Models.top (hf : s.Models f) (h : s.Valid) (t : Ty) :
    (s.top t).mapCells f = t.mapCells f := by
  rw [← hf.resolve, h.resolve_top, hf.resolve]

theorem Models.kept (hf : s.Models f) (hk : s.Kept s') : s'.Models f := by
  intro c
  rw [hk.view.value_eq]
  exact hf c

theorem Models.earlier (hf : s'.Models f) (h : s.Extends s') : s.Models f := by
  intro c
  rw [← hf.resolve, s'.resolve_eq, ← h.value_eq]
  exact hf c

theorem Models.binds {v : Cell} {t : Ty} (hf : s.Models f) (hb : s.Binds v t s')
    (hvt : f v = t.mapCells f) : s'.Models f := by
  have hassign : ∀ d, (Ty.assign v (s.resolve t) d).mapCells f = f d := by
    intro d
    by_cases hd : d = v
    · rw [hd, Ty.assign_self, hf.resolve, hvt]
    · rw [Ty.assign_of_ne _ hd, Ty.mapCells_cell]
  intro c
  rw [hb.value_eq, Ty.mapCells_mapCells, Ty.mapCells_congr fun d _ => hassign d]
  exact hf c

/-- Every substitution becomes one that models the store when the values are put in first. -/
theorem Valid.models_value (h : s.Valid) (f : Cell → Ty) :
    s.Models fun c => (s.value c).mapCells f := by
  intro c
  rw [← Ty.mapCells_mapCells, ← s.resolve_eq, h.resolve_value]

/-- Pairs of types of the store that a substitution makes equal. -/
def Solves (s : Store) (f : Cell → Ty) (pairs : List (Ty × Ty)) : Prop :=
  ∀ p ∈ pairs, s.ownsAll p.1 = true ∧ s.ownsAll p.2 = true ∧ p.1.mapCells f = p.2.mapCells f

theorem Extends.solves (h : s.Extends s') (hp : s.Solves f pairs) :
    s'.Solves f pairs := fun p hm =>
  ⟨h.ownsAll (hp p hm).1, h.ownsAll (hp p hm).2.1, (hp p hm).2.2⟩

end Store

namespace StoreM

open Store

variable {s : Store} {f : Cell → Ty} {site : Option Phrase}

/-- A pair that some substitution makes equal is settled, and the substitution loses nothing. -/
theorem upkeep_complete :
    Upkeep site (fun s p => s.Models f ∧ s.Solves f [p])
      (fun s s' => s.Evolves s' ∧ (s.Models f → s'.Models f)) fun _ _ => False := by
  -- Whichever side is the cell, the substitution gives it what it gives the other side.
  have htops {s : Store} {x y : Ty} (h : s.Valid) (hf : s.Models f) (hxy : s.Solves f [(x, y)]) :
      (s.top x).mapCells f = (s.top y).mapCells f := by
    rw [hf.top h, hf.top h]
    exact (hxy (x, y) (by simp)).2.2
  have hside {s : Store} {x y u : Ty} {r : Cell} (h : s.Valid) (hf : s.Models f)
      (hxy : s.Solves f [(x, y)])
      (hru : s.top x = .cell r ∧ s.top y = u ∨ s.top y = .cell r ∧ s.top x = u) :
      f r = u.mapCells f := by
    have he := htops h hf hxy
    rcases hru with ⟨hr, hu⟩ | ⟨hr, hu⟩
    · rwa [hr, hu, Ty.mapCells_cell] at he
    · rw [hr, hu, Ty.mapCells_cell] at he
      exact he.symm
  constructor
  case kept => exact fun hk => ⟨hk.evolves, fun hf => hf.kept hk⟩
  case trans => exact fun h h' => ⟨h.1.trans h'.1, fun hf => h'.2 (h.2 hf)⟩
  case keeps => exact fun h hp => ⟨h.2 hp.1, h.1.later.solves hp.2⟩
  case binds =>
    intro s s' x y u r h hxy hru hb
    exact ⟨hb.evolves h, fun hf => hf.binds hb (hside h hf hxy.2 hru)⟩
  case parts =>
    rintro s x y ps h ⟨hf, hxy⟩ hx hy hne hparts p hp
    obtain ⟨_, hps', heq⟩ := Ty.parts_of_mapCells_eq hx hy hne (htops h hf hxy)
    cases hparts.symm.trans hps'
    obtain ⟨hox, hoy, -⟩ := hxy (x, y) (by simp)
    obtain ⟨h₁, h₂⟩ := Ty.mem_children_of_parts hparts hp
    exact ⟨hf, List.forall_mem_singleton.2 ⟨ownsAll_of_child (h.ownsAll_top hox) h₁,
      ownsAll_of_child (h.ownsAll_top hoy) h₂, heq p hp⟩⟩
  case fault =>
    rintro s s' x y fault h ⟨hf, hxy⟩ hrun
    cases unifyPair_cases h hrun with
    | foreign hof =>
      obtain ⟨hox, hoy, -⟩ := hxy (x, y) (by simp)
      simp [hox, hoy] at hof
    | @occurs _ r u hru hu hmem =>
      have hcell : (s.resolve u).isCell = false := by
        rw [s.resolve_eq, Ty.mapCells_of_not_cell _ hu, Ty.isCell_mapChildren, hu]
      have heq : f r = (s.resolve u).mapCells f := by rw [hf.resolve, hside h hf hxy hru]
      exact Ty.mapCells_ne_of_mem hcell hmem heq
    | mismatch hx hy hne hparts =>
      obtain ⟨_, hps, -⟩ := Ty.parts_of_mapCells_eq hx hy hne (htops h hf hxy)
      cases hparts.symm.trans hps

theorem unify_complete {a b : Ty} (h : s.Valid) (hf : s.Models f) (hab : s.Solves f [(a, b)]) :
    ∃ s', unify a b site s = .ok () s' ∧ s'.Models f := by
  obtain ⟨_, s', hrun, -, hmodels⟩ :=
    ((@upkeep_complete f site).run h ⟨hf, hab⟩).exists_ok fun _ _ hf => hf.2
  exact ⟨s', hrun, hmodels hf⟩

end StoreM

/-- A fault that is a type error, and not that a type is not definite. -/
def Fault.Refuses (f : Fault) : Prop := ∃ i, f = .issue i ∧ i.kind ≠ .ambiguousType

theorem Ty.ne_ambiguous_of_parts {kind : IssueKind} (h : Ty.parts x y = .error kind) :
    kind ≠ .ambiguousType := by
  rintro rfl
  exact absurd (kind_mem_of_parts h) (by decide)

def Store.OwnsPairs (s : Store) (pairs : List (Ty × Ty)) : Prop :=
  ∀ p ∈ pairs, s.ownsAll p.1 = true ∧ s.ownsAll p.2 = true

theorem Store.Extends.ownsPairs {s s' : Store} (h : s.Extends s') (hp : s.OwnsPairs pairs) :
    s'.OwnsPairs pairs := fun p hm =>
  ⟨h.ownsAll (hp p hm).1, h.ownsAll (hp p hm).2⟩

namespace StoreM

open Store

variable {s s' : Store} {site : Option Phrase} {fault : Fault}

theorem ownsPairs_of_parts {ps : List (Ty × Ty)} (h : s.Valid)
    (hxy : s.ownsAll x = true ∧ s.ownsAll y = true)
    (hparts : Ty.parts (s.top x) (s.top y) = .ok ps) : s.OwnsPairs ps := fun p hp => by
  obtain ⟨h₁, h₂⟩ := Ty.mem_children_of_parts hparts hp
  exact ⟨ownsAll_of_child (h.ownsAll_top hxy.1) h₁, ownsAll_of_child (h.ownsAll_top hxy.2) h₂⟩

theorem upkeep_owned {E : Fault → Store → Prop}
    (hfault : ∀ {s s' : Store} {x y : Ty} {f : Fault}, s.Valid → s.ownsAll x = true →
      s.ownsAll y = true → unifyPair site x y s = .error f s' → E f s') :
    Upkeep site (fun s p => s.ownsAll p.1 = true ∧ s.ownsAll p.2 = true) Evolves E where
  kept := Kept.evolves
  trans := .trans
  keeps hs hp := hp.imp hs.later.ownsAll hs.later.ownsAll
  binds h _ _ hb := hb.evolves h
  parts h hxy _ _ _ hparts := ownsPairs_of_parts h hxy hparts
  fault h hxy hrun := hfault h hxy.1 hxy.2 hrun

theorem unify_refuses {a b : Ty} (h : s.Valid) (ha : s.ownsAll a = true) (hb : s.ownsAll b = true)
    (hrun : unify a b site s = .error fault s') : fault.Refuses := by
  have hw := @upkeep_owned site (fun f _ => f.Refuses) fun {s s' x y f} h hx hy hrun => by
    cases unifyPair_cases h hrun with
    | foreign hof => simp [hx, hy] at hof
    | occurs => exact ⟨_, rfl, by simp⟩
    | mismatch _ _ _ hparts => exact ⟨_, rfl, Ty.ne_ambiguous_of_parts hparts⟩
  exact ((hw.run h ⟨ha, hb⟩).of_error hrun).2

end StoreM

namespace Store

/-- Whether nothing but plain types is known of a type. -/
def Plain (s : Store) (t : Ty) : Prop := (s.resolve t).plain = true

end Store

namespace StoreM

variable {a b : Ty}

open Store

variable {s s' : Store} {site : Option Phrase}

theorem unify_plain {t : Ty} (h : s.Valid) (ha : s.Plain a) (hb : s.Plain b)
    (hrun : unify a b site s = .ok () s') (ht : s.Plain t) : s'.Plain t := by
  rw [Plain, Ty.plain_iff_everywhere] at ha hb ht ⊢
  exact unify_holds Ty.shallow_isPlain h ha hb hrun ht

theorem unify_eq (h : s.Valid) (ha : s.Plain a) (hb : s.Plain b)
    (hrun : unify a b site s = .ok () s') : s'.resolve a = s'.resolve b := by
  have hev := unify_evolves h a b site
  rw [endState_of_ok hrun] at hev
  exact Ty.eq_of_agree (unify_plain h ha hb hrun ha) (unify_plain h ha hb hrun hb)
    (unify_agrees h hrun (.refl hev.valid))

/-- Unification computes a most general unifier. On plain types of a reachable store it succeeds
exactly when some substitution makes what is known of the two types equal. When it succeeds the two
types have become equal, and every such substitution factors through the store in which it ends. -/
theorem unify_mostGeneral (hs : s.Reachable) {a b : Ty} (ha : s.ownsAll a = true)
    (hb : s.ownsAll b = true) (hpa : (s.resolve a).plain = true)
    (hpb : (s.resolve b).plain = true) (site : Option Phrase) :
    ((∃ s', unify a b site s = .ok () s') ↔
        ∃ f : Cell → Ty, (s.resolve a).mapCells f = (s.resolve b).mapCells f) ∧
      ∀ s', unify a b site s = .ok () s' →
        s'.resolve a = s'.resolve b ∧
          ∀ f : Cell → Ty, (s.resolve a).mapCells f = (s.resolve b).mapCells f →
            ∀ x, (s'.resolve x).mapCells f = (s.resolve x).mapCells f := by
  have h := hs.valid
  have hsound {s' : Store} (hrun : unify a b site s = .ok () s') :
      s'.resolve a = s'.resolve b ∧ s.Evolves s' := by
    have hev := unify_evolves h a b site
    rw [endState_of_ok hrun] at hev
    exact ⟨unify_eq h hpa hpb hrun, hev⟩
  have hcomplete {f : Cell → Ty} (hf : (s.resolve a).mapCells f = (s.resolve b).mapCells f) :
      ∃ s', unify a b site s = .ok () s' ∧ s'.Models fun c => (s.value c).mapCells f := by
    refine unify_complete h (h.models_value f) fun p hp => ?_
    obtain rfl : p = (a, b) := by simpa using hp
    refine ⟨ha, hb, ?_⟩
    rwa [s.resolve_eq, s.resolve_eq, Ty.mapCells_mapCells, Ty.mapCells_mapCells] at hf
  refine ⟨⟨?_, ?_⟩, fun s' hrun => ⟨(hsound hrun).1, fun f hf x => ?_⟩⟩
  · rintro ⟨s', hrun⟩
    obtain ⟨heq, hev⟩ := hsound hrun
    refine ⟨s'.value, ?_⟩
    rw [← hev.later.resolve_eq, ← hev.later.resolve_eq, heq]
  · rintro ⟨f, hf⟩
    obtain ⟨s', hrun, _⟩ := hcomplete hf
    exact ⟨s', hrun⟩
  · obtain ⟨_, hev⟩ := hsound hrun
    obtain ⟨s'', hrun', hmodels⟩ := hcomplete hf
    obtain rfl : s' = s'' := by simpa [hrun] using hrun'
    -- The cells that are left are free, now as before, so their values are themselves.
    have hfree : ∀ d ∈ (s'.resolve x).cellOccurrences, f d = (s.value d).mapCells f := by
      intro d hd
      rw [hev.later.free d (hev.valid.value_of_mem_resolve hd), Ty.mapCells_cell]
    calc (s'.resolve x).mapCells f
        = (s'.resolve x).mapCells fun c => (s.value c).mapCells f := Ty.mapCells_congr hfree
      _ = x.mapCells fun c => (s.value c).mapCells f := hmodels.resolve x
      _ = (s.resolve x).mapCells f := by rw [s.resolve_eq, Ty.mapCells_mapCells]

/-- A cell that is bound to a pair of free ones, against a pair with one cell in both places. -/
theorem unify_mostGeneral_pair :
    let s := afterAll {} [.fresh, .fresh, .fresh,
      .bind (.cell ⟨0, 0⟩) (.tuple [.cell ⟨0, 1⟩, .tensor [.known 2] "float32"]) none]
    let a := Ty.cell ⟨0, 0⟩
    let b := Ty.tuple [.cell ⟨0, 2⟩, .cell ⟨0, 2⟩]
    s.Reachable ∧ (s.ownsAll a && s.ownsAll b) = true ∧
      ((s.resolve a).plain && (s.resolve b).plain) = true ∧
      ∃ s', unify a b none s = .ok () s' ∧ s'.resolve a = s'.resolve b := by
  intro s a b
  have hs : s.Reachable := ⟨0, _, rfl⟩
  have hmost := unify_mostGeneral hs (a := a) (b := b) (by decide +kernel) (by decide +kernel)
    (by decide +kernel) (by decide +kernel) none
  obtain ⟨s', hrun⟩ := hmost.1.2 ⟨fun _ => .tensor [.known 2] "float32", by rfl⟩
  exact ⟨hs, by decide +kernel, by decide +kernel, s', hrun, (hmost.2 s' hrun).1⟩

theorem unify_of_cell (h : s.Valid) (ha : (s.resolve a).isCell = true)
    (hrun : StoreM.unify a b site s = .ok () s') : s'.resolve a = s'.resolve b := by
  rw [← h.isCell_top] at ha
  have hwithin : unifyWithin site (rounds s a b) [(a, b)] s = .ok () s' := hrun
  cases hr : rounds s a b with
  | zero =>
    rw [hr] at hwithin
    cases hwithin
  | succ n =>
    rw [hr] at hwithin
    obtain ⟨ps, s₁, hround, hrest⟩ := bind_eq_ok hwithin
    obtain ⟨parts, s₂, hpair, hround⟩ := bind_eq_ok hround
    have ho := unifyPair_outcome h a b site
    rw [hpair] at ho
    -- Nothing is left to do when one side is a cell.
    have hdone : parts = [] → s₂ = s' := by
      rintro rfl
      cases hround
      unfold unifyWithin at hrest
      cases hrest
      rfl
    cases ho with
    | same hsame hk =>
      obtain rfl := hdone rfl
      obtain ⟨c, hc⟩ := Ty.isCell_iff.1 ha
      have htop : s.top b = .cell c := by
        rw [hc] at hsame
        cases hb : s.top b <;> rw [hb] at hsame <;> simp_all [Ty.same]
      rw [hk.view.resolve_eq, hk.view.resolve_eq, ← h.resolve_top a, ← h.resolve_top b, hc, htop]
    | binds hru hb =>
      obtain rfl := hdone rfl
      have hlater := (hb.later h)
      rw [← hlater.resolve_top h a, ← hlater.resolve_top h b]
      rcases hru with ⟨hr, hu⟩ | ⟨hr, hu⟩
      · rw [hr, hu]
        exact hb.resolve_bound
      · rw [hr, hu]
        exact hb.resolve_bound.symm
    | parts hx =>
      rw [ha] at hx
      cases hx

end StoreM

end TensorTyping
