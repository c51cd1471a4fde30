import TensorTyping.Proofs.Unify.MostGeneral

/-!
# Unifying again

Types that have been unified agree. To unify types that agree already changes nothing: no pair that
comes up has a free cell on one side and anything else on the other, since a cell agrees only with
itself, and no pair is refused, since the parts of types that agree agree as well. Agreement is not
transitive, but it is symmetric, so the order of the two types does not matter.
-/
namespace TensorTyping.StoreM

open Store

variable {s s' : Store} {site : Option Phrase}

theorem resolve_eq_cell_of_agrees {x y u : Ty} {r : Cell} (h : s.Valid) (hxy : s.Agrees (x, y))
    (hru : s.top x = .cell r ∧ s.top y = u ∨ s.top y = .cell r ∧ s.top x = u) :
    s.resolve u = .cell r := by
  unfold Agrees at hxy
  rcases hru with ⟨hr, rfl⟩ | ⟨hr, rfl⟩
  · rw [h.resolve_of_top hr] at hxy
    rw [h.resolve_top]
    exact Ty.eq_cell_of_agree hxy
  · rw [h.resolve_of_top hr, Ty.agree_comm] at hxy
    rw [h.resolve_top]
    exact Ty.eq_cell_of_agree hxy

theorem parts_of_agrees {x y : Ty} (h : s.Valid) (hxy : s.Agrees (x, y))
    (hx : (s.top x).isCell = false) (hy : (s.top y).isCell = false)
    (hne : (s.top x).same (s.top y) = false) :
    ∃ ps, Ty.parts (s.top x) (s.top y) = .ok ps ∧ ∀ p ∈ ps, s.Agrees p := by
  simp only [Agrees, s.resolve_eq]
  refine Ty.parts_of_parallel hx hne ((Ty.Parallel.mapCells_iff hx hy).1 (Ty.agree_iff.1 ?_))
  rw [← s.resolve_eq, ← s.resolve_eq, h.resolve_top, h.resolve_top]
  exact hxy

theorem upkeep_agreed :
    Upkeep site (fun s p => (s.ownsAll p.1 = true ∧ s.ownsAll p.2 = true) ∧ s.Agrees p) Kept
      fun _ _ => False where
  kept := id
  trans := .trans
  keeps {s s' p} hk hp := by
    rw [hk.view.ownsAll_eq, hk.view.ownsAll_eq, Agrees, hk.view.resolve_eq, hk.view.resolve_eq]
    exact hp
  binds h hxy hru hb := by
    have hmem := hb.not_mem
    rw [resolve_eq_cell_of_agrees h hxy.2 hru, Ty.cellOccurrences_cell] at hmem
    exact absurd (List.mem_singleton_self _) hmem
  parts h hxy hx hy hne hparts p hp := by
    obtain ⟨_, hsame, hall⟩ := parts_of_agrees h hxy.2 hx hy hne
    cases hparts.symm.trans hsame
    exact ⟨ownsPairs_of_parts h hxy.1 hparts p hp, hall p hp⟩
  fault {s s' x y f} h hxy hrun := by
    cases unifyPair_cases h hrun with
    | foreign hof => simp [hxy.1] at hof
    | @occurs _ r u hru hu =>
      have hcell : (s.resolve u).isCell = false := by
        rw [← h.isCell_top, s.top_of_not_cell hu, hu]
      rw [resolve_eq_cell_of_agrees h hxy.2 hru] at hcell
      cases hcell
    | mismatch hx hy hne hparts =>
      obtain ⟨_, hsame, -⟩ := parts_of_agrees h hxy.2 hx hy hne
      cases hparts.symm.trans hsame

/-- Unification of the two types returns, tells nobody anything, and changes no answer. -/
def Idle (s : Store) (a b : Ty) (site : Option Phrase) : Prop :=
  ∃ s', unify a b site s = .ok () s' ∧ s'.trail = s.trail ∧ ∀ t, s'.resolve? t = s.resolve? t

theorem idle_of_agrees {a b : Ty} (h : s.Valid) (ha : s.ownsAll a = true) (hb : s.ownsAll b = true)
    (hab : s.Agrees (a, b)) (site : Option Phrase) : Idle s a b site := by
  obtain ⟨_, s', hrun, hkept⟩ :=
    ((@upkeep_agreed site).run h ⟨⟨ha, hb⟩, hab⟩).exists_ok fun _ _ hf => hf.2
  refine ⟨s', hrun, hkept.view.trail_eq, fun t => ?_⟩
  unfold resolve?
  rw [hkept.view.ownsAll_eq, hkept.view.resolve_eq]

/-- Once two types of a reachable store have been unified, to unify them again, in either order,
succeeds and changes nothing, also if they have named sizes or are function types with parameters
and relations. -/
theorem unify_idempotent (hs : s.Reachable) {a b : Ty} (ha : s.ownsAll a = true)
    (hb : s.ownsAll b = true) (hrun : unify a b site s = .ok () s') (again : Option Phrase) :
    Idle s' a b again ∧ Idle s' b a again := by
  have hev := unify_evolves hs.valid a b site
  rw [endState_of_ok hrun] at hev
  have hab := unify_agrees hs.valid hrun (.refl hev.valid)
  have hba : s'.Agrees (b, a) := by
    rw [Agrees, Ty.agree_comm]
    exact hab
  have ha' := hev.later.ownsAll ha
  have hb' := hev.later.ownsAll hb
  exact ⟨idle_of_agrees hev.valid ha' hb' hab again, idle_of_agrees hev.valid hb' ha' hba again⟩

/-- A function type with a parameter and a relation, against another without them. A cell in both of
its places is unified with a size that is known and with one that is named. -/
theorem unify_idempotent_generic :
    let s := afterAll {} [.fresh, .fresh]
    let a := Ty.func [.cell ⟨0, 0⟩] (.tuple [.cell ⟨0, 0⟩, .cell ⟨0, 1⟩]) [⟨⟨7, "t"⟩, .type⟩]
      [⟨"Identity", [.cell ⟨0, 0⟩, .cell ⟨0, 1⟩], 1, {}⟩]
    let b := Ty.func [.tensor [.known 2] "float32"]
      (.tuple [.tensor [.named "n"] "float32", .cell ⟨0, 0⟩]) [] []
    s.Reachable ∧ (s.ownsAll a && s.ownsAll b) = true ∧ ∃ s', unify a b none s = .ok () s' ∧
      Idle s' a b none ∧ Idle s' b a none := by
  intro s a b
  have hs : s.Reachable := ⟨0, _, rfl⟩
  have hsucceeds : succeeds (unify a b none) s = true := by decide +kernel
  obtain ⟨⟨⟩, hrun⟩ := succeeds_iff.1 hsucceeds
  exact ⟨hs, by decide +kernel, _, hrun,
    unify_idempotent hs (by decide +kernel) (by decide +kernel) hrun none⟩

end TensorTyping.StoreM
