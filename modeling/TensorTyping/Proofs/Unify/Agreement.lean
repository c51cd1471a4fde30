import TensorTyping.Proofs.Store.Reachable

/-!
# What unification establishes

If a step leaves pairs whose sides come to agree in some later store, then so do the sides of the
pair that it was given. A run leaves no pairs, so the two types it was given agree in the store
where it ends and in every later one (`unify_agreement_lasts`).
-/
namespace TensorTyping

variable {f : Cell → Ty}
variable {x y : Ty} {ps : List (Ty × Ty)}

theorem Ty.agree_of_parts (hps : Ty.parts x y = .ok ps)
    (h : ∀ p ∈ ps, (p.1.mapCells f).agree (p.2.mapCells f) = true) :
    (x.mapCells f).agree (y.mapCells f) = true := by
  have hparts : Parallel (fun v w => (v.mapCells f).agree (w.mapCells f) = true) x y :=
    parallel_of_parts hps h
  have hx : x.isCell = false := by cases splits_of_parts hps <;> rfl
  exact agree_iff.2 ((Parallel.mapCells_iff hx (hparts.isCell_eq ▸ hx)).2 hparts)

theorem Ty.eq_cell_of_agree {c : Cell} {t : Ty} (h : (Ty.cell c).agree t = true) : t = .cell c := by
  cases t <;> simp only [agree, Bool.false_eq_true, beq_iff_eq] at h
  rw [h]

namespace Store

def Agrees (s : Store) (p : Ty × Ty) : Prop := (s.resolve p.1).agree (s.resolve p.2) = true

theorem Extends.resolve_top {s s' : Store} (h : s.Extends s') (hs : s.Valid) (t : Ty) :
    s'.resolve (s.top t) = s'.resolve t := by
  rw [h.resolve_eq, hs.resolve_top, ← h.resolve_eq]

end Store

namespace StoreM

open Store

variable {s s' s'' : Store} {site : Option Phrase}

theorem unifyPair_agrees (h : s.Valid) (hrun : unifyPair site x y s = .ok ps s')
    (hlater : s'.Extends s'') (hps : ∀ p ∈ ps, s''.Agrees p) : s''.Agrees (x, y) := by
  obtain ⟨-, hev, -⟩ := (upkeep_evolves.pair h trivial).of_ok hrun
  have hext : s.Extends s'' := hev.later.trans hlater
  rw [Agrees, ← hext.resolve_top h x, ← hext.resolve_top h y]
  cases unifyPair_cases h hrun with
  | same hsame =>
    rw [s''.resolve_eq, s''.resolve_eq]
    exact Ty.agree_mapCells _ (Ty.agree_of_same hsame)
  | binds hxy hb =>
    have he : s''.resolve (s.top x) = s''.resolve (s.top y) := by
      rw [hlater.resolve_eq, hlater.resolve_eq]
      rcases hxy with ⟨hx, hy⟩ | ⟨hy, hx⟩
      · rw [hx, hy, hb.resolve_bound]
      · rw [hx, hy, hb.resolve_bound]
    rw [he]
    exact Ty.agree_self _
  | parts _ _ _ hparts =>
    rw [s''.resolve_eq, s''.resolve_eq]
    refine Ty.agree_of_parts hparts fun p hp => ?_
    rw [← s''.resolve_eq, ← s''.resolve_eq]
    exact hps p hp

/-- When the queue is empty, whatever was in it agrees. -/
theorem Turns.agrees {l : Loop} (hturns : Turns site l ⟨s', []⟩) (h : l.store.Valid)
    (hlater : s'.Extends s'') : ∀ p ∈ l.queue, s''.Agrees p := by
  induction hturns using Relation.ReflTransGen.head_induction_on with
  | refl => exact List.forall_mem_nil _
  | head hturn hrest ih =>
    cases hturn with
    | settle hpair =>
      obtain ⟨hvalid, -, -⟩ := (upkeep_evolves.pair h trivial).of_ok hpair
      obtain ⟨-, hev, -⟩ := upkeep_evolves.turns hrest hvalid fun _ _ => trivial
      obtain ⟨hqueue, hparts⟩ := List.forall_mem_append.1 (ih hvalid)
      exact List.forall_mem_cons.2
        ⟨unifyPair_agrees h hpair (hev.later.trans hlater) hparts, hqueue⟩

theorem unify_agrees {a b : Ty} (h : s.Valid) (hrun : unify a b site s = .ok () s')
    (hlater : s'.Extends s'') : s''.Agrees (a, b) := by
  have hturns : Turns site ⟨s, [(a, b)]⟩ ⟨s', []⟩ := unifyWithin_turns hrun
  exact hturns.agrees h hlater (a, b) (.head _)

/-- Types that have been unified agree, also when they have named sizes or are function types with
parameters and relations, and they go on to agree whatever is done to the store afterwards, whether
or not it succeeds. -/
theorem unify_agreement_lasts (hs : s.Reachable) {a b : Ty} (ha : s.ownsAll a = true)
    (hb : s.ownsAll b = true) (hrun : unify a b site s = .ok () s') (ops : List Operation) :
    ∃ x y, (s'.afterAll ops).resolve? a = .ok x ∧ (s'.afterAll ops).resolve? b = .ok y ∧
      x.agree y = true := by
  have hfirst := unify_evolves hs.valid a b site
  rw [endState_of_ok hrun] at hfirst
  have hthen := hfirst.valid.afterAll_evolves ops
  have hlater : s.Extends (s'.afterAll ops) := hfirst.later.trans hthen.later
  refine ⟨_, _, if_pos (hlater.ownsAll ha), if_pos (hlater.ownsAll hb), ?_⟩
  exact unify_agrees hs.valid hrun hthen.later

/-- A cell is unified with two tensor types that agree, though only through a named size. After that
another cell is unified with it, and a unification with a third size is refused. -/
theorem unify_agreement_lasts_named :
    let s := afterAll {} [.fresh, .fresh]
    let a := Ty.tuple [.cell ⟨0, 0⟩, .cell ⟨0, 0⟩]
    let b := Ty.tuple [.tensor [.known 2] "float32", .tensor [.named "n"] "float32"]
    let ops : List Operation := [.unify (.cell ⟨0, 1⟩) (.tuple [.cell ⟨0, 0⟩]) none,
      .unify (.cell ⟨0, 0⟩) (.tensor [.known 3] "float32") none]
    s.Reachable ∧ (s.ownsAll a && s.ownsAll b) = true ∧ ∃ s', unify a b none s = .ok () s' ∧
      ∃ x y, (s'.afterAll ops).resolve? a = .ok x ∧ (s'.afterAll ops).resolve? b = .ok y ∧
        x.agree y = true := by
  intro s a b ops
  have hs : s.Reachable := ⟨0, _, rfl⟩
  have hsucceeds : succeeds (unify a b none) s = true := by decide +kernel
  obtain ⟨⟨⟩, hrun⟩ := succeeds_iff.1 hsucceeds
  exact ⟨hs, by decide +kernel, _, hrun,
    unify_agreement_lasts hs (by decide +kernel) (by decide +kernel) hrun ops⟩

end StoreM

end TensorTyping
