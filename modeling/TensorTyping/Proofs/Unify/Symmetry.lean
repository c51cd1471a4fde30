import Mathlib.Data.List.Zip
import TensorTyping.Proofs.Relation.Refinement
import TensorTyping.Proofs.Simulation
import TensorTyping.Proofs.Unify.MostGeneral

/-!
# The order of the two types

To unify two types in the one order or in the other comes to the same. The two runs take the same
steps with the sides exchanged. They differ only where two free cells meet: then each run makes
another of the two the root, and from there on they find different roots for the cells of a group.
But the groups are the same, and so are the types that they are bound to (`Twins`). So the runs go
on to take the same branches, and if one is refused then the other is, for a reason of the same
kind.
-/
namespace TensorTyping

open List

variable {u : Ty}

theorem Numeral.same_comm (a b : Numeral) : a.same b = b.same a := by
  cases a <;> cases b <;> simp only [same] <;> rw [Bool.beq_comm]

mutual
theorem Value.same_comm (v w : Value) : v.same w = w.same v := by
  cases v <;> cases w
  case list.list vs ws => exact Value.sameList_comm vs ws
  all_goals first | rfl | exact Bool.beq_comm | (simp only [same]; exact Numeral.same_comm _ _)
theorem Value.sameList_comm (vs ws : List Value) : sameList vs ws = sameList ws vs := by
  cases vs <;> cases ws
  case cons.cons v vs w ws =>
    rw [sameList, sameList, Value.same_comm v w, Value.sameList_comm vs ws]
  all_goals rfl
end

theorem Attrs.same_comm (a b : Attrs) : a.same b = b.same a := by
  have hzip : ∀ es fs : List (String × Value),
      ((es.zip fs).all fun p => p.1.1 == p.2.1 && p.1.2.same p.2.2) =
        (fs.zip es).all fun p => p.1.1 == p.2.1 && p.1.2.same p.2.2 := by
    intro es fs
    rw [← zip_swap, all_map]
    congr 1
    funext p
    exact congrArg₂ and Bool.beq_comm (Value.same_comm _ _)
  rw [same, same, Bool.beq_comm, hzip]

namespace Ty

theorem sameList_comm_of {ts us : List Ty} (h : ∀ t ∈ ts, ∀ u, t.same u = u.same t) :
    sameList ts us = sameList us ts := by
  induction ts generalizing us with
  | nil => cases us <;> rfl
  | cons t ts ih =>
    cases us with
    | nil => rfl
    | cons u us =>
      rw [sameList, sameList, h t (.head _) u,
        ih fun v hv => h v (mem_cons_of_mem t hv)]

theorem sameRelations_comm_of {rs ss : List TypeRelation}
    (h : ∀ r ∈ rs, ∀ t ∈ r.args, ∀ u, t.same u = u.same t) :
    sameRelations rs ss = sameRelations ss rs := by
  induction rs generalizing ss with
  | nil => cases ss <;> rfl
  | cons r rs ih =>
    cases ss with
    | nil => rfl
    | cons s ss =>
      rw [sameRelations, sameRelations, sameList_comm_of (h r (.head _)),
        ih fun q hq => h q (mem_cons_of_mem r hq), Attrs.same_comm r.attrs,
        Bool.beq_comm (a := r.name), Bool.beq_comm (a := r.inputs)]

theorem same_comm (t u : Ty) : t.same u = u.same t := by
  induction t using induction_children generalizing u with
  | step t ih =>
    cases t with
    | tuple ts =>
      cases u <;> first | rfl | exact sameList_comm_of ih
    | data h as =>
      have has (us : List Ty) : sameList as us = sameList us as := sameList_comm_of ih
      cases u <;> simp only [same, has]
      rw [Bool.beq_comm]
    | func as r ps rs =>
      have has (us : List Ty) : sameList as us = sameList us as :=
        sameList_comm_of fun t ht => ih t (by simp [ht])
      have hrs (ss : List TypeRelation) : sameRelations rs ss = sameRelations ss rs :=
        sameRelations_comm_of fun q hq t ht => ih t (by
          simp only [mem_children_func]
          exact .inr (.inr ⟨q, hq, ht⟩))
      cases u <;> simp only [same, has, hrs, ih r (by simp)]
      rw [Bool.beq_comm (a := ps)]
    | tensor s d =>
      cases u <;> simp only [same]
      rw [Bool.beq_comm (a := s), Bool.beq_comm (a := d)]
    | param | cell | handle =>
      cases u <;> simp only [same]
      rw [Bool.beq_comm]

theorem parts_swap (x y : Ty) : Ty.parts y x = (Ty.parts x y).map (List.map Prod.swap) := by
  cases x <;> cases y <;> try rfl
  case tensor.tensor s d s' d' =>
    simp only [parts, Shape.agree_comm s' s, ne_comm (a := d')]
    split
    · rfl
    · split <;> rfl
  case tuple.tuple ts us =>
    simp only [parts, eq_comm (a := us.length)]
    split
    · exact congrArg Except.ok (zip_swap ts us).symm
    · rfl
  case func.func as r _ _ bs q _ _ =>
    simp only [parts, eq_comm (a := bs.length)]
    split
    · simp [Except.map, zip_swap]
    · rfl
  case data.data hd as hd' bs =>
    simp only [parts, eq_comm (a := bs.length), ne_comm (a := hd')]
    split
    · rfl
    · split
      · exact congrArg Except.ok (zip_swap as bs).symm
      · rfl

theorem same_cell_of_not_cell (c : Cell) {t : Ty} (ht : t.isCell = false) :
    (Ty.cell c).same t = false := by
  cases t <;> first | rfl | cases ht

end Ty

namespace Store

variable {s s' t t' : Store} {v : Cell}
variable {q : Cell}

namespace Valid

variable {c : Cell}

theorem owns_leader (h : s.Valid) (hc : s.owns c = true) : s.owns (s.leader c) = true :=
  owns_cellAt.2 (h.root_lt (owns_iff.1 hc).2)

theorem leader_leader (h : s.Valid) (hc : s.owns c = true) :
    s.leader (s.leader c) = s.leader c := by
  have hi := (owns_iff.1 hc).2
  rw [leader_eq_iff (h.owns_leader hc)]
  exact h.root_of_isRoot (h.root_lt hi) (h.isRoot_root hi)

theorem peek_of_isCell (h : s.Valid) (hc : s.owns c = true) (hcell : (s.peek c).isCell = true) :
    s.peek c = .cell (s.leader c) := by
  rcases h.peek_cases hc with ⟨-, he⟩ | ⟨t, ht, he⟩
  · exact he
  · rw [he, h.proper ht] at hcell
    cases hcell

theorem leader_of_peek (h : s.Valid) {d : Cell} (hc : s.owns c = true) (hd : s.peek c = .cell d) :
    s.leader c = d := by
  have hpeek := h.peek_of_isCell hc (by rw [hd]; rfl)
  rw [hd, Ty.cell.injEq] at hpeek
  exact hpeek.symm

theorem leader_of_top (h : s.Valid) {x : Ty} (hx : s.ownsAll x = true) {r : Cell}
    (hr : s.top x = .cell r) : s.owns r = true ∧ s.leader r = r := by
  have howns := (h.top_eq_cell hx hr).1
  have hpeek : s.top (.cell r) = .cell r := by rw [← hr, h.top_top]
  exact ⟨howns, h.leader_of_peek howns hpeek⟩

end Valid

theorem Binds.leader_self (h : s.Valid) (hb : s.Binds v u s') : s.leader v = v :=
  h.leader_of_peek hb.owns (h.peek_of_value hb.free)

theorem Binds.isCell_link (hb : s.Binds v (.cell q) s') (hq : s.top (.cell q) = .cell q)
    {c : Cell} : (s'.peek c).isCell = (s.peek c).isCell := by
  by_cases hc : s.peek c = .cell v
  · rw [hb.peek_self c hc, hq, hc]
    rfl
  · rw [hb.peek_of_ne c hc]

theorem Binds.peek_of_not_cell (hb : s.Binds v u s') {c : Cell} (hc : (s.peek c).isCell = false) :
    s'.peek c = s.peek c :=
  hb.peek_of_ne c fun he => by simp [he] at hc

/-- Two stores that group the same cells and bind each group to the same type, or leave it free,
but need not choose the same cell of a group to be its root. -/
structure Twins (s t : Store) : Prop where
  left : s.Valid
  right : t.Valid
  owns_eq : ∀ c, t.owns c = s.owns c
  isCell_eq : ∀ c, (t.peek c).isCell = (s.peek c).isCell
  peek_eq : ∀ c, (s.peek c).isCell = false → t.peek c = s.peek c
  leaders : ∀ {c d}, s.owns c = true → s.owns d = true →
    (t.leader c = t.leader d ↔ s.leader c = s.leader d)

namespace Twins

variable {x : Ty} {r : Cell}

theorem refl (h : s.Valid) : s.Twins s :=
  ⟨h, h, fun _ => rfl, fun _ => rfl, fun _ _ => rfl, fun _ _ => Iff.rfl⟩

section

variable (h : s.Twins t)

include h

theorem kept (hs : s.Kept s') (ht : t.Kept t') : s'.Twins t' where
  left := hs.valid
  right := ht.valid
  owns_eq c := by rw [hs.view.owns_eq, ht.view.owns_eq, h.owns_eq]
  isCell_eq c := by rw [hs.view.peek_eq, ht.view.peek_eq, h.isCell_eq]
  peek_eq c hc := by
    rw [hs.view.peek_eq] at hc ⊢
    rw [ht.view.peek_eq, h.peek_eq c hc]
  leaders {c d} hc hd := by
    rw [hs.view.owns_eq] at hc hd
    rw [ht.view.leader_eq (by rwa [h.owns_eq]), ht.view.leader_eq (by rwa [h.owns_eq]),
      hs.view.leader_eq hc, hs.view.leader_eq hd]
    exact h.leaders hc hd

theorem ownsAll_eq (x : Ty) : t.ownsAll x = s.ownsAll x := by
  have : t.owns = s.owns := funext h.owns_eq
  simp [ownsAll, this]

theorem isCell_top (x : Ty) : (t.top x).isCell = (s.top x).isCell := by
  cases x <;> first | rfl | exact h.isCell_eq _

theorem top_eq (hx : (s.top x).isCell = false) : t.top x = s.top x := by
  cases x <;> first | rfl | exact h.peek_eq _ hx

theorem top_of_cell (hx : s.ownsAll x = true) (hr : s.top x = .cell r) :
    t.top x = .cell (t.leader r) := by
  cases x with
  | cell c =>
    have hc : s.owns c = true := ownsAll_iff.1 hx c (by simp)
    have hpeek : s.peek c = .cell r := hr
    have hcell : (t.peek c).isCell = true := by rw [h.isCell_eq, hpeek]; rfl
    have hleader : t.leader c = t.leader (s.leader c) :=
      (h.leaders hc (h.left.owns_leader hc)).2 (h.left.leader_leader hc).symm
    rw [h.left.leader_of_peek hc hpeek] at hleader
    rw [← hleader]
    exact h.right.peek_of_isCell (by rwa [h.owns_eq]) hcell
  | _ => cases hr

theorem value_eq {c : Cell} (hc : s.owns c = true) :
    t.value c = (s.value c).mapCells fun d => .cell (t.leader d) := by
  induction hr : h.left.rank c.index using Nat.strong_induction_on generalizing c with
  | _ n ih =>
    rw [h.left.value_eq, h.right.value_eq, h.isCell_eq]
    cases hp : (s.peek c).isCell with
    | true =>
      have hpeek := h.left.peek_of_isCell hc hp
      have htop : t.peek c = .cell (t.leader (s.leader c)) :=
        h.top_of_cell (x := .cell c) (ownsAll_iff.2 (by simpa using hc)) hpeek
      rw [if_pos rfl, if_pos rfl, htop, hpeek, Ty.mapCells_cell]
    | false =>
      rw [if_neg (by simp), if_neg (by simp), h.peek_eq c hp, t.resolve_eq, s.resolve_eq,
        Ty.mapCells_mapCells]
      refine Ty.mapCells_congr fun d hd => ?_
      obtain ⟨hod, hlt⟩ := h.left.rank_lt_of_peek hc hp hd
      exact ih _ (hr ▸ hlt) hod rfl

theorem resolve_eq (hx : s.ownsAll x = true) :
    t.resolve x = (s.resolve x).mapCells fun d => .cell (t.leader d) := by
  rw [t.resolve_eq, s.resolve_eq, Ty.mapCells_mapCells]
  exact Ty.mapCells_congr fun c hc => h.value_eq (ownsAll_iff.1 hx c hc)

theorem mem_resolve_iff (hx : s.ownsAll x = true) (hor : s.owns r = true) (hr : s.leader r = r) :
    t.leader r ∈ (t.resolve x).cellOccurrences ↔ r ∈ (s.resolve x).cellOccurrences := by
  rw [h.resolve_eq hx, Ty.mem_cellOccurrences_mapCells]
  simp only [Ty.cellOccurrences_cell, mem_singleton]
  constructor
  · rintro ⟨d, hd, heq⟩
    have hod := (h.left.free_of_mem_resolve hx hd).1
    have hpeek := h.left.peek_of_value (h.left.value_of_mem_resolve hd)
    have hleader := (h.leaders hor hod).1 heq
    rw [hr, h.left.leader_of_peek hod hpeek] at hleader
    exact hleader ▸ hd
  · intro hmem
    exact ⟨r, hmem, rfl⟩

theorem peek_iff {c : Cell} (hor : s.owns r = true) (hr : s.leader r = r) :
    t.peek c = .cell (t.leader r) ↔ s.peek c = .cell r := by
  cases hc : s.owns c with
  | false =>
    have hne : c ≠ r := by
      rintro rfl
      rw [hor] at hc
      cases hc
    have hne' : c ≠ t.leader r := by
      rintro rfl
      rw [← h.owns_eq, h.right.owns_leader (by rwa [h.owns_eq])] at hc
      cases hc
    rw [peek_foreign hc, peek_foreign (by rwa [h.owns_eq]), Ty.cell.injEq, Ty.cell.injEq]
    exact ⟨fun he => absurd he hne', fun he => absurd he hne⟩
  | true =>
    have hc' : t.owns c = true := by rwa [h.owns_eq]
    constructor
    · intro hp
      have hpeek := h.left.peek_of_isCell hc (by rw [← h.isCell_eq, hp]; rfl)
      have hleader := (h.leaders hc hor).1 (h.right.leader_of_peek hc' hp)
      rw [hpeek, hleader, hr]
    · intro hp
      exact h.top_of_cell (x := .cell c) (ownsAll_iff.2 (by simpa using hc)) hp

theorem owns_after {v v' : Cell} {u' : Ty} (hb : s.Binds v u s') (hb' : t.Binds v' u' t')
    (c : Cell) : s'.owns c = s.owns c ∧ t'.owns c = s.owns c := by
  rw [← h.owns_eq]
  refine ⟨?_, ?_⟩
  · rw [h.owns_eq]
    simp [owns, hb.serial_eq, hb.size_eq]
  · simp [owns, hb'.serial_eq, hb'.size_eq]

theorem bound (hu : u.isCell = false) (hb : s.Binds r u s') (hb' : t.Binds (t.leader r) u t') :
    s'.Twins t' := by
  have hiff {c : Cell} := h.peek_iff (c := c) hb.owns (hb.leader_self h.left)
  have hleader {S S' : Store} {v c : Cell} (hb : S.Binds v u S') (hc : S.owns c = true) :
      S'.leader c = S.leader c := by
    rw [hb.leader_eq c hc, S.top_of_not_cell hu, Ty.cellOr_of_not_cell v hu]
    split
    · next heq => exact heq.symm
    · rfl
  have hpeek (c : Cell) : (t'.peek c).isCell = (s'.peek c).isCell ∧
      ((s'.peek c).isCell = false → t'.peek c = s'.peek c) := by
    by_cases hc : s.peek c = .cell r
    · rw [hb.peek_self c hc, hb'.peek_self c (hiff.2 hc), s.top_of_not_cell hu,
        t.top_of_not_cell hu]
      exact ⟨rfl, fun _ => rfl⟩
    · rw [hb.peek_of_ne c hc, hb'.peek_of_ne c fun he => hc (hiff.1 he)]
      exact ⟨h.isCell_eq c, h.peek_eq c⟩
  refine ⟨hb.valid, hb'.valid, fun c => ?_, fun c => (hpeek c).1, fun c => (hpeek c).2, ?_⟩
  · rw [(h.owns_after hb hb' c).1, (h.owns_after hb hb' c).2]
  · intro c d hc hd
    rw [(h.owns_after hb hb' _).1] at hc hd
    rw [hleader hb hc, hleader hb hd, hleader hb' (by rwa [h.owns_eq]),
      hleader hb' (by rwa [h.owns_eq])]
    exact h.leaders hc hd

/-- Two free groups are joined in both stores, though under the root of the one in the first and
under that of the other in the second. -/
theorem linked (hoq : s.owns q = true) (hfree : s.peek q = .cell q) (hb : s.Binds r (.cell q) s')
    (hb' : t.Binds (t.leader q) (.cell (t.leader r)) t') : s'.Twins t' := by
  have hr := hb.leader_self h.left
  have hq := h.left.leader_of_peek hoq hfree
  have htr : t.top (.cell r) = .cell (t.leader r) :=
    (h.peek_iff hb.owns hr).2 (h.left.peek_of_value hb.free)
  have htop' : t.top (.cell (t.leader r)) = .cell (t.leader r) := by rw [← htr, h.right.top_top]
  have htop : s.top (.cell q) = .cell q := hfree
  refine ⟨hb.valid, hb'.valid, fun c => ?_, fun c => ?_, fun c hc => ?_, ?_⟩
  · rw [(h.owns_after hb hb' c).1, (h.owns_after hb hb' c).2]
  · rw [hb.isCell_link htop, hb'.isCell_link htop', h.isCell_eq]
  · rw [hb.isCell_link htop] at hc
    rw [hb.peek_of_not_cell hc, hb'.peek_of_not_cell (by rwa [h.isCell_eq]), h.peek_eq c hc]
  · intro c d hc hd
    rw [(h.owns_after hb hb' _).1] at hc hd
    have hcr := h.leaders hc hb.owns
    have hcq := h.leaders hc hoq
    have hdr := h.leaders hd hb.owns
    have hdq := h.leaders hd hoq
    have hcd := h.leaders hc hd
    rw [hr] at hcr hdr
    rw [hq] at hcq hdq
    rw [hb.leader_eq c hc, hb.leader_eq d hd, hb'.leader_eq c (by rwa [h.owns_eq]),
      hb'.leader_eq d (by rwa [h.owns_eq]), htop, htop']
    simp only [Ty.cellOr]
    grind

theorem same_top {y : Ty} (hx : s.ownsAll x = true) (hy : s.ownsAll y = true) :
    (t.top y).same (t.top x) = (s.top x).same (s.top y) := by
  rw [Ty.same_comm]
  cases hcx : (s.top x).isCell with
  | false =>
    rw [h.top_eq hcx]
    cases hcy : (s.top y).isCell with
    | false => rw [h.top_eq hcy]
    | true =>
      obtain ⟨q, hq⟩ := Ty.isCell_iff.1 hcy
      rw [h.top_of_cell hy hq, hq, Ty.same_comm, Ty.same_comm _ (.cell q),
        Ty.same_cell_of_not_cell _ hcx, Ty.same_cell_of_not_cell _ hcx]
  | true =>
    obtain ⟨r, hr⟩ := Ty.isCell_iff.1 hcx
    rw [h.top_of_cell hx hr, hr]
    cases hcy : (s.top y).isCell with
    | false =>
      rw [h.top_eq hcy, Ty.same_cell_of_not_cell _ hcy, Ty.same_cell_of_not_cell _ hcy]
    | true =>
      obtain ⟨q, hq⟩ := Ty.isCell_iff.1 hcy
      obtain ⟨hor, hlr⟩ := h.left.leader_of_top hx hr
      obtain ⟨hoq, hlq⟩ := h.left.leader_of_top hy hq
      have hiff := h.leaders hor hoq
      rw [hlr, hlq] at hiff
      rw [h.top_of_cell hy hq, hq, Bool.eq_iff_iff, Ty.same, Ty.same, beq_iff_eq, beq_iff_eq]
      exact hiff

end

end Twins

end Store

namespace StoreM

variable {x y : Ty}

open Store

variable {α β γ δ : Type} {s s₁ t t₁ : Store} {site : Option Phrase}

/-- Both runs returned values that are related, or both stopped with faults of one class, and they
left stores that differ in the choice of roots only. -/
abbrev Mirror (A : Store → α → β → Prop) :
    EStateM.Result Fault Store α → EStateM.Result Fault Store β → Prop :=
  Lockstep Twins A Fault.SameClass

/-- The pairs that are left of two runs: they are the same but that their sides are exchanged, and
they are pairs of types of the store, which is a later one than `s₀`. -/
def Crossed (s₀ s : Store) (ps qs : List (Ty × Ty)) : Prop :=
  s₀.Extends s ∧ qs = ps.map Prod.swap ∧ s.OwnsPairs ps

theorem Crossed.nil (h : s.Extends s₁) : Crossed s s₁ [] [] := ⟨h, rfl, by simp [OwnsPairs]⟩

theorem unifyCell_mirror {v : Ty} (h : s.Twins t) (hk : s.Kept s₁) (hk' : t.Kept t₁)
    (hv : s.ownsAll v = true) (hu : s.ownsAll u = true) (hcv : (s.top v).isCell = true)
    (hcu : (s.top u).isCell = false) :
    Mirror (Crossed s)
      ((do bind (s.top v) (s.top u) site; return [] : StoreM (List (Ty × Ty))) s₁)
      ((do bind (t.top v) (t.top u) site; return [] : StoreM (List (Ty × Ty))) t₁) := by
  obtain ⟨r, hr⟩ := Ty.isCell_iff.1 hcv
  obtain ⟨hor, hlr⟩ := h.left.leader_of_top hv hr
  have htr := h.top_of_cell hv hr
  rw [h.top_eq hcu, hr, htr]
  have hne (c : Cell) : s.top u ≠ .cell c := fun he => by simp [he] at hcu
  have ho := bind_free_outcome h.left hk hor (by rw [← hr, h.left.top_top]) (h.left.top_top u)
    (hne r) site
  have ho' := bind_free_outcome h.right hk' (r := t.leader r)
    (h.right.owns_leader (by rwa [h.owns_eq])) (by rw [← htr, h.right.top_top])
    (t.top_of_not_cell hcu) (hne _) site
  have hown := h.left.ownsAll_top hu
  have hmem := h.mem_resolve_iff hown hor hlr
  generalize hrun : bind (.cell r) (s.top u) site s₁ = res at ho
  generalize hrun' : bind (.cell (t.leader r)) (s.top u) site t₁ = res' at ho'
  cases ho with
  | foreign hof => rw [hown] at hof; cases hof
  | occurs _ hin hkept =>
    cases ho' with
    | foreign hof => rw [h.ownsAll_eq, hown] at hof; cases hof
    | binds hb => exact absurd (hmem.2 hin) hb.not_mem
    | occurs _ _ hkept' =>
      rw [bind_of_error hrun, bind_of_error hrun']
      exact .error (h.kept hkept hkept') rfl
  | binds hb =>
    cases ho' with
    | foreign hof => rw [h.ownsAll_eq, hown] at hof; cases hof
    | occurs _ hin => exact absurd (hmem.1 hin) hb.not_mem
    | binds hb' =>
      rw [bind_of_ok hrun, bind_of_ok hrun']
      exact .ok (h.bound hcu hb hb') (.nil (hb.later h.left))

section

variable (hk : s.Kept s₁) (hx : s.ownsAll x = true) (hy : s.ownsAll y = true)
  (hne : (s.top x).same (s.top y) = false)

include hk hx hy hne

/-- Two different free cells: the runs link them in opposite ways. -/
theorem unifyCells_mirror (h : s.Twins t) (hk' : t.Kept t₁) (hcx : (s.top x).isCell = true)
    (hcy : (s.top y).isCell = true) :
    Mirror (Crossed s)
      ((do bind (s.top x) (s.top y) site; return [] : StoreM (List (Ty × Ty))) s₁)
      ((do bind (t.top y) (t.top x) site; return [] : StoreM (List (Ty × Ty))) t₁) := by
  have hne' : (t.top y).same (t.top x) = false := by rw [h.same_top hx hy, hne]
  obtain ⟨r, hr⟩ := Ty.isCell_iff.1 hcx
  obtain ⟨q, hq⟩ := Ty.isCell_iff.1 hcy
  obtain ⟨hor, hlr⟩ := h.left.leader_of_top hx hr
  obtain ⟨hoq, hlq⟩ := h.left.leader_of_top hy hq
  have htr := h.top_of_cell hx hr
  have htq := h.top_of_cell hy hq
  rw [hr, hq, Ty.same, beq_eq_false_iff_ne] at hne
  rw [htr, htq, Ty.same, beq_eq_false_iff_ne] at hne'
  rw [hr, hq, htr, htq]
  have htop {S : Store} {z : Ty} {c : Cell} (hS : S.Valid) (hz : S.top z = .cell c) :
      S.top (.cell c) = .cell c := by rw [← hz, hS.top_top]
  have ho := bind_free_outcome h.left hk hor (htop h.left hr) (htop h.left hq)
    (by simpa using hne.symm) site
  have ho' := bind_free_outcome h.right hk' (h.right.owns_leader (by rwa [h.owns_eq]))
    (htop h.right htq) (htop h.right htr) (by simpa using hne'.symm) site
  generalize hrun : bind (.cell r) (.cell q) site s₁ = res at ho
  generalize hrun' : bind (.cell (t.leader q)) (.cell (t.leader r)) site t₁ = res' at ho'
  cases ho with
  | foreign hof => simp [ownsAll, hoq] at hof
  | occurs hu => cases hu
  | binds hb =>
    cases ho' with
    | foreign hof =>
      simp [ownsAll, h.right.owns_leader (c := r) (by rwa [h.owns_eq])] at hof
    | occurs hu => cases hu
    | binds hb' =>
      rw [bind_of_ok hrun, bind_of_ok hrun']
      exact .ok (h.linked hoq (htop h.left hq) hb hb') (.nil (hb.later h.left))

theorem unifyProper_refuses {kind : IssueKind} (h : s.Valid) (hcx : (s.top x).isCell = false)
    (hcy : (s.top y).isCell = false) (hparts : Ty.parts (s.top x) (s.top y) = .error kind)
    (site : Option Phrase) :
    ∃ i s', unifyProper site (s.top x) (s.top y) s₁ = .error (.issue i) s' ∧ i.kind = kind ∧
      s.Kept s' := by
  have ho := @unifyProper_outcome _ _ _ site _ h hcx hcy hne hk
  generalize unifyProper site (s.top x) (s.top y) s₁ = res at ho
  cases ho with
  | foreign hof => simp [hx, hy] at hof
  | same hsame => rw [hne] at hsame; cases hsame
  | occurs hru => rcases hru with ⟨hr, -⟩ | ⟨hr, -⟩ <;> simp [hr] at hcx hcy
  | binds hru => rcases hru with ⟨hr, -⟩ | ⟨hr, -⟩ <;> simp [hr] at hcx hcy
  | mismatch _ _ _ hparts' _ hk' =>
    cases hparts.symm.trans hparts'
    exact ⟨_, _, rfl, rfl, hk'⟩
  | parts _ _ _ hparts' => cases hparts.symm.trans hparts'

theorem unifyProper_mirror (h : s.Twins t) (hk' : t.Kept t₁) (hcx : (s.top x).isCell = false)
    (hcy : (s.top y).isCell = false) :
    Mirror (Crossed s) (unifyProper site (s.top x) (s.top y) s₁)
      (unifyProper site (t.top y) (t.top x) t₁) := by
  have hx' : t.ownsAll x = true := by rwa [h.ownsAll_eq]
  have hy' : t.ownsAll y = true := by rwa [h.ownsAll_eq]
  cases hparts : Ty.parts (s.top x) (s.top y) with
  | ok ps =>
    have hparts' : Ty.parts (t.top y) (t.top x) = .ok (ps.map Prod.swap) := by
      rw [h.top_eq hcx, h.top_eq hcy, Ty.parts_swap, hparts]
      rfl
    simp only [unifyProper, hparts, hparts']
    refine .ok (h.kept hk hk') ⟨hk.later, rfl, ?_⟩
    exact hk.later.ownsPairs (ownsPairs_of_parts h.left ⟨hx, hy⟩ hparts)
  | error kind =>
    have hparts' : Ty.parts (t.top y) (t.top x) = .error kind := by
      rw [h.top_eq hcx, h.top_eq hcy, Ty.parts_swap, hparts]
      rfl
    have hne' : (t.top y).same (t.top x) = false := by rw [h.same_top hx hy, hne]
    obtain ⟨i, s', hrun, hi, hs'⟩ := unifyProper_refuses hk hx hy hne h.left hcx hcy hparts site
    obtain ⟨j, t', hrun', hj, ht'⟩ := unifyProper_refuses hk' hy' hx' hne'
      h.right (by rwa [h.isCell_top]) (by rwa [h.isCell_top]) hparts' site
    rw [hrun, hrun']
    exact .error (h.kept hs' ht') (hi.trans hj.symm)

end

theorem unifyPair_mirror (h : s.Twins t) (hx : s.ownsAll x = true) (hy : s.ownsAll y = true) :
    Mirror (Crossed s) (unifyPair site x y s) (unifyPair site y x t) := by
  have hx' : t.ownsTop x = true := ownsTop_of_ownsAll (by rwa [h.ownsAll_eq])
  have hy' : t.ownsTop y = true := ownsTop_of_ownsAll (by rwa [h.ownsAll_eq])
  obtain ⟨s₁, hk, hrun⟩ :=
    @unifyPair_tops _ _ _ site h.left (ownsTop_of_ownsAll hx) (ownsTop_of_ownsAll hy)
  obtain ⟨t₁, hk', hrun'⟩ := @unifyPair_tops _ _ _ site h.right hy' hx'
  rw [hrun, hrun']
  unfold unifyTops
  rw [h.same_top hx hy, h.isCell_top x, h.isCell_top y]
  cases hne : (s.top x).same (s.top y) with
  | true => exact .ok (h.kept hk hk') (.nil hk.later)
  | false =>
    cases hcx : (s.top x).isCell with
    | true =>
      cases hcy : (s.top y).isCell with
      | true => exact unifyCells_mirror hk hx hy hne h hk' hcx hcy
      | false => exact unifyCell_mirror h hk hk' hx hy hcx hcy
    | false =>
      cases hcy : (s.top y).isCell with
      | true => exact unifyCell_mirror h hk hk' hy hx hcy hcx
      | false => exact unifyProper_mirror hk hx hy hne h hk' hcx hcy

theorem unifyRound_mirror (h : s.Twins t) {pairs : List (Ty × Ty)} (hp : s.OwnsPairs pairs) :
    Mirror (Crossed s) (unifyRound site pairs s) (unifyRound site (pairs.map Prod.swap) t) := by
  induction pairs generalizing s t with
  | nil => exact .ok h (.nil (.refl h.left))
  | cons p pairs ih =>
    obtain ⟨hx, hy⟩ := hp p (by simp)
    apply (unifyPair_mirror h hx hy).bind
    rintro parts _ s₁ t₁ - h₁ ⟨hext₁, rfl, hparts⟩
    apply (ih h₁ (hext₁.ownsPairs fun q hq => hp q (.tail _ hq))).bind
    rintro rest _ s₂ t₂ - h₂ ⟨hext₂, rfl, hrest⟩
    refine .ok h₂ ⟨hext₁.trans hext₂, (map_append ..).symm, fun q hq => ?_⟩
    rcases mem_append.1 hq with hq | hq
    · exact hext₂.ownsPairs hparts q hq
    · exact hrest q hq

theorem unifyWithin_mirror (h : s.Twins t) (fuel : Nat) {pairs : List (Ty × Ty)}
    (hp : s.OwnsPairs pairs) :
    Mirror (fun _ _ _ => True) (unifyWithin site fuel pairs s)
      (unifyWithin site fuel (pairs.map Prod.swap) t) := by
  induction fuel generalizing s t pairs with
  | zero =>
    cases pairs with
    | nil => exact .ok h trivial
    | cons p pairs => exact .error h rfl
  | succ fuel ih =>
    cases pairs with
    | nil => exact .ok h trivial
    | cons p pairs =>
      apply (unifyRound_mirror h hp).bind
      rintro ps _ s₁ t₁ - h₁ ⟨-, rfl, hps⟩
      exact ih h₁ hps

theorem unify_mirror {a b : Ty} (h : s.Valid) (ha : s.ownsAll a = true) (hb : s.ownsAll b = true) :
    Mirror (fun _ _ _ => True) (unify a b site s) (unify b a site s) := by
  have hrounds : rounds s b a = rounds s a b := by simp only [rounds, max_comm b.height]
  have hpairs : s.OwnsPairs [(a, b)] := by simpa [OwnsPairs] using ⟨ha, hb⟩
  have hrun := @unifyWithin_mirror _ _ site (.refl h) (rounds s a b) _ hpairs
  change Mirror _ (unifyWithin site (rounds s a b) [(a, b)] s)
    (unifyWithin site (rounds s b a) [(b, a)] s)
  rw [hrounds]
  exact hrun

/-- The order of the two types does not matter. From a reachable store both runs return, or both
refuse the types with an issue of one kind. In either case they leave stores that group the same
cells, and in which every type resolves to the same type, but that each of them writes a group of
free cells as its own root of that group. -/
theorem unify_symmetric (hs : s.Reachable) {a b : Ty} (ha : s.ownsAll a = true)
    (hb : s.ownsAll b = true) (site : Option Phrase) :
    let s₁ := endState (unify a b site) s
    let s₂ := endState (unify b a site) s
    (unify a b site s = .ok () s₁ ∧ unify b a site s = .ok () s₂ ∨
      ∃ i j, unify a b site s = .error (.issue i) s₁ ∧ unify b a site s = .error (.issue j) s₂ ∧
        i.kind = j.kind) ∧
    (∀ c d, s.owns c = true → s.owns d = true →
      (s₁.leader c = s₁.leader d ↔ s₂.leader c = s₂.leader d)) ∧
    ∀ x, s.ownsAll x = true → ∃ u, s₁.resolve? x = .ok u ∧
      s₂.resolve? x = .ok (u.mapCells fun c => .cell (s₂.leader c)) := by
  intro s₁ s₂
  have h := hs.valid
  have hmirror := @unify_mirror s site a b h ha hb
  have htwins : s₁.Twins s₂ := hmirror.endState
  have hlater : s.Extends s₁ := (unify_evolves h a b site).later
  refine ⟨?_, fun c d hc hd => (htwins.leaders (hlater.owns hc) (hlater.owns hd)).symm,
    fun x hx => ?_⟩
  · generalize hrun : unify a b site s = res at hmirror
    generalize hrun' : unify b a site s = res' at hmirror
    cases hmirror with
    | ok => exact .inl ⟨by rw [← endState_of_ok hrun], by rw [← endState_of_ok hrun']⟩
    | @error f g _ _ _ hclass =>
      obtain ⟨i, rfl, -⟩ := unify_refuses h ha hb hrun
      obtain ⟨j, rfl, -⟩ := unify_refuses h hb ha hrun'
      exact .inr ⟨i, j, by rw [← endState_of_error hrun], by rw [← endState_of_error hrun'],
        hclass⟩
  · have hx₁ := hlater.ownsAll hx
    refine ⟨s₁.resolve x, if_pos hx₁, ?_⟩
    rw [← htwins.resolve_eq hx₁]
    exact if_pos (by rwa [htwins.ownsAll_eq])

/-- Two free cells are linked before the sizes are refused. Each order leaves a root of its own. -/
theorem unify_symmetric_refused :
    let s := afterAll {} [.fresh, .fresh]
    let a := Ty.tuple [.cell ⟨0, 0⟩, .tensor [.known 2] "float32"]
    let b := Ty.tuple [.cell ⟨0, 1⟩, .tensor [.known 3] "float32"]
    let s₁ := endState (unify a b none) s
    let s₂ := endState (unify b a none) s
    s.Reachable ∧ (s.ownsAll a && s.ownsAll b) = true ∧
      (∃ i j, unify a b none s = .error (.issue i) s₁ ∧ unify b a none s = .error (.issue j) s₂ ∧
        i.kind = j.kind) ∧
      (s₁.leader ⟨0, 0⟩ = ⟨0, 1⟩ ∧ s₂.leader ⟨0, 0⟩ = ⟨0, 0⟩) ∧
      ∃ u, s₁.resolve? b = .ok u ∧
        s₂.resolve? b = .ok (u.mapCells fun c => .cell (s₂.leader c)) := by
  intro s a b s₁ s₂
  have hs : s.Reachable := ⟨0, _, rfl⟩
  have hfails : succeeds (unify a b none) s = false := by decide +kernel
  obtain ⟨hends, -, hresolve⟩ :=
    unify_symmetric hs (a := a) (b := b) (by decide +kernel) (by decide +kernel) none
  refine ⟨hs, by decide +kernel, ?_, by decide +kernel, hresolve b (by decide +kernel)⟩
  refine hends.resolve_left fun hok => ?_
  rw [succeeds_iff.2 ⟨(), hok.1⟩] at hfails
  cases hfails

end StoreM

end TensorTyping
