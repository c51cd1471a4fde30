import Mathlib.Data.List.Basic
import Mathlib.Logic.Embedding.Basic
import TensorTyping.Operators
import TensorTyping.Proofs.Ty.Constituents
import TensorTyping.Proofs.Ty.Heredity
import TensorTyping.Proofs.Ty.VariableNames
import TensorTyping.Store.Unify

/-!
# Other serial numbers

Parameters and cells are told apart by serial numbers, and the numbers themselves mean nothing. If
other numbers are given to them, different ones to different things, every operation on types gives
the same result but for the numbers, and types have the same text.
-/
namespace TensorTyping

open List

def TypeParam.renumber (ρ : Serial → Serial) (p : TypeParam) : TypeParam :=
  { p with serial := ρ p.serial }

def Cell.renumber (ρ : Serial → Serial) (c : Cell) : Cell := ⟨ρ c.store, c.index⟩

namespace Ty

mutual
def renumber (ρ : Serial → Serial) : Ty → Ty
  | .tensor s d => .tensor s d
  | .tuple ts => .tuple (renumberList ρ ts)
  | .func as r ps rs =>
    .func (renumberList ρ as) (r.renumber ρ) (ps.map (TypeParam.renumber ρ))
      (renumberRelations ρ rs)
  | .param p => .param (p.renumber ρ)
  | .cell c => .cell (c.renumber ρ)
  | .handle h => .handle h
  | .data h as => .data h (renumberList ρ as)
def renumberList (ρ : Serial → Serial) : List Ty → List Ty
  | [] => []
  | t :: ts => t.renumber ρ :: renumberList ρ ts
def renumberRelations (ρ : Serial → Serial) : List TypeRelation → List TypeRelation
  | [] => []
  | ⟨n, as, k, ats⟩ :: rs => ⟨n, renumberList ρ as, k, ats⟩ :: renumberRelations ρ rs
end

end Ty

def TypeRelation.renumber (ρ : Serial → Serial) (r : TypeRelation) : TypeRelation :=
  { r with args := r.args.map (Ty.renumber ρ) }

def Signature.renumber (ρ : Serial → Serial) (sig : Signature) : Signature :=
  ⟨sig.args.map (Ty.renumber ρ), sig.ret.renumber ρ, sig.params.map (TypeParam.renumber ρ),
    sig.relations.map (TypeRelation.renumber ρ)⟩

theorem TypeParam.renumber_injective (ρ : Serial ↪ Serial) :
    Function.Injective (TypeParam.renumber ρ) := by
  rintro ⟨⟨n, name⟩, kind⟩ ⟨⟨n', name'⟩, kind'⟩ h
  simp only [renumber, TypeParam.mk.injEq, Symbol.mk.injEq] at h ⊢
  exact ⟨⟨ρ.injective h.1.1, h.1.2⟩, h.2⟩

theorem Cell.renumber_injective (ρ : Serial ↪ Serial) : Function.Injective (Cell.renumber ρ) := by
  rintro ⟨n, i⟩ ⟨n', i'⟩ h
  simp only [renumber, Cell.mk.injEq] at h ⊢
  exact ⟨ρ.injective h.1, h.2⟩

theorem firstAppearances_map {α β : Type} [DecidableEq α] [DecidableEq β] {f : α → β}
    (hf : Function.Injective f) (seen l : List α) :
    firstAppearances (seen.map f) (l.map f) = (firstAppearances seen l).map f := by
  induction l generalizing seen with
  | nil => rfl
  | cons a l ih =>
    simp only [map_cons, firstAppearances, mem_map_of_injective hf]
    split
    · exact ih seen
    · rw [map_cons, ← ih, map_cons]

namespace Ty

variable {ρ : Serial ↪ Serial} {t u : Ty}
variable {g g' : Cell → Ty} {f : Ty → Ty} {ts : List Ty}

theorem renumberList_eq_map (ρ : Serial ↪ Serial) (ts : List Ty) :
    renumberList ρ ts = ts.map (renumber ρ) := by
  induction ts with
  | nil => rfl
  | cons t ts ih => simp [renumberList, ih]

theorem renumberRelations_eq_map (ρ : Serial ↪ Serial) (rs : List TypeRelation) :
    renumberRelations ρ rs = rs.map (TypeRelation.renumber ρ) := by
  induction rs with
  | nil => rfl
  | cons r rs ih => simp [renumberRelations, TypeRelation.renumber, renumberList_eq_map, ih]

@[simp] theorem renumber_tensor (s : Shape) (d : String) :
    (Ty.tensor s d).renumber ρ = .tensor s d := rfl

@[simp] theorem renumber_param (p : TypeParam) : (Ty.param p).renumber ρ = .param (p.renumber ρ) :=
  rfl

@[simp] theorem renumber_cell (c : Cell) : (Ty.cell c).renumber ρ = .cell (c.renumber ρ) := rfl

@[simp] theorem renumber_handle (h : Handle) : (Ty.handle h).renumber ρ = .handle h := rfl

@[simp] theorem renumber_tuple (ts : List Ty) :
    (Ty.tuple ts).renumber ρ = .tuple (ts.map (renumber ρ)) := by
  rw [renumber, renumberList_eq_map]

@[simp] theorem renumber_data (h : Handle) (as : List Ty) :
    (Ty.data h as).renumber ρ = .data h (as.map (renumber ρ)) := by
  rw [renumber, renumberList_eq_map]

@[simp] theorem renumber_func (as : List Ty) (r : Ty) (ps : List TypeParam)
    (rs : List TypeRelation) : (Ty.func as r ps rs).renumber ρ =
      .func (as.map (renumber ρ)) (r.renumber ρ) (ps.map (TypeParam.renumber ρ))
        (rs.map (TypeRelation.renumber ρ)) := by
  rw [renumber, renumberList_eq_map, renumberRelations_eq_map]

@[simp] theorem isCell_renumber (ρ : Serial ↪ Serial) (t : Ty) :
    (t.renumber ρ).isCell = t.isCell := by
  cases t <;> rfl

theorem children_renumber (ρ : Serial ↪ Serial) (t : Ty) :
    (t.renumber ρ).children = t.children.map (renumber ρ) := by
  cases t with
  | func as r ps rs =>
    simp [map_flatMap, flatMap_map, TypeRelation.renumber]
  | _ => simp

/-! ## What occurs in a type -/

theorem cellOccurrences_renumber (ρ : Serial ↪ Serial) (t : Ty) :
    (t.renumber ρ).cellOccurrences = t.cellOccurrences.map (Cell.renumber ρ) := by
  induction t using induction_cells with
  | cell c => rfl
  | node t ht ih =>
    rw [cellOccurrences_eq_flatMap ht, cellOccurrences_eq_flatMap (by rwa [isCell_renumber]),
      children_renumber, flatMap_map, map_flatMap]
    exact flatMap_congr ih

theorem cellOccurrencesList_renumber (ρ : Serial ↪ Serial) (ts : List Ty) :
    cellOccurrencesList (ts.map (renumber ρ)) =
      (cellOccurrencesList ts).map (Cell.renumber ρ) := by
  rw [cellOccurrencesList_eq_flatMap, cellOccurrencesList_eq_flatMap, flatMap_map,
    map_flatMap]
  exact flatMap_congr fun t _ => cellOccurrences_renumber ρ t

theorem cellsOf_renumber (ts : List Ty) :
    cellsOf (ts.map (renumber ρ)) = (cellsOf ts).map (Cell.renumber ρ) := by
  unfold cellsOf
  rw [cellOccurrencesList_renumber]
  exact firstAppearances_map (Cell.renumber_injective ρ) [] _

theorem cells_renumber (t : Ty) :
    (t.renumber ρ).cells = t.cells.map (Cell.renumber ρ) := cellsOf_renumber [t]

theorem binders_renumber (ρ : Serial ↪ Serial) (t : Ty) :
    (t.renumber ρ).binders = t.binders.map (TypeParam.renumber ρ) := by
  cases t with
  | func as r ps rs =>
    rw [renumber_func]
    rfl
  | _ => rfl

theorem paramOccurrences_renumber (t : Ty) (bound : List TypeParam) :
    (t.renumber ρ).paramOccurrences (bound.map (TypeParam.renumber ρ)) =
      (t.paramOccurrences bound).map (TypeParam.renumber ρ) := by
  induction t using induction_children generalizing bound with
  | step t ih =>
    by_cases ht : ∃ p, t = .param p
    · obtain ⟨p, rfl⟩ := ht
      simp only [renumber_param, paramOccurrences,
        mem_map_of_injective (TypeParam.renumber_injective ρ)]
      split <;> rfl
    · have hnot : ∀ p, t ≠ .param p := fun p hp => ht ⟨p, hp⟩
      have hnot' : ∀ p, t.renumber ρ ≠ .param p := by
        intro p hp
        cases t with
        | param q => exact hnot q rfl
        | _ => simp at hp
      rw [paramOccurrences_eq_flatMap _ hnot, paramOccurrences_eq_flatMap _ hnot',
        children_renumber, binders_renumber, ← map_append, flatMap_map, map_flatMap]
      exact flatMap_congr fun u hu => ih u hu _

theorem freeParamsOf_renumber (ts : List Ty) :
    freeParamsOf (ts.map (renumber ρ)) = (freeParamsOf ts).map (TypeParam.renumber ρ) := by
  have hoccurrences : paramOccurrencesList [] (ts.map (renumber ρ)) =
      (paramOccurrencesList [] ts).map (TypeParam.renumber ρ) := by
    rw [paramOccurrencesList_eq_flatMap, paramOccurrencesList_eq_flatMap, flatMap_map,
      map_flatMap]
    exact flatMap_congr fun t _ => paramOccurrences_renumber t []
  unfold freeParamsOf
  rw [hoccurrences]
  exact firstAppearances_map (TypeParam.renumber_injective ρ) [] _

/-! ## Operations on types -/

theorem mapChildren_renumber {h h' : Ty → Ty}
    (hh : ∀ u ∈ t.children, h' (u.renumber ρ) = (h u).renumber ρ) :
    (t.renumber ρ).mapChildren h' = (t.mapChildren h).renumber ρ := by
  cases t with
  | tuple ts => simpa [mapChildren] using hh
  | data hd as => simpa [mapChildren] using hh
  | func as r ps rs =>
    simp only [mem_children_func] at hh
    have has : ∀ u ∈ as, h' (u.renumber ρ) = (h u).renumber ρ := fun u hu => hh u (.inl hu)
    have hr : h' (r.renumber ρ) = (h r).renumber ρ := hh r (.inr (.inl rfl))
    have hrs : ∀ rel ∈ rs, ∀ u ∈ rel.args, h' (u.renumber ρ) = (h u).renumber ρ :=
      fun rel hrel u hu => hh u (.inr (.inr ⟨rel, hrel, hu⟩))
    simp only [renumber_func, mapChildren, map_map, hr, Ty.func.injEq, map_inj_left,
      Function.comp_apply, TypeRelation.renumber, true_and, Relation.mk.injEq, and_true]
    exact ⟨has, hrs⟩
  | _ => rfl

theorem replace_renumber {f f' : TypeParam → Ty} (hf : ∀ p, f' (p.renumber ρ) = (f p).renumber ρ)
    (hg : ∀ c, g' (c.renumber ρ) = (g c).renumber ρ) (t : Ty) :
    (t.renumber ρ).replace f' g' = (t.replace f g).renumber ρ := by
  induction t using induction_leaves with
  | cell c => exact hg c
  | param p => exact hf p
  | node t ht ih =>
    have ht' : (t.renumber ρ).isLeaf = false := by
      cases t <;> first | rfl | cases ht
    rw [replace_of_not_leaf f g ht, replace_of_not_leaf f' g' ht']
    exact mapChildren_renumber ih

theorem mapCells_renumber (hg : ∀ c, g' (c.renumber ρ) = (g c).renumber ρ) (t : Ty) :
    (t.renumber ρ).mapCells g' = (t.mapCells g).renumber ρ :=
  replace_renumber (fun _ => rfl) hg t

theorem onParam_ofParams_renumber (ps : List TypeParam) (ts : List Ty) (p : TypeParam) :
    (Substitution.ofParams (ps.map (TypeParam.renumber ρ)) (ts.map (renumber ρ))).onParam
      (p.renumber ρ) = ((Substitution.ofParams ps ts).onParam p).renumber ρ := by
  simp only [Substitution.onParam, Substitution.ofParams, zip_map, map_map,
    foldl_map, Function.comp_apply, Prod.map, (TypeParam.renumber_injective ρ).eq_iff]
  rw [← renumber_param]
  generalize Ty.param p = start
  induction ps.zip ts generalizing start with
  | nil => rfl
  | cons e es ih =>
    rw [foldl_cons, foldl_cons, ← ih]
    split <;> rfl

theorem apply_ofParams_renumber (ρ : Serial ↪ Serial) (ps : List TypeParam) (ts : List Ty)
    (t : Ty) :
    (Substitution.ofParams (ps.map (TypeParam.renumber ρ)) (ts.map (renumber ρ))).apply
      (t.renumber ρ) = ((Substitution.ofParams ps ts).apply t).renumber ρ := by
  apply replace_renumber
  · exact onParam_ofParams_renumber ps ts
  · intro c
    rw [Substitution.onCell_ofParams, Substitution.onCell_ofParams, renumber_cell]

theorem sameList_map {us : List Ty} (hf : ∀ t ∈ ts, ∀ u, (f t).same (f u) = t.same u) :
    sameList (ts.map f) (us.map f) = sameList ts us := by
  induction ts generalizing us with
  | nil => cases us <;> rfl
  | cons t ts ih =>
    rw [forall_mem_cons] at hf
    cases us with
    | nil => rfl
    | cons u us => simp only [map_cons, sameList, hf.1 u, ih hf.2]

theorem sameRelations_renumber {rs ss : List TypeRelation}
    (h : ∀ r ∈ rs, ∀ t ∈ r.args, ∀ u, (t.renumber ρ).same (u.renumber ρ) = t.same u) :
    sameRelations (rs.map (TypeRelation.renumber ρ)) (ss.map (TypeRelation.renumber ρ)) =
      sameRelations rs ss := by
  induction rs generalizing ss with
  | nil => cases ss <;> rfl
  | cons r rs ih =>
    rw [forall_mem_cons] at h
    cases ss with
    | nil => rfl
    | cons s ss =>
      simp only [map_cons, TypeRelation.renumber, sameRelations, sameList_map h.1]
      rw [← ih h.2]

theorem same_renumber (t u : Ty) : (t.renumber ρ).same (u.renumber ρ) = t.same u := by
  induction t using induction_children generalizing u with
  | step t ih =>
    cases t with
    | tuple ts =>
      cases u with
      | tuple us =>
        simp only [renumber_tuple, same]
        exact sameList_map ih
      | _ => simp [same]
    | data h as =>
      cases u with
      | data h' as' =>
        have hparts : ∀ t ∈ as, ∀ u, (t.renumber ρ).same (u.renumber ρ) = t.same u := ih
        simp only [renumber_data, same]
        rw [sameList_map hparts]
      | _ => simp [same]
    | func as r ps rs =>
      cases u with
      | func as' r' ps' rs' =>
        simp only [mem_children_func] at ih
        have hps : (ps.map (TypeParam.renumber ρ) == ps'.map (TypeParam.renumber ρ)) =
            (ps == ps') := by
          rw [Bool.eq_iff_iff, beq_iff_eq, beq_iff_eq]
          exact (map_injective_iff.2 (TypeParam.renumber_injective ρ)).eq_iff
        simp only [renumber_func, same, hps]
        rw [sameList_map fun t ht => ih t (.inl ht), ih r (.inr (.inl rfl)),
          sameRelations_renumber fun x hx t ht => ih t (.inr (.inr ⟨x, hx, ht⟩))]
      | _ => simp [same]
    | param p =>
      cases u with
      | param q =>
        simp only [renumber_param, same]
        rw [Bool.eq_iff_iff, beq_iff_eq, beq_iff_eq]
        exact (TypeParam.renumber_injective ρ).eq_iff
      | _ => simp [same]
    | cell c =>
      cases u with
      | cell d =>
        simp only [renumber_cell, same]
        rw [Bool.eq_iff_iff, beq_iff_eq, beq_iff_eq]
        exact (Cell.renumber_injective ρ).eq_iff
      | _ => simp [same]
    | tensor s d => cases u <;> simp [same]
    | handle h => cases u <;> simp [same]

theorem heightList_map (hf : ∀ t ∈ ts, (f t).height = t.height) :
    heightList (ts.map f) = heightList ts := by
  induction ts with
  | nil => rfl
  | cons t ts ih =>
    rw [forall_mem_cons] at hf
    simp only [map_cons, heightList, hf.1, ih hf.2]

@[simp] theorem height_renumber (ρ : Serial ↪ Serial) (t : Ty) :
    (t.renumber ρ).height = t.height := by
  induction t using induction_children with
  | step t ih =>
    cases t with
    | tuple ts =>
      have hparts : ∀ t ∈ ts, (t.renumber ρ).height = t.height := ih
      simp only [renumber_tuple, height, heightList_map hparts]
    | data h as =>
      have hparts : ∀ t ∈ as, (t.renumber ρ).height = t.height := ih
      simp only [renumber_data, height, heightList_map hparts]
    | func as r ps rs =>
      simp only [children, mem_append, mem_cons] at ih
      simp only [renumber_func, height, heightList_map fun t ht => ih t (.inl ht),
        ih r (.inr (.inl rfl))]
    | _ => rfl

def renumberPairs (ρ : Serial → Serial) (pairs : List (Ty × Ty)) : List (Ty × Ty) :=
  pairs.map (Prod.map (renumber ρ) (renumber ρ))

theorem parts_renumber (ρ : Serial ↪ Serial) (t u : Ty) :
    Ty.parts (t.renumber ρ) (u.renumber ρ) = (Ty.parts t u).map (renumberPairs ρ) := by
  cases t with
  | tuple ts =>
    cases u with
    | tuple us =>
      simp only [renumber_tuple, parts, length_map]
      split <;> simp [Except.map, renumberPairs, zip_map]
    | _ => simp [parts, Except.map]
  | data h as =>
    cases u with
    | data h' as' =>
      simp only [renumber_data, parts, length_map]
      split
      · rfl
      · split <;> simp [Except.map, renumberPairs, zip_map]
    | _ => simp [parts, Except.map]
  | func as r ps rs =>
    cases u with
    | func as' r' ps' rs' =>
      simp only [renumber_func, parts, length_map]
      split <;> simp [Except.map, renumberPairs, zip_map]
    | _ => simp [parts, Except.map]
  | tensor s d =>
    cases u with
    | tensor s' d' =>
      simp only [renumber_tensor, parts]
      split
      · rfl
      · split <;> rfl
    | _ => simp [parts, Except.map]
  | _ => simp [parts, Except.map]

/-! ## Texts -/

theorem idxOf_renumber (names : List Cell) (c : Cell) :
    (names.map (Cell.renumber ρ)).idxOf (c.renumber ρ) = names.idxOf c := by
  induction names with
  | nil => rfl
  | cons d names ih =>
    have hbeq : (d.renumber ρ == c.renumber ρ) = (d == c) := by
      rw [Bool.eq_iff_iff, beq_iff_eq, beq_iff_eq]
      exact (Cell.renumber_injective ρ).eq_iff
    rw [map_cons, idxOf_cons, idxOf_cons, hbeq, ih]

theorem textWith_renumber (names : List Cell) (t : Ty) :
    (t.renumber ρ).textWith (names.map (Cell.renumber ρ)) = t.textWith names := by
  induction t using induction_cells with
  | cell c => simp only [renumber_cell, textWith, cellText, idxOf_renumber]
  | node t ht ih =>
    rw [← textWith_mapChildren ht ih]
    -- What is left is that the parameters of a function type keep their names.
    cases t with
    | func as r ps rs =>
      have hps : (ps.map (TypeParam.renumber ρ)).map (fun p => p.name) = ps.map fun p => p.name :=
        map_map
      simp only [renumber_func, mapChildren, textWith, hps, isEmpty_map]
      rfl
    | cell c => cases ht
    | tuple | data => simp only [mapChildren, renumber_tuple, renumber_data]
    | tensor | param | handle => rfl

theorem text_renumber (t : Ty) : (t.renumber ρ).text = t.text := by
  rw [text, cells_renumber]
  exact textWith_renumber t.cells t

/-! ## The numbers in a type -/

def ownSerials : Ty → List Serial
  | .param p => [p.serial]
  | .cell c => [c.store]
  | .func _ _ ps _ => ps.map fun p => p.serial
  | _ => []

def serials (t : Ty) : List Serial := t.constituents.flatMap ownSerials

theorem mem_serials {n : Serial} :
    n ∈ t.serials ↔ n ∈ t.ownSerials ∨ ∃ u ∈ t.children, n ∈ u.serials := by
  simp only [serials, mem_flatMap, mem_constituents (t := t)]
  constructor
  · rintro ⟨u, rfl | ⟨c, hc, hu⟩, hn⟩
    · exact .inl hn
    · exact .inr ⟨c, hc, u, hu, hn⟩
  · rintro (hn | ⟨c, hc, u, hu, hn⟩)
    · exact ⟨t, .inl rfl, hn⟩
    · exact ⟨u, .inr ⟨c, hc, hu⟩, hn⟩

theorem renumber_eq_self (h : ∀ n ∈ t.serials, ρ n = n) : t.renumber ρ = t := by
  induction t using induction_children with
  | step t ih =>
    have hown : ∀ n ∈ t.ownSerials, ρ n = n := fun n hn => h n (mem_serials.2 (.inl hn))
    have hchild : ∀ u ∈ t.children, u.renumber ρ = u := fun u hu =>
      ih u hu fun n hn => h n (mem_serials.2 (.inr ⟨u, hu, hn⟩))
    have hlist {ts : List Ty} (hts : ∀ u ∈ ts, u ∈ t.children) : ts.map (renumber ρ) = ts := by
      rw [map_congr_left fun u hu => hchild u (hts u hu), map_id']
    cases t with
    | tensor s d => rfl
    | handle k => rfl
    | param p =>
      have hp : ρ p.serial = p.serial := hown _ (mem_singleton.2 rfl)
      rw [renumber_param, TypeParam.renumber, hp]
    | cell c =>
      have hc : ρ c.store = c.store := hown _ (mem_singleton.2 rfl)
      rw [renumber_cell, Cell.renumber, hc]
    | tuple ts =>
      rw [renumber_tuple]
      exact congrArg Ty.tuple (hlist fun u hu => hu)
    | data k as =>
      rw [renumber_data]
      exact congrArg (Ty.data k) (hlist fun u hu => hu)
    | func as r ps rs =>
      simp only [mem_children_func] at hchild hlist
      have hrel : ∀ rel ∈ rs, TypeRelation.renumber ρ rel = rel := by
        intro rel hrel
        rw [TypeRelation.renumber, hlist fun u hu => .inr (.inr ⟨rel, hrel, hu⟩)]
      have hps : ∀ p ∈ ps, TypeParam.renumber ρ p = p := by
        intro p hp
        rw [TypeParam.renumber, hown p.serial (mem_map_of_mem hp)]
      rw [renumber_func, hlist fun u hu => .inl hu, hchild r (.inr (.inl rfl)),
        map_congr_left hps, map_congr_left hrel, map_id', map_id']

end Ty

end TensorTyping
