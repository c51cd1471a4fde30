import TensorTyping.Ty.Occurrence
import TensorTyping.Ty.Substitution

/-!
# Types as trees

A type other than a leaf is built from its children: the fields of a tuple, the arguments and the
result of a function type together with the slots of its relations, the arguments of a data type.
Replacing cells works child by child, so its laws are proved once for all forms of type, by
induction over children. The laws say that replacement depends only on the cells that occur, that
two replacements one after the other are one, and which cells occur in the result.
-/
namespace TensorTyping

open List

namespace Ty

variable {t : Ty} {c : Cell}

/-- The immediate parts of a type, the slots of relations included. -/
@[simp]
def children : Ty → List Ty
  | .tuple ts => ts
  | .func as r _ rs => as ++ r :: rs.flatMap fun rel => rel.args
  | .data _ as => as
  | .tensor .. | .param _ | .cell _ | .handle _ => []

def mapChildren (h : Ty → Ty) : Ty → Ty
  | .tuple ts => .tuple (ts.map h)
  | .func as r ps rs =>
    .func (as.map h) (h r) ps (rs.map fun rel => { rel with args := rel.args.map h })
  | .data hd as => .data hd (as.map h)
  | t => t

@[simp]
def isCell : Ty → Bool
  | .cell _ => true
  | _ => false

theorem mem_children_func {as : List Ty} {r u : Ty} {ps : List TypeParam} {rs : List TypeRelation} :
    u ∈ (func as r ps rs).children ↔ u ∈ as ∨ u = r ∨ ∃ rel ∈ rs, u ∈ rel.args := by
  simp

theorem induction_children {P : Ty → Prop} (step : ∀ t : Ty, (∀ u ∈ t.children, P u) → P t)
    (t : Ty) : P t := by
  refine @Ty.rec P (fun ts => ∀ t ∈ ts, P t) (fun rs => ∀ r ∈ rs, ∀ t ∈ r.args, P t)
    (fun r => ∀ t ∈ r.args, P t) ?_ ?_ ?_ ?_ ?_ ?_ ?_ ?_ ?_ ?_ ?_ ?_ t
  · intro s d
    exact step _ (by simp)
  · intro ts ih
    exact step _ ih
  · intro as r ps rs has hr hrs
    refine step _ fun u hu => ?_
    simp only [mem_children_func] at hu
    rcases hu with hu | rfl | ⟨rel, hrel, hu⟩
    · exact has u hu
    · exact hr
    · exact hrs rel hrel u hu
  · exact fun p => step _ (by simp)
  · exact fun c => step _ (by simp)
  · exact fun h => step _ (by simp)
  · intro h as ih
    exact step _ ih
  · exact forall_mem_nil _
  · intro t ts ht hts u hu
    rcases mem_cons.1 hu with rfl | hu
    · exact ht
    · exact hts u hu
  · exact forall_mem_nil _
  · intro r rs hr hrs r' hr'
    rcases mem_cons.1 hr' with rfl | hr'
    · exact hr
    · exact hrs r' hr'
  · exact fun _ _ _ _ h => h

theorem mapChildren_congr {h k : Ty → Ty} (hk : ∀ u ∈ t.children, h u = k u) :
    t.mapChildren h = t.mapChildren k := by
  cases t with
  | tuple ts => simpa [mapChildren] using hk
  | func as r ps rs =>
    simp only [mem_children_func] at hk
    have has : as.map h = as.map k := map_congr_left fun u hu => hk u (.inl hu)
    have hr : h r = k r := hk r (.inr (.inl rfl))
    have hrs : (rs.map fun rel => { rel with args := rel.args.map h }) =
        rs.map fun rel => { rel with args := rel.args.map k } := by
      refine map_congr_left fun rel hrel => ?_
      have : rel.args.map h = rel.args.map k :=
        map_congr_left fun u hu => hk u (.inr (.inr ⟨rel, hrel, hu⟩))
      rw [this]
    simp only [mapChildren, has, hr, hrs]
  | data hd as => simpa [mapChildren] using hk
  | tensor | param | cell | handle => rfl

theorem mapChildren_mapChildren (h k : Ty → Ty) (t : Ty) :
    (t.mapChildren h).mapChildren k = t.mapChildren fun u => k (h u) := by
  cases t <;> simp [mapChildren, Function.comp_def]

theorem mapChildren_self (t : Ty) : t.mapChildren (fun u => u) = t := by
  cases t <;> simp [mapChildren]

theorem children_mapChildren (h : Ty → Ty) (t : Ty) :
    (t.mapChildren h).children = t.children.map h := by
  cases t <;> simp [mapChildren, map_flatMap, flatMap_map]

theorem isCell_mapChildren (h : Ty → Ty) (t : Ty) : (t.mapChildren h).isCell = t.isCell := by
  cases t <;> rfl

theorem isCell_iff : t.isCell = true ↔ ∃ c, t = .cell c := by
  cases t <;> simp

theorem isCell_eq_false_iff : t.isCell = false ↔ ∀ c, t ≠ .cell c := by
  cases t <;> simp

theorem induction_cells {P : Ty → Prop} (cell : ∀ c, P (.cell c))
    (node : ∀ t : Ty, t.isCell = false → (∀ u ∈ t.children, P u) → P t) (t : Ty) : P t := by
  induction t using induction_children with
  | step t ih =>
    cases t with
    | cell c => exact cell c
    | _ => exact node _ rfl ih

theorem replaceRelations_eq_map (f : TypeParam → Ty) (g : Cell → Ty) (rs : List TypeRelation) :
    replaceRelations f g rs = rs.map fun r => { r with args := r.args.map (replace f g) } := by
  induction rs with
  | nil => rfl
  | cons r rs ih => simp [replaceRelations, replaceList_eq_map, ih]

section

variable (f : Cell → Ty)

@[simp] theorem mapCells_cell (c : Cell) : (Ty.cell c).mapCells f = f c := rfl

theorem mapCells_of_not_cell (ht : t.isCell = false) :
    t.mapCells f = t.mapChildren (mapCells f) := by
  cases t with
  | cell c => simp at ht
  | _ => simp [mapCells, replace, replaceList_eq_map, replaceRelations_eq_map, mapChildren]

@[simp] theorem mapCells_tensor (s : Shape) (d : String) :
    (Ty.tensor s d).mapCells f = .tensor s d := rfl

@[simp] theorem mapCells_param (p : TypeParam) : (Ty.param p).mapCells f = .param p := rfl

@[simp] theorem mapCells_handle (h : Handle) : (Ty.handle h).mapCells f = .handle h := rfl

@[simp] theorem mapCells_tuple (ts : List Ty) :
    (Ty.tuple ts).mapCells f = .tuple (ts.map (mapCells f)) :=
  mapCells_of_not_cell f rfl

@[simp] theorem mapCells_data (h : Handle) (as : List Ty) :
    (Ty.data h as).mapCells f = .data h (as.map (mapCells f)) :=
  mapCells_of_not_cell f rfl

@[simp] theorem mapCells_func (as : List Ty) (r : Ty) (ps : List TypeParam)
    (rs : List TypeRelation) :
    (Ty.func as r ps rs).mapCells f = .func (as.map (mapCells f)) (r.mapCells f) ps
      (rs.map fun rel => { rel with args := rel.args.map (mapCells f) }) :=
  mapCells_of_not_cell f rfl

end

theorem cellOccurrencesList_eq_flatMap (ts : List Ty) :
    cellOccurrencesList ts = ts.flatMap cellOccurrences := by
  induction ts with
  | nil => rfl
  | cons t ts ih => simp [cellOccurrencesList, ih]

theorem cellOccurrencesRelations_eq_flatMap (rs : List TypeRelation) :
    cellOccurrencesRelations rs = (rs.flatMap fun r => r.args).flatMap cellOccurrences := by
  induction rs with
  | nil => rfl
  | cons r rs ih =>
    simp [cellOccurrencesRelations, cellOccurrencesList_eq_flatMap, ih]

theorem cellOccurrences_eq_flatMap (ht : t.isCell = false) :
    t.cellOccurrences = t.children.flatMap cellOccurrences := by
  cases t with
  | cell c => cases ht
  | func as r ps rs =>
    simp [cellOccurrences, cellOccurrencesList_eq_flatMap, cellOccurrencesRelations_eq_flatMap]
  | _ => simp [cellOccurrences, cellOccurrencesList_eq_flatMap]

theorem mem_cellOccurrences :
    c ∈ t.cellOccurrences ↔ t = .cell c ∨ ∃ u ∈ t.children, c ∈ u.cellOccurrences := by
  cases ht : t.isCell with
  | true =>
    obtain ⟨d, rfl⟩ := isCell_iff.1 ht
    simp [cellOccurrences, eq_comm]
  | false => simp [cellOccurrences_eq_flatMap ht, isCell_eq_false_iff.1 ht]

@[simp] theorem cellOccurrences_cell (c : Cell) : (Ty.cell c).cellOccurrences = [c] := rfl

theorem mem_cellOccurrences_of_child {u : Ty} (hu : u ∈ t.children) (hc : c ∈ u.cellOccurrences) :
    c ∈ t.cellOccurrences :=
  mem_cellOccurrences.2 (.inr ⟨u, hu, hc⟩)

theorem cellOccurrences_eq_nil_iff :
    t.cellOccurrences = [] ↔ t.isCell = false ∧ ∀ u ∈ t.children, u.cellOccurrences = [] := by
  constructor
  · intro h
    refine ⟨isCell_eq_false_iff.2 fun c hc => by simp [hc] at h, fun u hu => ?_⟩
    refine eq_nil_iff_forall_not_mem.2 fun c hc => ?_
    exact not_mem_nil (h ▸ mem_cellOccurrences_of_child hu hc)
  · rintro ⟨hcell, hchildren⟩
    refine eq_nil_iff_forall_not_mem.2 fun c hc => ?_
    rcases mem_cellOccurrences.1 hc with rfl | ⟨u, hu, hcu⟩
    · cases hcell
    · exact not_mem_nil (hchildren u hu ▸ hcu)

theorem mem_cellsOf {ts : List Ty} : c ∈ cellsOf ts ↔ ∃ t ∈ ts, c ∈ t.cellOccurrences := by
  simp [cellsOf, mem_firstAppearances, cellOccurrencesList_eq_flatMap]

theorem mem_cells : c ∈ t.cells ↔ c ∈ t.cellOccurrences := by
  simp [cells, mem_cellsOf]

theorem mapCells_congr {f g : Cell → Ty} (h : ∀ c ∈ t.cellOccurrences, f c = g c) :
    t.mapCells f = t.mapCells g := by
  induction t using induction_cells with
  | cell c => exact h c (by simp)
  | node t ht ih =>
    rw [mapCells_of_not_cell f ht, mapCells_of_not_cell g ht]
    exact mapChildren_congr fun u hu => ih u hu fun c hc => h c (mem_cellOccurrences_of_child hu hc)

theorem mapCells_mapCells (f g : Cell → Ty) (t : Ty) :
    (t.mapCells f).mapCells g = t.mapCells fun c => (f c).mapCells g := by
  induction t using induction_cells with
  | cell c => rfl
  | node t ht ih =>
    rw [mapCells_of_not_cell f ht, mapCells_of_not_cell _ ht,
      mapCells_of_not_cell g (by rw [isCell_mapChildren, ht]), mapChildren_mapChildren]
    exact mapChildren_congr ih

theorem mapCells_id (t : Ty) : t.mapCells .cell = t := by
  induction t using induction_cells with
  | cell c => rfl
  | node t ht ih =>
    rw [mapCells_of_not_cell _ ht]
    exact (mapChildren_congr ih).trans t.mapChildren_self

theorem mapCells_eq_self {f : Cell → Ty} (h : ∀ c ∈ t.cellOccurrences, f c = .cell c) :
    t.mapCells f = t :=
  (mapCells_congr h).trans t.mapCells_id

theorem mem_cellOccurrences_mapCells {f : Cell → Ty} {d : Cell} :
    d ∈ (t.mapCells f).cellOccurrences ↔ ∃ c ∈ t.cellOccurrences, d ∈ (f c).cellOccurrences := by
  induction t using induction_cells with
  | cell c => simp
  | node t ht ih =>
    have hne : ∀ c, t ≠ .cell c := isCell_eq_false_iff.1 ht
    have hne' : ∀ c, t.mapChildren (mapCells f) ≠ .cell c :=
      isCell_eq_false_iff.1 (by rw [isCell_mapChildren, ht])
    rw [mapCells_of_not_cell f ht, mem_cellOccurrences, children_mapChildren]
    simp only [hne', false_or, mem_map]
    constructor
    · rintro ⟨_, ⟨u, hu, rfl⟩, hd⟩
      obtain ⟨c, hc, hd⟩ := (ih u hu).1 hd
      exact ⟨c, mem_cellOccurrences_of_child hu hc, hd⟩
    · rintro ⟨c, hc, hd⟩
      obtain ⟨u, hu, hc⟩ := (mem_cellOccurrences.1 hc).resolve_left (hne c)
      exact ⟨_, ⟨u, hu, rfl⟩, (ih u hu).2 ⟨c, hc, hd⟩⟩

end Ty

end TensorTyping
