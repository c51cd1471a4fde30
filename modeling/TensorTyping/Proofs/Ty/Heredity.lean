import Mathlib.Data.List.Nodup
import TensorTyping.Proofs.Ty.Children

/-!
# Conditions on every part of a type

Some conditions are about what stands at the top of a type and are asked of all its parts: that a
function type binds no parameters, or that sizes are known. What holds everywhere in a type holds
everywhere in its children, and replacing leaves keeps it if it holds of all that comes in.

A type is monomorphic when no function type in it binds parameters.
-/
namespace TensorTyping

open List

namespace Ty

variable {t u : Ty} {ts : List Ty}
variable {f : TypeParam → Ty} {g : Cell → Ty}

/-- A condition that holds of a type and of all its parts. -/
inductive Everywhere (q : Ty → Prop) : Ty → Prop
  | intro {t : Ty} : q t → (∀ u ∈ t.children, Everywhere q u) → Everywhere q t

@[simp]
def binders : Ty → List TypeParam
  | .func _ _ ps _ => ps
  | _ => []

/-- A condition on the top of a type, which leaves, scalars and function types without parameters
and relations satisfy, and function types with parameters do not. -/
structure Shallow (q : Ty → Prop) : Prop where
  scalar (dtype : String) : q (.scalar dtype)
  cell (c : Cell) : q (.cell c)
  param (p : TypeParam) : q (.param p)
  tuple (ts : List Ty) : q (.tuple ts)
  data (h : Handle) (as : List Ty) : q (.data h as)
  func (as : List Ty) (r : Ty) : q (.func as r [] [])
  binders {t : Ty} : q t → t.binders = []
  mapChildren_iff (h : Ty → Ty) (t : Ty) : q (t.mapChildren h) ↔ q t

/-- A condition on the top of a type that does not depend on what the children are. -/
def Steady (q : Ty → Prop) : Prop := ∀ (h : Ty → Ty) (t : Ty), q t → q (t.mapChildren h)

theorem Shallow.steady {q : Ty → Prop} (hq : Shallow q) : Steady q :=
  fun h t => (hq.mapChildren_iff h t).2

/-- Whether a type is a cell or a parameter, which replacement may turn into any type. -/
def isLeaf : Ty → Bool
  | .cell _ | .param _ => true
  | _ => false

theorem replace_of_not_leaf (f : TypeParam → Ty) (g : Cell → Ty) (ht : t.isLeaf = false) :
    t.replace f g = t.mapChildren (replace f g) := by
  cases t with
  | cell c => simp [isLeaf] at ht
  | param p => simp [isLeaf] at ht
  | _ => simp [replace, replaceList_eq_map, replaceRelations_eq_map, mapChildren]

theorem induction_leaves {P : Ty → Prop} (cell : ∀ c, P (.cell c)) (param : ∀ p, P (.param p))
    (node : ∀ t : Ty, t.isLeaf = false → (∀ u ∈ t.children, P u) → P t) (t : Ty) : P t := by
  induction t using induction_children with
  | step t ih =>
    cases t with
    | cell c => exact cell c
    | param p => exact param p
    | _ => exact node _ rfl ih

namespace Everywhere

variable {q : Ty → Prop} {t u : Ty}
variable {p : Ty → Prop}

theorem top (h : Everywhere q t) : q t := by
  cases h with
  | intro hq _ => exact hq

theorem child (h : Everywhere q t) (hu : u ∈ t.children) : Everywhere q u := by
  cases h with
  | intro _ hc => exact hc u hu

theorem cell_of_mem (h : Everywhere q t) {c : Cell} (hc : c ∈ t.cellOccurrences) : q (.cell c) := by
  induction h with
  | @intro t ht _ ih =>
    rcases mem_cellOccurrences.1 hc with rfl | ⟨u, hu, hc⟩
    · exact ht
    · exact ih u hu hc

/-- Another condition holds everywhere if it follows wherever the cells are those of the type. -/
theorem of_cells (h : Everywhere p t)
    (hq : ∀ u, p u → (∀ c, u = .cell c → c ∈ t.cellOccurrences) → q u) : Everywhere q t := by
  induction h with
  | @intro t ht _ ih =>
    refine .intro (hq t ht fun c hc => mem_cellOccurrences.2 (.inl hc)) fun u hu => ?_
    refine ih u hu fun v hv hcells => hq v hv fun c hc => ?_
    exact mem_cellOccurrences_of_child hu (hcells c hc)

theorem mapChildren (hq : Steady q) {h : Ty → Ty} (ht : q t)
    (hh : ∀ u ∈ t.children, Everywhere q (h u)) : Everywhere q (t.mapChildren h) := by
  refine .intro (hq h t ht) fun u hu => ?_
  rw [children_mapChildren] at hu
  obtain ⟨v, hv, rfl⟩ := mem_map.1 hu
  exact hh v hv

section

variable (hq : Shallow q)
variable {as : List Ty}

include hq

theorem scalar (dtype : String) : Everywhere q (.scalar dtype) :=
  .intro (hq.scalar dtype) fun _ hu => absurd hu not_mem_nil

theorem cell (c : Cell) : Everywhere q (.cell c) :=
  .intro (hq.cell c) fun _ hu => absurd hu not_mem_nil

theorem param (p : TypeParam) : Everywhere q (.param p) :=
  .intro (hq.param p) fun _ hu => absurd hu not_mem_nil

theorem tuple {ts : List Ty} (hts : ∀ t ∈ ts, Everywhere q t) : Everywhere q (.tuple ts) :=
  .intro (hq.tuple ts) hts

theorem data (h : Handle) (has : ∀ t ∈ as, Everywhere q t) : Everywhere q (.data h as) :=
  .intro (hq.data h as) has

theorem func {r : Ty} (has : ∀ t ∈ as, Everywhere q t) (hr : Everywhere q r) :
    Everywhere q (.func as r [] []) := by
  refine .intro (hq.func as r) fun u hu => ?_
  simp only [children, flatMap_nil, mem_append, mem_cons, not_mem_nil,
    or_false] at hu
  rcases hu with hu | rfl
  · exact has u hu
  · exact hr

theorem mapCells_iff {f : Cell → Ty} :
    Everywhere q (t.mapCells f) ↔
      Everywhere q t ∧ ∀ c ∈ t.cellOccurrences, Everywhere q (f c) := by
  induction t using induction_cells with
  | cell c => simp [cell hq c]
  | node t ht ih =>
    have hne : ∀ c, t ≠ .cell c := isCell_eq_false_iff.1 ht
    rw [mapCells_of_not_cell f ht]
    constructor
    · intro h
      have hu : ∀ u ∈ t.children, Everywhere q (u.mapCells f) := by
        intro u hu
        refine h.child ?_
        rw [children_mapChildren]
        exact mem_map_of_mem hu
      refine ⟨.intro ((hq.mapChildren_iff _ t).1 h.top) fun u hm => ((ih u hm).1 (hu u hm)).1, ?_⟩
      intro c hc
      obtain ⟨u, hm, hc⟩ := (mem_cellOccurrences.1 hc).resolve_left (hne c)
      exact ((ih u hm).1 (hu u hm)).2 c hc
    · rintro ⟨h, hf⟩
      refine mapChildren hq.steady h.top fun u hu => (ih u hu).2 ⟨h.child hu, fun c hc => ?_⟩
      exact hf c (mem_cellOccurrences_of_child hu hc)

theorem mapCells {f : Cell → Ty} (ht : Everywhere q t) (hf : ∀ c, Everywhere q (f c)) :
    Everywhere q (t.mapCells f) :=
  (mapCells_iff hq).2 ⟨ht, fun c _ => hf c⟩

omit hq in
theorem replace_of (hq : Steady q) (hp : ∀ u, u.isLeaf = false → p u → q u)
    (hf : ∀ x, p (.param x) → Everywhere q (f x))
    (hg : ∀ c ∈ t.cellOccurrences, p (.cell c) → Everywhere q (g c)) (ht : Everywhere p t) :
    Everywhere q (t.replace f g) := by
  induction t using induction_leaves with
  | cell c => exact hg c (by simp) ht.top
  | param x => exact hf x ht.top
  | node t hleaf ih =>
    rw [replace_of_not_leaf f g hleaf]
    refine mapChildren hq (hp t hleaf ht.top) fun u hu => ih u hu (fun c hc => ?_) (ht.child hu)
    exact hg c (mem_cellOccurrences_of_child hu hc)

theorem replace (ht : Everywhere q t) (hf : ∀ p, Everywhere q (f p))
    (hg : ∀ c, Everywhere q (g c)) : Everywhere q (t.replace f g) :=
  ht.replace_of hq.steady (fun _ _ => id) (fun p _ => hf p) fun c _ _ => hg c

end

end Everywhere

/-- What holds of every type but cells holds everywhere in a type without cells. -/
theorem everywhere_of_no_cells {q : Ty → Prop} (hq : ∀ t, t.isCell = false → q t)
    (ht : t.cellOccurrences = []) : Everywhere q t := by
  induction t using induction_children with
  | step t ih =>
    have hnone (c : Cell) : c ∉ t.cellOccurrences := by simp [ht]
    apply Everywhere.intro
    · apply hq
      rw [isCell_eq_false_iff]
      intro c heq
      exact hnone c (mem_cellOccurrences.2 (.inl heq))
    · intro u hu
      apply ih u hu
      rw [eq_nil_iff_forall_not_mem]
      exact fun c hc => hnone c (mem_cellOccurrences_of_child hu hc)

def bindsNone (t : Ty) : Prop := t.binders = []

def Mono (t : Ty) : Prop := Everywhere bindsNone t

theorem shallow_bindsNone : Shallow bindsNone where
  scalar _ := rfl
  cell _ := rfl
  param _ := rfl
  tuple _ := rfl
  data _ _ := rfl
  func _ _ := rfl
  binders := id
  mapChildren_iff h t := by cases t <;> rfl

theorem mapCells_closed (ht : t.cellOccurrences = []) (f : Cell → Ty) : t.mapCells f = t :=
  mapCells_eq_self fun _ hc => absurd (ht ▸ hc) not_mem_nil

theorem map_mapCells_closed (hts : ∀ t ∈ ts, t.cellOccurrences = []) (f : Cell → Ty) :
    ts.map (mapCells f) = ts := by
  have hid : ts.map (mapCells f) = ts.map id :=
    map_congr_left fun t ht => mapCells_closed (hts t ht) f
  rw [hid, map_id]

theorem replace_congr {f' : TypeParam → Ty} {g' : Cell → Ty} (hf : ∀ p, f p = f' p)
    (hg : ∀ c ∈ t.cellOccurrences, g c = g' c) : t.replace f g = t.replace f' g' := by
  induction t using induction_leaves with
  | cell c => exact hg c (by simp)
  | param p => exact hf p
  | node t hleaf ih =>
    rw [replace_of_not_leaf _ _ hleaf, replace_of_not_leaf _ _ hleaf]
    exact mapChildren_congr fun u hu =>
      ih u hu fun c hc => hg c (mem_cellOccurrences_of_child hu hc)

theorem replace_replace (f f' : TypeParam → Ty) (g g' : Cell → Ty) (t : Ty) :
    (t.replace f g).replace f' g' =
      t.replace (fun p => (f p).replace f' g') fun c => (g c).replace f' g' := by
  induction t using induction_leaves with
  | cell c => rfl
  | param p => rfl
  | node t hleaf ih =>
    have hleaf' : (t.mapChildren (replace f g)).isLeaf = false := by
      cases t <;> first | rfl | simp [isLeaf] at hleaf
    rw [replace_of_not_leaf _ _ hleaf, replace_of_not_leaf _ _ hleaf,
      replace_of_not_leaf _ _ hleaf', mapChildren_mapChildren]
    exact mapChildren_congr ih

theorem mapCells_replace (f : TypeParam → Ty) (g : Cell → Ty) (h : Cell → Ty) (t : Ty) :
    (t.replace f g).mapCells h =
      t.replace (fun p => (f p).mapCells h) fun c => (g c).mapCells h :=
  replace_replace f .param g h t

section

variable {p : TypeParam} {bound : List TypeParam} {t : Ty}

theorem paramOccurrencesList_eq_flatMap (bound : List TypeParam) (ts : List Ty) :
    paramOccurrencesList bound ts = ts.flatMap (paramOccurrences bound) := by
  induction ts with
  | nil => rfl
  | cons t ts ih => simp [paramOccurrencesList, ih]

theorem paramOccurrencesRelations_eq_flatMap (bound : List TypeParam) (rs : List TypeRelation) :
    paramOccurrencesRelations bound rs =
      (rs.flatMap fun r => r.args).flatMap (paramOccurrences bound) := by
  induction rs with
  | nil => rfl
  | cons r rs ih => simp [paramOccurrencesRelations, paramOccurrencesList_eq_flatMap, ih]

theorem paramOccurrences_eq_flatMap (bound : List TypeParam) (ht : ∀ p, t ≠ .param p) :
    t.paramOccurrences bound = t.children.flatMap (paramOccurrences (bound ++ t.binders)) := by
  cases t with
  | param p => exact absurd rfl (ht p)
  | func as r ps rs =>
    simp [paramOccurrences, paramOccurrencesList_eq_flatMap, paramOccurrencesRelations_eq_flatMap]
  | _ => simp [paramOccurrences, paramOccurrencesList_eq_flatMap]

/-- A parameter is free in a type that is the parameter, or in which it is free in a child and not
bound by the type. -/
theorem mem_paramOccurrences :
    p ∈ t.paramOccurrences bound ↔
      (t = .param p ∧ p ∉ bound) ∨
        ∃ u ∈ t.children, p ∈ u.paramOccurrences (bound ++ t.binders) := by
  by_cases ht : ∃ q, t = .param q
  · obtain ⟨q, rfl⟩ := ht
    simp only [paramOccurrences, children, Ty.param.injEq]
    split <;> simp_all <;> grind
  · rw [paramOccurrences_eq_flatMap bound fun q hq => ht ⟨q, hq⟩]
    simp [not_exists.1 ht]

theorem mem_paramOccurrences_iff :
    p ∈ t.paramOccurrences bound ↔ p ∈ t.paramOccurrences [] ∧ p ∉ bound := by
  induction t using induction_children generalizing bound with
  | step t ih =>
    rw [mem_paramOccurrences, mem_paramOccurrences, nil_append]
    constructor
    · rintro (⟨ht, hp⟩ | ⟨u, hu, hp⟩)
      · exact ⟨.inl ⟨ht, not_mem_nil⟩, hp⟩
      · obtain ⟨hp, hbound⟩ := (ih u hu).1 hp
        rw [mem_append, not_or] at hbound
        exact ⟨.inr ⟨u, hu, (ih u hu).2 ⟨hp, hbound.2⟩⟩, hbound.1⟩
    · rintro ⟨⟨ht, -⟩ | ⟨u, hu, hp⟩, hbound⟩
      · exact .inl ⟨ht, hbound⟩
      · obtain ⟨hp, hbinders⟩ := (ih u hu).1 hp
        refine .inr ⟨u, hu, (ih u hu).2 ⟨hp, ?_⟩⟩
        rw [mem_append, not_or]
        exact ⟨hbound, hbinders⟩

theorem mem_free :
    p ∈ t.paramOccurrences [] ↔
      t = .param p ∨ ∃ u ∈ t.children, p ∈ u.paramOccurrences [] ∧ p ∉ t.binders := by
  rw [mem_paramOccurrences, nil_append]
  exact or_congr (and_iff_left not_mem_nil)
    (exists_congr fun u => and_congr_right' mem_paramOccurrences_iff)

theorem mem_freeParamsOf {ts : List Ty} :
    p ∈ freeParamsOf ts ↔ ∃ t ∈ ts, p ∈ t.paramOccurrences [] := by
  simp [freeParamsOf, mem_firstAppearances, paramOccurrencesList_eq_flatMap]

theorem mem_freeParamsOf_singleton : p ∈ freeParamsOf [t] ↔ p ∈ t.paramOccurrences [] := by
  simp [mem_freeParamsOf]

end

end Ty

namespace Substitution

variable {ts : List Ty}
variable {ps : List TypeParam} {p : TypeParam} {t : Ty}

theorem onParam_eq (ps : List TypeParam) (ts : List Ty) (p : TypeParam) :
    (ofParams ps ts).onParam p =
      (ps.zip ts).foldl (fun t e => if p = e.1 then e.2 else t) (.param p) := by
  simp only [onParam, ofParams, foldl_map]

theorem onCell_ofParams (ps : List TypeParam) (ts : List Ty) (c : Cell) :
    (ofParams ps ts).onCell c = .cell c := by
  simp only [onCell, ofParams, foldl_map]
  generalize Ty.cell c = t
  induction ps.zip ts with
  | nil => rfl
  | cons e es ih => exact ih

theorem apply_ofParams_nil (ps : List TypeParam) (t : Ty) : (ofParams ps []).apply t = t := by
  have hempty : ofParams ps [] = ⟨[]⟩ := by simp [ofParams]
  rw [hempty]
  exact t.mapCells_id

/-- A parameter stands for one of the types given for it, or for itself if there is none. -/
theorem onParam_cases (ps : List TypeParam) (ts : List Ty) (p : TypeParam) :
    ((ofParams ps ts).onParam p = .param p ∧ ∀ t, (p, t) ∉ ps.zip ts) ∨
      (p, (ofParams ps ts).onParam p) ∈ ps.zip ts := by
  rw [onParam_eq]
  generalize Ty.param p = u, ps.zip ts = es
  induction es generalizing u with
  | nil => simp
  | cons e es ih =>
    rw [foldl_cons]
    rcases ih (if p = e.1 then e.2 else u) with ⟨h, hnone⟩ | h
    · rw [h]
      by_cases hp : p = e.1
      · simp [hp]
      · simp [hp, hnone, Prod.ext_iff]
    · exact .inr (.tail _ h)

theorem onParam_ofParams (ps : List TypeParam) (ts : List Ty) (p : TypeParam) :
    (ofParams ps ts).onParam p = .param p ∨ (ofParams ps ts).onParam p ∈ ts :=
  (onParam_cases ps ts p).imp And.left fun h => (of_mem_zip h).2

theorem onParam_of_not_mem (hp : p ∉ ps) : (ofParams ps ts).onParam p = .param p :=
  ((onParam_cases ps ts p).resolve_right fun h => hp (of_mem_zip h).1).1

theorem onParam_mem (hlen : ts.length = ps.length) (hp : p ∈ ps) :
    (ofParams ps ts).onParam p ∈ ts := by
  rw [← map_fst_zip (Nat.le_of_eq hlen.symm)] at hp
  obtain ⟨⟨_, t⟩, he, rfl⟩ := mem_map.1 hp
  exact (of_mem_zip ((onParam_cases ps ts _).resolve_left fun h => h.2 t he)).2

theorem map_onParam (hps : ps.Nodup) (hlen : ts.length = ps.length) :
    ps.map (ofParams ps ts).onParam = ts := by
  refine ext_getElem (by rw [length_map, hlen]) fun i hi hi' => ?_
  rw [length_map] at hi
  rw [getElem_map]
  have hmem : (ps[i], ts[i]) ∈ ps.zip ts := by
    rw [← getElem_zip]
    exact getElem_mem (by simp [hlen, hi])
  have hentry := (onParam_cases ps ts ps[i]).resolve_left fun h => h.2 _ hmem
  obtain ⟨j, hj, heq⟩ := getElem_of_mem hentry
  rw [getElem_zip, Prod.mk.injEq, List.Nodup.getElem_inj_iff hps] at heq
  obtain ⟨rfl, heq⟩ := heq
  exact heq.symm

theorem onParam_everywhere {q : Ty → Prop} (hq : Ty.Shallow q) (hts : ∀ t ∈ ts, Ty.Everywhere q t)
    (ps : List TypeParam) (p : TypeParam) : Ty.Everywhere q ((ofParams ps ts).onParam p) := by
  rcases onParam_ofParams ps ts p with h | h
  · rw [h]
    exact .param hq p
  · exact hts _ h

theorem apply_everywhere {q : Ty → Prop} (hq : Ty.Shallow q) (hts : ∀ t ∈ ts, Ty.Everywhere q t)
    (ht : Ty.Everywhere q t) : Ty.Everywhere q ((ofParams ps ts).apply t) := by
  refine ht.replace hq (onParam_everywhere hq hts ps) fun c => ?_
  rw [onCell_ofParams]
  exact .cell hq c

theorem mapCells_onParam (f : Cell → Ty) (ps : List TypeParam) (ts : List Ty) (p : TypeParam) :
    ((ofParams ps ts).onParam p).mapCells f =
      (ofParams ps (ts.map (Ty.mapCells f))).onParam p := by
  have hfold : ∀ (es : List (TypeParam × Ty)) (u : Ty),
      (es.foldl (fun t e => if p = e.1 then e.2 else t) u).mapCells f =
        es.foldl (fun t e => if p = e.1 then e.2.mapCells f else t) (u.mapCells f) := by
    intro es
    induction es with
    | nil => exact fun _ => rfl
    | cons e es ih =>
      intro u
      rw [foldl_cons, foldl_cons, ih]
      split <;> rfl
  rw [onParam_eq, onParam_eq, zip_map_right, foldl_map, hfold]
  rfl

theorem mapCells_apply (f : Cell → Ty) (ps : List TypeParam) (ts : List Ty)
    (ht : t.cellOccurrences = []) :
    ((ofParams ps ts).apply t).mapCells f = (ofParams ps (ts.map (Ty.mapCells f))).apply t := by
  rw [apply, apply, Ty.mapCells_replace]
  exact Ty.replace_congr (mapCells_onParam f ps ts) fun c hc => absurd (ht ▸ hc) not_mem_nil

end Substitution

end TensorTyping
