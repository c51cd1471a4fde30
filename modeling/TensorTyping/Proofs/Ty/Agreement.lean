import Mathlib.Data.List.Forall2
import TensorTyping.Proofs.Ty.Heredity
import TensorTyping.Ty.Equality

/-!
# Agreement of types

Unification does not make two types equal. A named size agrees with every other, and the parameters
and relations of function types are left alone. What it does establish is agreement: the same
structure, the same leaves with identity, and tensors whose sizes agree pairwise. Agreement holds
of every type with itself and is kept when leaves are replaced, but it is not transitive.

Between plain types, which have neither named sizes nor function types with parameters or
relations, agreement is equality. Between monomorphic types it leaves out nothing but the relations
of function types.
-/
namespace TensorTyping

open List

theorem forall₂_imp_of_mem {α β : Type} {R S : α → β → Prop} {as : List α} {bs : List β}
    (h : List.Forall₂ R as bs) (hRS : ∀ a ∈ as, ∀ b ∈ bs, R a b → S a b) :
    List.Forall₂ S as bs := by
  rw [forall₂_iff_zip] at h ⊢
  refine ⟨h.1, fun hab => ?_⟩
  exact hRS _ (of_mem_zip hab).1 _ (of_mem_zip hab).2 (h.2 hab)

theorem eq_of_forall₂ {α : Type} {as bs : List α} (h : List.Forall₂ (· = ·) as bs) : as = bs := by
  rwa [forall₂_eq_eq_eq] at h

def Dim.isKnown : Dim → Bool
  | .known _ => true
  | .named _ => false

theorem Shape.eq_of_agree {s t : Shape} (hs : s.all Dim.isKnown = true)
    (ht : t.all Dim.isKnown = true) (h : s.agree t = true) : s = t := by
  induction s generalizing t with
  | nil => cases t <;> simp_all [Shape.agree]
  | cons d s ih =>
    cases t with
    | nil => simp [Shape.agree] at h
    | cons e t =>
      simp only [Shape.agree, all_cons, Bool.and_eq_true] at h hs ht
      have hd : d = e := by
        cases d <;> cases e <;> simp_all [Dim.agree, Dim.isKnown]
      rw [hd, ih hs.2 ht.2 h.2]

namespace Ty

variable {ts us : List Ty} {t u : Ty}

/-- Two types are built in the same way, up to sizes that agree and up to the parameters and
relations of function types, and their parts are related pairwise. -/
@[mk_iff]
inductive Parallel (R : Ty → Ty → Prop) : Ty → Ty → Prop
  | tensor {s s' : Shape} (d : String) : s.agree s' = true → Parallel R (.tensor s d) (.tensor s' d)
  | tuple {ts us : List Ty} : List.Forall₂ R ts us → Parallel R (.tuple ts) (.tuple us)
  | func {as bs : List Ty} {r q : Ty} (ps ps' : List TypeParam) (rs rs' : List TypeRelation) :
    List.Forall₂ R as bs → R r q → Parallel R (.func as r ps rs) (.func bs q ps' rs')
  | param (p : TypeParam) : Parallel R (.param p) (.param p)
  | cell (c : Cell) : Parallel R (.cell c) (.cell c)
  | handle (h : Handle) : Parallel R (.handle h) (.handle h)
  | data (h : Handle) {as bs : List Ty} :
    List.Forall₂ R as bs → Parallel R (.data h as) (.data h bs)

namespace Parallel

variable {R S : Ty → Ty → Prop}

theorem imp (h : Parallel R t u)
    (hRS : ∀ v ∈ t.children, ∀ w ∈ u.children, R v w → S v w) : Parallel S t u := by
  cases h with
  | tensor d hs => exact .tensor d hs
  | tuple hts => exact .tuple (forall₂_imp_of_mem hts hRS)
  | func ps ps' rs rs' has hr =>
    refine .func ps ps' rs rs' (forall₂_imp_of_mem has fun v hv w hw => ?_) ?_
    · exact hRS v (by simp [hv]) w (by simp [hw])
    · exact hRS _ (by simp) _ (by simp) hr
  | param p => exact .param p
  | cell c => exact .cell c
  | handle h => exact .handle h
  | data h has => exact .data h (forall₂_imp_of_mem has hRS)

protected theorem refl (h : ∀ v ∈ t.children, R v v) : Parallel R t t := by
  cases t with
  | tensor s d => exact .tensor d s.agree_self
  | tuple ts => exact .tuple (forall₂_same.2 h)
  | func as r ps rs =>
    exact .func ps ps rs rs (forall₂_same.2 fun v hv => h v (by simp [hv])) (h r (by simp))
  | param p => exact .param p
  | cell c => exact .cell c
  | handle k => exact .handle k
  | data k as => exact .data k (forall₂_same.2 h)

protected theorem symm (h : Parallel R t u) : Parallel (fun v w => R w v) u t := by
  cases h with
  | @tensor s s' d hs => exact .tensor d (Shape.agree_comm s s' ▸ hs)
  | tuple hts => exact .tuple hts.flip
  | func ps ps' rs rs' has hr => exact .func ps' ps rs' rs has.flip hr
  | param p => exact .param p
  | cell c => exact .cell c
  | handle h => exact .handle h
  | data h has => exact .data h has.flip

theorem mapChildren_left {f : Ty → Ty} :
    Parallel R (t.mapChildren f) u ↔ Parallel (fun v w => R (f v) w) t u := by
  cases t <;> simp [mapChildren, parallel_iff]

theorem mapChildren_right {f : Ty → Ty} :
    Parallel R t (u.mapChildren f) ↔ Parallel (fun v w => R v (f w)) t u := by
  cases u <;> simp [mapChildren, parallel_iff]

theorem isCell_eq (h : Parallel R t u) : t.isCell = u.isCell := by
  cases h <;> rfl

theorem mapCells_iff {f : Cell → Ty} (ht : t.isCell = false) (hu : u.isCell = false) :
    Parallel R (t.mapCells f) (u.mapCells f) ↔
      Parallel (fun v w => R (v.mapCells f) (w.mapCells f)) t u := by
  rw [mapCells_of_not_cell f ht, mapCells_of_not_cell f hu, mapChildren_left, mapChildren_right]

end Parallel

mutual
/-- Whether two types have the same structure, up to sizes that agree and up to the parameters and
relations of function types. -/
def agree : Ty → Ty → Bool
  | .tensor s d, .tensor s' d' => d == d' && s.agree s'
  | .tuple ts, .tuple ts' => agreeList ts ts'
  | .func as r _ _, .func as' r' _ _ => agreeList as as' && r.agree r'
  | .param p, .param p' => p == p'
  | .cell c, .cell c' => c == c'
  | .handle h, .handle h' => h == h'
  | .data h as, .data h' as' => h == h' && agreeList as as'
  | _, _ => false
def agreeList : List Ty → List Ty → Bool
  | [], [] => true
  | t :: ts, u :: us => t.agree u && agreeList ts us
  | _, _ => false
end

theorem agreeList_iff :
    agreeList ts us = true ↔ List.Forall₂ (fun t u => t.agree u = true) ts us := by
  induction ts generalizing us with
  | nil => cases us <;> simp [agreeList]
  | cons t ts ih => cases us <;> simp [agreeList, ih]

theorem agree_iff : t.agree u = true ↔ Parallel (fun v w => v.agree w = true) t u := by
  constructor
  · intro h
    unfold agree at h
    split at h <;> simp_all [parallel_iff, agreeList_iff]
  · intro h
    cases h <;> simp_all [agree, agreeList_iff]

@[simp] theorem agree_self (t : Ty) : t.agree t = true := by
  induction t using induction_children with
  | step t ih => exact agree_iff.2 (.refl ih)

theorem agree_symm (h : t.agree u = true) : u.agree t = true := by
  induction t using induction_children generalizing u with
  | step t ih => exact agree_iff.2 ((agree_iff.1 h).symm.imp fun v _ w hw => ih w hw)

theorem agree_comm (t u : Ty) : t.agree u = u.agree t :=
  Bool.eq_iff_iff.2 ⟨agree_symm, agree_symm⟩

theorem agree_replace (f : TypeParam → Ty) (g : Cell → Ty) (h : t.agree u = true) :
    (t.replace f g).agree (u.replace f g) = true := by
  have hp := agree_iff.1 h
  induction t using induction_leaves generalizing u with
  | cell | param =>
    cases hp
    exact agree_self _
  | node t ht ih =>
    have hu : u.isLeaf = false := by cases hp <;> first | rfl | cases ht
    rw [replace_of_not_leaf f g ht, replace_of_not_leaf f g hu, agree_iff,
      Parallel.mapChildren_left, Parallel.mapChildren_right]
    exact hp.imp fun v hv w _ hvw => ih v hv hvw (agree_iff.1 hvw)

theorem agree_mapCells (f : Cell → Ty) (h : t.agree u = true) :
    (t.mapCells f).agree (u.mapCells f) = true :=
  agree_replace .param f h

theorem sameList_iff : sameList ts us = true ↔ List.Forall₂ (fun t u => t.same u = true) ts us := by
  induction ts generalizing us with
  | nil => cases us <;> simp [sameList]
  | cons t ts ih => cases us <;> simp [sameList, ih]

theorem parallel_of_same (h : t.same u = true) : Parallel (fun v w => v.same w = true) t u := by
  unfold same at h
  split at h <;> simp_all [parallel_iff, sameList_iff]

theorem agree_of_same (h : t.same u = true) : t.agree u = true := by
  induction t using induction_children generalizing u with
  | step t ih => exact agree_iff.2 ((parallel_of_same h).imp fun v hv w _ => ih v hv)

mutual
/-- Whether a type has neither named sizes nor function types with parameters or relations. -/
def plain : Ty → Bool
  | .tensor s _ => s.all Dim.isKnown
  | .tuple ts => plainList ts
  | .func as r ps rs => ps.isEmpty && rs.isEmpty && plainList as && r.plain
  | .data _ as => plainList as
  | .param _ | .cell _ | .handle _ => true
def plainList : List Ty → Bool
  | [] => true
  | t :: ts => t.plain && plainList ts
end

theorem plainList_iff : plainList ts = true ↔ ∀ t ∈ ts, t.plain = true := by
  induction ts with
  | nil => simp [plainList]
  | cons t ts ih => simp [plainList, ih]

def isPlain : Ty → Prop
  | .tensor s _ => s.all Dim.isKnown = true
  | .func _ _ ps rs => ps = [] ∧ rs = []
  | _ => True

theorem shallow_isPlain : Shallow isPlain where
  scalar _ := rfl
  cell _ := trivial
  param _ := trivial
  tuple _ := trivial
  data _ _ := trivial
  func _ _ := ⟨rfl, rfl⟩
  binders {t} h := by
    cases t with
    | func as r ps rs => exact h.1
    | _ => rfl
  mapChildren_iff h t := by cases t <;> simp [mapChildren, isPlain]

theorem plain_iff : t.plain = true ↔ t.isPlain ∧ ∀ u ∈ t.children, u.plain = true := by
  cases t with
  | func as r ps rs =>
    simp only [plain, isPlain, Bool.and_eq_true, List.isEmpty_iff, plainList_iff, and_assoc]
    refine and_congr_right fun _ => and_congr_right fun hrs => ?_
    simp [hrs, or_imp, forall_and]
  | _ => simp [plain, isPlain, plainList_iff]

theorem plain_iff_everywhere : t.plain = true ↔ Everywhere isPlain t := by
  induction t using induction_children with
  | step t ih =>
    rw [plain_iff]
    exact ⟨fun h => .intro h.1 fun u hu => (ih u hu).1 (h.2 u hu),
      fun h => ⟨h.top, fun u hu => (ih u hu).2 (h.child hu)⟩⟩

theorem plain_mapCells {f : Cell → Ty} :
    (t.mapCells f).plain = true ↔
      t.plain = true ∧ ∀ c ∈ t.cellOccurrences, (f c).plain = true := by
  simp only [plain_iff_everywhere]
  exact Everywhere.mapCells_iff shallow_isPlain

theorem eq_of_agree (ht : t.plain = true) (hu : u.plain = true) (h : t.agree u = true) : t = u := by
  induction t using induction_children generalizing u with
  | step t ih =>
    rw [plain_iff] at ht hu
    have hparts : Parallel (· = ·) t u :=
      (agree_iff.1 h).imp fun v hv w hw => ih v hv (ht.2 v hv) (hu.2 w hw)
    cases hparts with
    | tensor d hs => rw [Shape.eq_of_agree ht.1 hu.1 hs]
    | func ps ps' rs rs' has hr =>
      obtain ⟨rfl, rfl⟩ := ht.1
      obtain ⟨rfl, rfl⟩ := hu.1
      rw [eq_of_forall₂ has, hr]
    | tuple hts => rw [eq_of_forall₂ hts]
    | data k has => rw [eq_of_forall₂ has]
    | param | cell | handle => rfl

mutual
/-- Whether two types have the same structure, up to sizes that agree and up to the relations of
function types. -/
def alike : Ty → Ty → Bool
  | .tensor s d, .tensor s' d' => d == d' && s.agree s'
  | .tuple ts, .tuple ts' => alikeList ts ts'
  | .func as r ps _, .func as' r' ps' _ => alikeList as as' && r.alike r' && ps == ps'
  | .param p, .param p' => p == p'
  | .cell c, .cell c' => c == c'
  | .handle h, .handle h' => h == h'
  | .data h as, .data h' as' => h == h' && alikeList as as'
  | _, _ => false
def alikeList : List Ty → List Ty → Bool
  | [], [] => true
  | t :: ts, u :: us => t.alike u && alikeList ts us
  | _, _ => false
end

theorem alikeList_iff :
    alikeList ts us = true ↔ List.Forall₂ (fun t u => t.alike u = true) ts us := by
  induction ts generalizing us with
  | nil => cases us <;> simp [alikeList]
  | cons t ts ih => cases us <;> simp [alikeList, ih]

theorem alike_iff :
    t.alike u = true ↔ Parallel (fun v w => v.alike w = true) t u ∧ t.binders = u.binders := by
  constructor
  · intro h
    unfold alike at h
    split at h <;> simp_all [parallel_iff, alikeList_iff]
  · rintro ⟨h, hbinders⟩
    cases h <;> simp_all [alike, alikeList_iff]

/-- Monomorphic types that agree differ in sizes and relations only. -/
theorem alike_of_agree (ht : t.Mono) (hu : u.Mono) (h : t.agree u = true) : t.alike u = true := by
  induction t using induction_children generalizing u with
  | step t ih =>
    refine alike_iff.2 ⟨(agree_iff.1 h).imp fun v hv w hw => ?_, ht.top.trans hu.top.symm⟩
    exact ih v hv (ht.child hv) (hu.child hw)

theorem alike_self (t : Ty) : t.alike t = true := by
  induction t using induction_children with
  | step t ih => exact alike_iff.2 ⟨.refl ih, rfl⟩

mutual
/-- Whether a type has no cells and no function types with parameters or relations, as types that
are written in a program do. -/
def simple : Ty → Bool
  | .tensor .. | .param _ | .handle _ => true
  | .cell _ => false
  | .tuple ts => simpleList ts
  | .func as r ps rs => ps.isEmpty && rs.isEmpty && simpleList as && r.simple
  | .data _ as => simpleList as
def simpleList : List Ty → Bool
  | [] => true
  | t :: ts => t.simple && simpleList ts
end

theorem simpleList_iff : simpleList ts = true ↔ ∀ t ∈ ts, t.simple = true := by
  induction ts with
  | nil => simp [simpleList]
  | cons t ts ih => simp [simpleList, ih]

def isSimple : Ty → Prop
  | .cell _ => False
  | .func _ _ ps rs => ps = [] ∧ rs = []
  | _ => True

theorem simple_iff : t.simple = true ↔ t.isSimple ∧ ∀ u ∈ t.children, u.simple = true := by
  cases t with
  | func as r ps rs =>
    simp only [simple, isSimple, Bool.and_eq_true, List.isEmpty_iff, simpleList_iff, and_assoc]
    refine and_congr_right fun _ => and_congr_right fun hrs => ?_
    simp [hrs, or_imp, forall_and]
  | _ => simp [simple, isSimple, simpleList_iff]

theorem mono_of_simple (ht : t.simple = true) : t.Mono := by
  induction t using induction_children with
  | step t ih =>
    rw [simple_iff] at ht
    refine .intro ?_ fun u hu => ih u hu (ht.2 u hu)
    cases t with
    | func as r ps rs => exact ht.1.1
    | _ => rfl

theorem cellOccurrences_of_simple (ht : t.simple = true) : t.cellOccurrences = [] := by
  induction t using induction_children with
  | step t ih =>
    rw [simple_iff] at ht
    refine cellOccurrences_eq_nil_iff.2 ⟨?_, fun u hu => ih u hu (ht.2 u hu)⟩
    cases t with
    | cell c => exact ht.1.elim
    | _ => rfl

/-- Without relations, equality of types is equality. -/
theorem eq_of_same (ht : t.simple = true) (h : t.same u = true) : t = u := by
  induction t using induction_children generalizing u with
  | step t ih =>
    rw [simple_iff] at ht
    have hparts : Parallel (· = ·) t u :=
      (parallel_of_same h).imp fun v hv w hw => ih v hv (ht.2 v hv)
    cases hparts with
    | func ps ps' rs rs' has hr =>
      obtain ⟨rfl, rfl⟩ := ht.1
      obtain rfl : rs' = [] := by cases rs' <;> simp_all [same, sameRelations]
      simp_all [same, eq_of_forall₂ has]
    | tensor d hs => simp_all [same]
    | tuple hts => rw [eq_of_forall₂ hts]
    | data k has => rw [eq_of_forall₂ has]
    | param | cell | handle => rfl

end Ty

end TensorTyping
