import Mathlib.Data.List.Forall2
import TensorTyping.Proofs.Ty.Children
import TensorTyping.Relation.Registry

/-!
# Rules under refinement

Once a rule has decided, it stays with its decision when more is known of its slots. A conclusion is
kept: putting types in for cells in the slots puts the same types in for cells in the conclusion. A
refusal is kept as well, though the evidence of its report may differ. Only a rule that could not
tell yet may come to anything. The reason is that a rule looks only at the tensor types in its
slots, which hold no cells, and at fields of tuples, which a conclusion passes on as they are.
-/
namespace TensorTyping

variable {name : String} {entry : RelationEntry}

/-- Whether two faults are issues of one kind, or else the same fault. -/
def Fault.SameClass : Fault → Fault → Prop
  | .issue i, .issue j => i.kind = j.kind
  | f, g => f = g

theorem Fault.SameClass.refl (f : Fault) : f.SameClass f := by
  cases f <;> rfl

namespace Rule

variable {α β γ δ : Type} {f : Cell → Ty} {types : List Ty} {attrs : Attrs}
variable {rule : Rule} {t : Ty}

/-- The outcome `y` is one that `x` may lead to when more is known: a result goes on to one that
is related to it, a refusal to a refusal, and a fault to a fault of its class. -/
def Follows (r : α → β → Prop) (x : Except Halt α) (y : Except Halt β) : Prop :=
  match x with
  | .ok a => ∃ b, y = .ok b ∧ r a b
  | .error .undecided => True
  | .error .fails => y = .error .fails
  | .error (.fault f) => ∃ g, y = .error (.fault g) ∧ f.SameClass g

namespace Follows

variable {r : α → β → Prop} {q : γ → δ → Prop}
variable {x : Except Halt α} {g : α → Except Halt γ}

theorem ok {a : α} {b : β} (h : r a b) : Follows r (.ok a) (.ok b) := ⟨b, rfl, h⟩

theorem error (h : Halt) : Follows r (.error h) (.error h) := by
  cases h with
  | undecided => trivial
  | fails => exact rfl
  | fault f => exact ⟨f, rfl, .refl f⟩

theorem refl (x : Except Halt α) : Follows Eq x x := by
  cases x with
  | ok a => exact .ok rfl
  | error h => exact .error h

theorem bind {y : Except Halt β} {k : β → Except Halt δ} (hxy : Follows r x y)
    (hgk : ∀ a b, r a b → Follows q (g a) (k b)) : Follows q (x >>= g) (y >>= k) := by
  cases x with
  | ok a =>
    obtain ⟨b, rfl, hab⟩ := hxy
    exact hgk a b hab
  | error h =>
    cases h with
    | undecided => trivial
    | fails =>
      obtain rfl : y = .error .fails := hxy
      exact rfl
    | fault f =>
      obtain ⟨g, rfl, hfg⟩ := hxy
      exact ⟨g, rfl, hfg⟩

theorem bind_same {k : α → Except Halt δ} (hgk : ∀ a, Follows q (g a) (k a)) :
    Follows q (x >>= g) (x >>= k) := by
  apply bind (refl x)
  rintro a _ rfl
  exact hgk a

end Follows

/-- Whether a type is neither a tensor nor a tuple and will not become one. -/
def isOther : Ty → Bool
  | .func .. | .handle _ | .data .. => true
  | _ => false

/-- A relation between types and types of which more is known. A tensor is as it was, a tuple has
fields that are related in turn, and what can become neither stays so. Of cells and parameters
nothing is asked. -/
structure Sharpens (r : Ty → Ty → Prop) : Prop where
  tensor_self (s : Shape) (d : String) : r (.tensor s d) (.tensor s d)
  tensor {s : Shape} {d : String} {u : Ty} : r (.tensor s d) u → u = .tensor s d
  tuple {ts : List Ty} {u : Ty} : r (.tuple ts) u → ∃ us, u = .tuple us ∧ List.Forall₂ r ts us
  other {t u : Ty} : r t u → isOther t = true → isOther u = true

section Sharpening

variable {r : Ty → Ty → Prop} (hr : Sharpens r) {types' : List Ty} (h : List.Forall₂ r types types')
variable {u : Ty}
include h

theorem slot_follows (i : Nat) : Follows r (slot types i) (slot types' i) := by
  induction h generalizing i with
  | nil => exact .error _
  | cons h _ ih =>
    cases i with
    | zero => exact .ok h
    | succ i => exact ih i

omit h

theorem tensor_of_other (ht : isOther t = true) : tensor t = .error .fails := by
  cases t <;> first | rfl | cases ht

theorem fields_of_other (ht : isOther t = true) : fields t = .error .fails := by
  cases t <;> first | rfl | cases ht

include hr

theorem tensor_follows (htu : r t u) : Follows Eq (tensor t) (tensor u) := by
  cases t with
  | tensor s d =>
    rw [hr.tensor htu]
    exact .refl _
  | tuple ts =>
    obtain ⟨us, rfl, -⟩ := hr.tuple htu
    exact .error _
  | cell c => trivial
  | param p => trivial
  | func | handle | data =>
    rw [tensor_of_other (hr.other htu rfl)]
    exact .error _

theorem fields_follows (htu : r t u) : Follows (List.Forall₂ r) (fields t) (fields u) := by
  cases t with
  | tensor s d =>
    rw [hr.tensor htu]
    exact .error _
  | tuple ts =>
    obtain ⟨us, rfl, hus⟩ := hr.tuple htu
    exact .ok hus
  | cell c => trivial
  | param p => trivial
  | func | handle | data =>
    rw [fields_of_other (hr.other htu rfl)]
    exact .error _

include h

theorem tensorSlot_follows (i : Nat) : Follows Eq (tensorSlot types i) (tensorSlot types' i) :=
  (slot_follows h i).bind fun _ _ htu => tensor_follows hr htu

theorem tensors_follows : Follows Eq (tensors types) (tensors types') := by
  induction h with
  | nil => exact .ok rfl
  | cons h _ ih =>
    apply (tensor_follows hr h).bind
    rintro x _ rfl
    apply ih.bind
    rintro xs _ rfl
    exact .ok rfl

omit hr in
theorem project_follows (index : Value) :
    Follows r (project types index) (project types' index) := by
  apply Follows.bind_same
  intro n
  rw [← h.length_eq]
  split
  · apply Follows.bind_same
    intro i
    exact slot_follows h i.toNat
  · -- The report names the tuple, of which more may be known by then.
    exact ⟨_, rfl, rfl⟩

theorem stretched_follows (dtype : String → String) :
    Follows r (stretched types dtype) (stretched types' dtype) := by
  apply (tensorSlot_follows hr h 0).bind
  rintro ⟨s, d⟩ _ rfl
  apply (tensorSlot_follows hr h 1).bind
  rintro ⟨t, e⟩ _ rfl
  dsimp only
  split
  · exact .error _
  · cases s.broadcast? t with
    | none => exact .error _
    | some shape => exact .ok (hr.tensor_self _ _)

theorem matmul_follows (attrs : Attrs) :
    Follows r (conclude .matmul types attrs) (conclude .matmul types' attrs) := by
  apply (tensorSlot_follows hr h 0).bind
  rintro ⟨s, d⟩ _ rfl
  apply (tensorSlot_follows hr h 1).bind
  rintro ⟨t, e⟩ _ rfl
  dsimp only
  split
  · exact .error _
  · split
    · split
      · exact .ok (hr.tensor_self _ _)
      · exact .error _
    · exact .error _

theorem concatenate_follows (attrs : Attrs) :
    Follows r (conclude .concatenate types attrs) (conclude .concatenate types' attrs) := by
  apply (slot_follows h 0).bind
  intro t u htu
  apply (fields_follows hr htu).bind
  intro ts us htus
  cases htus with
  | nil => exact .error _
  | cons htu htus =>
    apply (tensor_follows hr htu).bind
    rintro first _ rfl
    apply (tensors_follows hr htus).bind
    rintro rest _ rfl
    apply Follows.bind_same
    intro x
    exact .ok (hr.tensor_self _ _)

theorem conclude_follows (rule : Rule) (attrs : Attrs) :
    Follows r (rule.conclude types attrs) (rule.conclude types' attrs) := by
  cases rule with
  | identity =>
    apply (tensorSlot_follows hr h 0).bind
    rintro x _ rfl
    exact .ok (hr.tensor_self _ _)
  | broadcast => exact stretched_follows hr h id
  | comparison => exact stretched_follows hr h fun _ => "bool"
  | matmul => exact matmul_follows hr h attrs
  | reduce =>
    apply (tensorSlot_follows hr h 0).bind
    rintro ⟨s, d⟩ _ rfl
    dsimp only
    split
    · exact .error _
    · exact .ok (hr.tensor_self _ _)
  | expandDims =>
    apply (tensorSlot_follows hr h 0).bind
    rintro ⟨s, d⟩ _ rfl
    apply Follows.bind_same
    intro shape
    exact .ok (hr.tensor_self _ _)
  | concatenate => exact concatenate_follows hr h attrs
  | projection =>
    apply (slot_follows h 0).bind
    intro t u htu
    split
    · exact .error _
    · apply (fields_follows hr htu).bind
      intro ts us htus
      exact project_follows htus _

end Sharpening

theorem forall₂_replace (onParam : TypeParam → Ty) (onCell : Cell → Ty) (types : List Ty) :
    List.Forall₂ (fun t u => u = t.replace onParam onCell) types
      (types.map (Ty.replace onParam onCell)) := by
  rw [List.forall₂_map_right_iff, List.forall₂_same]
  exact fun _ _ => rfl

theorem sharpens_replace (onParam : TypeParam → Ty) (onCell : Cell → Ty) :
    Sharpens fun t u => u = t.replace onParam onCell where
  tensor_self _ _ := rfl
  tensor h := h
  tuple {ts u} h := by
    refine ⟨_, h, ?_⟩
    rw [Ty.replaceList_eq_map]
    exact forall₂_replace onParam onCell ts
  other {t u} h ht := by
    subst h
    cases t <;> first | rfl | cases ht

theorem conclude_replace (onParam : TypeParam → Ty) (onCell : Cell → Ty) (rule : Rule)
    (types : List Ty) (attrs : Attrs) :
    Follows (fun t u => u = t.replace onParam onCell) (rule.conclude types attrs)
      (rule.conclude (types.map (Ty.replace onParam onCell)) attrs) :=
  conclude_follows (sharpens_replace onParam onCell) (forall₂_replace onParam onCell types) rule
    attrs

theorem conclude_mapCells (f : Cell → Ty) (rule : Rule) (types : List Ty) (attrs : Attrs) :
    Follows (fun t u => u = t.mapCells f) (rule.conclude types attrs)
      (rule.conclude (types.map (Ty.mapCells f)) attrs) :=
  conclude_replace .param f rule types attrs

theorem mem_cells_of_conclude (h : rule.conclude types attrs = .ok t) {c : Cell}
    (hc : c ∈ t.cellOccurrences) : ∃ u ∈ types, c ∈ u.cellOccurrences := by
  classical
  -- Replace every cell that is in no slot. This does not change the slots.
  let f : Cell → Ty := fun c =>
    if ∃ u ∈ types, c ∈ u.cellOccurrences then .cell c else .tuple []
  have hslots : types.map (Ty.mapCells f) = types := by
    refine (List.map_congr_left fun u hu => ?_).trans types.map_id
    apply Ty.mapCells_eq_self
    intro d hd
    exact if_pos ⟨u, hu, hd⟩
  have hfollows := conclude_mapCells f rule types attrs
  rw [hslots, h] at hfollows
  obtain ⟨_, hsame, rfl⟩ := hfollows
  rw [Except.ok.injEq] at hsame
  rw [hsame, Ty.mem_cellOccurrences_mapCells] at hc
  obtain ⟨d, -, hd⟩ := hc
  by_cases hin : ∃ u ∈ types, d ∈ u.cellOccurrences
  · have hcell : f d = .cell d := if_pos hin
    rw [hcell, Ty.cellOccurrences_cell, List.mem_singleton] at hd
    exact hd ▸ hin
  · have hnone : f d = .tuple [] := if_neg hin
    rw [hnone] at hd
    exact absurd hd List.not_mem_nil

theorem verdict_eq_holds {slot : Nat} :
    rule.verdict types attrs = .ok (.holds slot t) ↔
      rule.conclude types attrs = .ok t ∧ rule.target = slot := by
  unfold verdict
  cases hc : rule.conclude types attrs with
  | ok u => simp [and_comm]
  | error halt => cases halt <;> simp

theorem verdict_eq_indeterminate :
    rule.verdict types attrs = .ok .indeterminate ↔
      rule.conclude types attrs = .error .undecided := by
  unfold verdict
  cases hc : rule.conclude types attrs with
  | ok u => simp
  | error halt => cases halt <;> simp

/-- What holds goes on holding when more is known, with a conclusion of which more is known. -/
theorem verdict_follows {r : Ty → Ty → Prop} (hr : Sharpens r) {types' : List Ty}
    (htypes : List.Forall₂ r types types') {slot : Nat}
    (h : rule.verdict types attrs = .ok (.holds slot t)) :
    ∃ u, rule.verdict types' attrs = .ok (.holds slot u) ∧ r t u := by
  rw [verdict_eq_holds] at h
  have hfollows := conclude_follows hr htypes rule attrs
  rw [h.1] at hfollows
  obtain ⟨u, hc, hu⟩ := hfollows
  exact ⟨u, verdict_eq_holds.2 ⟨hc, h.2⟩, hu⟩

theorem verdict_replace {slot : Nat} (onParam : TypeParam → Ty) (onCell : Cell → Ty)
    (h : rule.verdict types attrs = .ok (.holds slot t)) :
    rule.verdict (types.map (Ty.replace onParam onCell)) attrs =
      .ok (.holds slot (t.replace onParam onCell)) := by
  obtain ⟨_, hv, rfl⟩ := verdict_follows (sharpens_replace onParam onCell)
    (forall₂_replace onParam onCell types) h
  exact hv

theorem verdict_mapCells {slot : Nat} (h : rule.verdict types attrs = .ok (.holds slot t)) :
    rule.verdict (types.map (Ty.mapCells f)) attrs = .ok (.holds slot (t.mapCells f)) :=
  verdict_replace .param f h

theorem verdict_eq_fails :
    rule.verdict types attrs = .ok .fails ↔ rule.conclude types attrs = .error .fails := by
  unfold verdict
  cases hc : rule.conclude types attrs with
  | ok u => simp
  | error halt => cases halt <;> simp

theorem verdict_eq_error {f : Fault} :
    rule.verdict types attrs = .error f ↔ rule.conclude types attrs = .error (.fault f) := by
  unfold verdict
  cases hc : rule.conclude types attrs with
  | ok u => simp
  | error halt => cases halt <;> simp

theorem verdict_replace_of_fails (onParam : TypeParam → Ty) (onCell : Cell → Ty)
    (h : rule.verdict types attrs = .ok .fails) :
    rule.verdict (types.map (Ty.replace onParam onCell)) attrs = .ok .fails := by
  rw [verdict_eq_fails] at h ⊢
  have hfollows := conclude_replace onParam onCell rule types attrs
  rw [h] at hfollows
  exact hfollows

theorem verdict_replace_of_error (onParam : TypeParam → Ty) (onCell : Cell → Ty) {f : Fault}
    (h : rule.verdict types attrs = .error f) :
    ∃ g, rule.verdict (types.map (Ty.replace onParam onCell)) attrs = .error g ∧
      f.SameClass g := by
  have hfollows := conclude_replace onParam onCell rule types attrs
  rw [verdict_eq_error.1 h] at hfollows
  obtain ⟨g, hg, hfg⟩ := hfollows
  exact ⟨g, verdict_eq_error.2 hg, hfg⟩

/-- A rule that holds or cannot tell when more is known did not refuse before. -/
theorem verdict_of_mapCells {v : Verdict}
    (h : rule.verdict (types.map (Ty.mapCells f)) attrs = .ok v) (hv : v ≠ .fails) :
    rule.verdict types attrs = .ok .indeterminate ∨
      ∃ t, rule.verdict types attrs = .ok (.holds rule.target t) := by
  cases hc : rule.conclude types attrs with
  | ok t => exact .inr ⟨t, verdict_eq_holds.2 ⟨hc, rfl⟩⟩
  | error halt =>
    cases halt with
    | undecided => exact .inl (verdict_eq_indeterminate.2 hc)
    | fails =>
      have hfails := verdict_replace_of_fails .param f (verdict_eq_fails.2 hc)
      exact absurd (Except.ok.inj (h.symm.trans hfails)) hv
    | fault g =>
      obtain ⟨_, hfault, -⟩ := verdict_replace_of_error .param f (verdict_eq_error.2 hc)
      cases h.symm.trans hfault

end Rule

/-- The last slot of a relation of the standard registry is the one for its conclusion, and only one
relation is a projection. -/
theorem Registry.standard_entry (h : standard.table.get? name = some entry) :
    entry.arity = some (entry.rule.target + 1 : Int) ∧
      (entry.rule = .projection → name = "TupleGetItem") := by
  have hall : ∀ x ∈ standard.table.entries, x.2.arity = some (x.2.rule.target + 1 : Int) ∧
      (x.2.rule = .projection → x.1 = "TupleGetItem") := by decide
  exact hall _ (Table.mem_entries_of_get? h)

theorem Registry.lookup_eq_ok {registry : Registry} {site : Option Phrase} :
    registry.lookup name site = .ok entry ↔ registry.table.get? name = some entry := by
  unfold lookup
  cases registry.table.get? name <;> simp

end TensorTyping
