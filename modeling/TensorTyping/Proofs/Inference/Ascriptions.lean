import TensorTyping.Inference.WellFormed
import TensorTyping.Proofs.Ty.Constituents

/-!
# What a well-formed type mentions

Whether a written type is well formed is asked of its parts one by one, each in the scope in which it
stands, but the slots of relations that function types carry are passed over. A parameter that is out
of scope there is free in the type all the same. If the slots are well formed too, then exactly the
types pass whose free parameters are in scope, whose parameters can stand for types, and whose data
types are known and have as many arguments as they have parameters (`accepted_iff_census`).
-/
namespace TensorTyping

namespace Ty

variable {t u : Ty}

/-- The children of a type that are not slots of a relation. -/
def operands : Ty → List Ty
  | .tuple ts => ts
  | .func as r _ _ => as ++ [r]
  | .data _ as => as
  | _ => []

theorem mem_children : u ∈ t.children ↔ u ∈ t.operands ∨ ∃ r ∈ t.relations, u ∈ r.args := by
  cases t <;> simp [operands, relations, or_assoc]

/-- A type stands in a slot of a relation that a function type carries within the type, in the given
scope. -/
inductive SlotIn : List TypeParam → Ty → List TypeParam → Ty → Prop
  | here {scope : List TypeParam} {t a : Ty} {r : TypeRelation} :
    r ∈ t.relations → a ∈ r.args → SlotIn scope t (scope ++ t.binders) a
  | inside {scope inner : List TypeParam} {t u a : Ty} :
    u ∈ t.children → SlotIn (scope ++ t.binders) u inner a → SlotIn scope t inner a

end Ty

namespace Inference

variable {m : Module} {scope : List TypeParam} {site : Option Phrase} {t : Ty} {ts : List Ty}

theorem misformedList?_eq_none_iff :
    misformedList? m scope site ts = none ↔ ∀ t ∈ ts, misformed? m scope site t = none := by
  induction ts with
  | nil => simp [misformedList?]
  | cons t ts ih => simp [misformedList?, ih]

/-- What may stand somewhere in a written type, apart from its parts and from what is in scope. -/
def MayStand (m : Module) : Ty → Prop
  | .param p => p.kind.standsForType = true
  | .handle _ => False
  | .data h as => ∃ d, m.dataTypes.get? h = some d ∧ d.params.length = as.length
  | _ => True

theorem misformed?_eq_none_iff :
    misformed? m scope site t = none ↔ (∀ p, t = .param p → p ∈ scope) ∧ MayStand m t ∧
      ∀ u ∈ t.operands, misformed? m (scope ++ t.binders) site u = none := by
  cases t with
  | tensor | cell | handle => simp [misformed?, MayStand, Ty.operands]
  | param p => by_cases hp : p ∈ scope <;> simp [misformed?, MayStand, Ty.operands, hp]
  | tuple ts => simp [misformed?, MayStand, Ty.operands, misformedList?_eq_none_iff]
  | func as r ps rs =>
    simp [misformed?, MayStand, Ty.operands, misformedList?_eq_none_iff, or_imp, forall_and]
  | data h as =>
    cases hd : m.dataTypes.get? h with
    | none => simp [misformed?, MayStand, hd]
    | some d =>
      by_cases hlen : d.params.length = as.length <;>
        simp [misformed?, MayStand, Ty.operands, hd, hlen, misformedList?_eq_none_iff]

theorem misformed?_mono {scope' : List TypeParam} {site' : Option Phrase} (hscope : scope ⊆ scope')
    (ht : misformed? m scope site t = none) : misformed? m scope' site' t = none := by
  induction t using Ty.induction_children generalizing scope scope' with
  | step t ih =>
    rw [misformed?_eq_none_iff] at ht ⊢
    obtain ⟨hmem, hstand, hoperands⟩ := ht
    refine ⟨fun p hp => hscope (hmem p hp), hstand, fun u hu => ?_⟩
    refine ih u (Ty.mem_children.2 (.inl hu)) (fun p hp => ?_) (hoperands u hu)
    rw [List.mem_append] at hp ⊢
    exact hp.imp_left fun h => hscope h

/-- A type is well formed together with every slot of a relation in it. -/
def FormedThroughout (m : Module) (scope : List TypeParam) (site : Option Phrase) (t : Ty) : Prop :=
  misformed? m scope site t = none ∧
    ∀ inner a, Ty.SlotIn scope t inner a → misformed? m inner site a = none

theorem formedThroughout_iff_children :
    FormedThroughout m scope site t ↔ (∀ p, t = .param p → p ∈ scope) ∧ MayStand m t ∧
      ∀ u ∈ t.children, FormedThroughout m (scope ++ t.binders) site u := by
  unfold FormedThroughout
  rw [misformed?_eq_none_iff]
  constructor
  · rintro ⟨⟨hscope, hstand, hoperands⟩, hslots⟩
    refine ⟨hscope, hstand, fun u hu => ⟨?_, fun inner a ha => hslots inner a (.inside hu ha)⟩⟩
    rcases Ty.mem_children.1 hu with hu | ⟨r, hr, hu⟩
    · exact hoperands u hu
    · exact hslots _ u (.here hr hu)
  · rintro ⟨hscope, hstand, hchildren⟩
    refine ⟨⟨hscope, hstand, fun u hu => (hchildren u (Ty.mem_children.2 (.inl hu))).1⟩, ?_⟩
    intro inner a ha
    cases ha with
    | here hr ha => exact (hchildren a (Ty.mem_children.2 (.inr ⟨_, hr, ha⟩))).1
    | inside hu ha => exact (hchildren _ hu).2 inner a ha

theorem formedThroughout_iff :
    FormedThroughout m scope site t ↔
      (∀ p ∈ t.paramOccurrences [], p ∈ scope) ∧ ∀ u ∈ t.constituents, MayStand m u := by
  rw [← Ty.everywhere_iff_constituents]
  induction t using Ty.induction_children generalizing scope with
  | step t ih =>
    rw [formedThroughout_iff_children]
    constructor
    · rintro ⟨hscope, hstand, hchildren⟩
      refine ⟨fun p hp => ?_, .intro hstand fun u hu => ((ih u hu).1 (hchildren u hu)).2⟩
      rcases Ty.mem_free.1 hp with ht | ⟨u, hu, hp, hbinders⟩
      · exact hscope p ht
      · have hmem := ((ih u hu).1 (hchildren u hu)).1 p hp
        exact (List.mem_append.1 hmem).resolve_right hbinders
    · rintro ⟨hfree, hstand⟩
      refine ⟨fun p ht => hfree p (Ty.mem_free.2 (.inl ht)), hstand.top, fun u hu => ?_⟩
      refine (ih u hu).2 ⟨fun p hp => ?_, hstand.child hu⟩
      by_cases hbinders : p ∈ t.binders
      · exact List.mem_append_right _ hbinders
      · exact List.mem_append_left _ (hfree p (Ty.mem_free.2 (.inr ⟨u, hu, hp, hbinders⟩)))

theorem mem_scope_of_free (ht : misformed? m scope site t = none)
    (hrel : ∀ u ∈ t.constituents, u.relations = []) {p : TypeParam}
    (hp : p ∈ t.paramOccurrences []) : p ∈ scope := by
  refine (formedThroughout_iff.1 ⟨ht, fun inner a ha => ?_⟩).1 p hp
  exfalso
  clear ht hp
  induction ha with
  | here hr => simp [hrel _ (Ty.mem_constituents.2 (.inl rfl))] at hr
  | inside hu _ ih => exact ih fun v hv => hrel v (Ty.mem_constituents.2 (.inr ⟨_, hu, hv⟩))

/-- A type is accepted together with the slots of the relations in it exactly if what is free in it is
in scope, its parameters can stand for types, its data types are known and have the right number of
arguments, and no handle in it stands alone. -/
theorem accepted_iff_census (m : Module) (scope : List TypeParam) (site : Option Phrase) (t : Ty) :
    (misformed? m scope site t = none ∧
      ∀ inner a, Ty.SlotIn scope t inner a → misformed? m inner site a = none) ↔
    (∀ p ∈ freeParamsOf [t], p ∈ scope) ∧
      (∀ p, .param p ∈ t.constituents → p.kind.standsForType = true) ∧
      (∀ h as, .data h as ∈ t.constituents →
        ∃ d, m.dataTypes.get? h = some d ∧ d.params.length = as.length) ∧
      ∀ h, .handle h ∉ t.constituents := by
  simp only [Ty.mem_freeParamsOf_singleton]
  refine formedThroughout_iff.trans (and_congr_right' ⟨fun h => ?_, fun h u hu => ?_⟩)
  · exact ⟨fun p hp => h _ hp, fun n as hd => h _ hd, fun n hn => h _ hn⟩
  · cases u with
    | param p => exact h.1 p hu
    | data n as => exact h.2.1 n as hu
    | handle n => exact h.2.2 n hu
    | _ => trivial

/-- The slots of relations are passed over. A parameter that is out of scope and no type may stand
there, and a data type that nobody knows. -/
theorem stray_slots_accepted :
    let stray : TypeParam := ⟨⟨1, "S"⟩, .shape⟩
    let unknown : Handle := ⟨⟨2, "D"⟩⟩
    let slots : TypeRelation := ⟨"Identity", [.param stray, .data unknown []], 1, .empty⟩
    let t : Ty := .func [] (.scalar "int32") [] [slots]
    misformed? .empty [] none t = none ∧ stray ∈ freeParamsOf [t] ∧
      .param stray ∈ t.constituents ∧ stray.kind.standsForType = false ∧
      .data unknown [] ∈ t.constituents ∧ Module.empty.dataTypes.get? unknown = none := by
  intro stray unknown slots t
  have hconstituents : t.constituents = [t, .scalar "int32", .param stray, .data unknown []] := rfl
  rw [hconstituents]
  exact ⟨rfl, by decide, by simp, rfl, by simp, rfl⟩

end Inference

end TensorTyping
