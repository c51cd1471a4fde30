import TensorTyping.Proofs.Inference.Soundness

/-!
# The simply typed core

The core of the language has variables, constants, functions without type parameters, calls of
anything but symbols, local definitions, tuples and conditionals. Its written types are basic: built
from tensor types of known sizes by tuples and plain function types.

A typing of a core expression gives a type without cells to every node and every variable, such that
the types around each node are the ones that the rule of simple typing asks for. The rules ask for
equal types, and they know nothing of cells, stores or the order in which things are typed.
-/
namespace TensorTyping

open List

variable {t : Ty}

namespace Ty

mutual
/-- Whether a type is built from tensor types of known sizes by tuples and plain function types. -/
def basic : Ty → Bool
  | .tensor s _ => s.all Dim.isKnown
  | .tuple ts => basicList ts
  | .func as r ps rs => ps.isEmpty && rs.isEmpty && basicList as && r.basic
  | .param _ | .cell _ | .handle _ | .data .. => false
def basicList : List Ty → Bool
  | [] => true
  | t :: ts => t.basic && basicList ts
end

theorem basicList_iff {ts : List Ty} : basicList ts = true ↔ ∀ t ∈ ts, t.basic = true := by
  induction ts with
  | nil => simp [basicList]
  | cons t ts ih => simp [basicList, ih]

theorem basic_func {as : List Ty} {r : Ty} {ps : List TypeParam} {rs : List TypeRelation}
    (h : (Ty.func as r ps rs).basic = true) :
    ps = [] ∧ rs = [] ∧ (∀ a ∈ as, a.basic = true) ∧ r.basic = true := by
  simp only [basic, Bool.and_eq_true, List.isEmpty_iff, basicList_iff] at h
  exact ⟨h.1.1.1, h.1.1.2, h.1.2, h.2⟩

theorem basic_of_child {u : Ty} (ht : t.basic = true) (hu : u ∈ t.children) : u.basic = true := by
  cases t with
  | tuple ts => exact basicList_iff.1 ht u hu
  | func as r ps rs =>
    obtain ⟨-, rfl, has, hr⟩ := basic_func ht
    simp only [children, flatMap_nil, mem_append, mem_singleton] at hu
    rcases hu with hu | rfl
    · exact has u hu
    · exact hr
  | data h as => simp [basic] at ht
  | tensor | param | cell | handle => simp at hu

theorem everywhere_of_basic (ht : t.basic = true) : Everywhere isPlain t := by
  induction t using induction_children with
  | step t ih =>
    refine .intro ?_ fun u hu => ih u hu (basic_of_child ht hu)
    cases t with
    | tensor s d => exact ht
    | func as r ps rs =>
      obtain ⟨hps, hrs, -⟩ := basic_func ht
      exact ⟨hps, hrs⟩
    | _ => trivial

theorem closed_of_basic (ht : t.basic = true) : t.cellOccurrences = [] := by
  induction t using induction_children with
  | step t ih =>
    refine cellOccurrences_eq_nil_iff.2 ⟨?_, fun u hu => ih u hu (basic_of_child ht hu)⟩
    cases t <;> first | rfl | cases ht

theorem eq_of_mapCells_eq {f g : Cell → Ty} (h : t.mapCells f = t.mapCells g) {c : Cell}
    (hc : c ∈ t.cellOccurrences) : f c = g c := by
  induction t using induction_cells with
  | cell d =>
    obtain rfl : c = d := by simpa using hc
    exact h
  | node t ht ih =>
    obtain ⟨u, hu, hc⟩ := (mem_cellOccurrences.1 hc).resolve_left (isCell_eq_false_iff.1 ht c)
    rw [mapCells_of_not_cell f ht, mapCells_of_not_cell g ht] at h
    have hchildren := congrArg children h
    rw [children_mapChildren, children_mapChildren] at hchildren
    exact ih u hu (map_inj_left.1 hchildren u hu) hc

end Ty

namespace Inference

theorem misformed?_of_basic (m : Module) (scope : List TypeParam) (site : Option Phrase)
    (ht : t.basic = true) : misformed? m scope site t = none := by
  induction t using Ty.induction_children generalizing scope with
  | step t ih =>
    have hoperands : ∀ u ∈ t.operands, misformed? m (scope ++ t.binders) site u = none := by
      intro u hu
      have hchild := Ty.mem_children.2 (.inl hu)
      exact ih u hchild _ (Ty.basic_of_child ht hchild)
    rw [misformed?_eq_none_iff]
    cases t with
    | param | handle | data => cases ht
    | _ => exact ⟨fun p hp => Ty.noConfusion hp, trivial, hoperands⟩

end Inference

namespace Expr

variable {e : Expr} {n : Serial}

/-- Whether a node is one of the core: what stands below it is left aside. -/
def isSimple : Expr → Bool
  | .var _ | .letIn .. | .tuple .. | .cond .. => true
  | .constant _ c =>
    match Ty.ofEntries c.shape c.dtype with
    | .ok t => t.basic
    | .error _ => false
  | .fn _ _ _ _ typeParams relations => typeParams.isEmpty && relations.isEmpty
  | .call _ callee _ typeArgs _ => !callee.isReference && (typeArgs.getD []).isEmpty
  | .global _ | .op .. | .ctor _ | .proj .. | .matchOn .. => false

/-- Whether an expression belongs to the core, with all its parts. -/
def isCore (e : Expr) : Bool := e.parts.all fun d => d.isSimple && d.written.all Ty.basic

theorem isCore_iff : e.isCore = true ↔
    ∀ d ∈ e.parts, d.isSimple = true ∧ ∀ t ∈ d.written, t.basic = true := by
  simp [isCore]

section

variable (h : e.isCore = true)
variable {d : Expr}

include h

theorem isSimple_of_core (hd : d ∈ e.parts) : d.isSimple = true := (isCore_iff.1 h d hd).1

theorem isCore_part (hd : d ∈ e.parts) : d.isCore = true :=
  isCore_iff.2 fun c hc => isCore_iff.1 h c (parts_trans hd hc)

theorem isCore_child {c : Expr} (hc : c ∈ e.children) : c.isCore = true :=
  isCore_part h (parts_of_child hc c.self_mem_parts)

theorem basic_of_core (ht : t ∈ e.written) : t.basic = true :=
  (isCore_iff.1 h e e.self_mem_parts).2 t ht

theorem isReference_of_core : e.isReference = false := by
  have hsimple := isSimple_of_core h e.self_mem_parts
  cases e <;> first | rfl | cases hsimple

theorem isShared_of_core : e.isShared = false := by
  have hsimple := isSimple_of_core h e.self_mem_parts
  cases e <;> first | rfl | cases hsimple

end

theorem constant_of_core {c : Constant} (h : (constant n c).isCore = true) :
    ∃ t, Ty.ofEntries c.shape c.dtype = .ok t ∧ t.basic = true := by
  have hsimple := isSimple_of_core h (self_mem_parts _)
  simp only [isSimple] at hsimple
  split at hsimple
  · next t ht => exact ⟨t, ht, hsimple⟩
  · cases hsimple

theorem fn_of_core {params : List Var} {body : Expr} {ret : Option Ty} {typeParams : List TypeParam}
    {relations : List TypeRelation}
    (h : (fn n params body ret typeParams relations).isCore = true) :
    typeParams = [] ∧ relations = [] := by
  have hsimple := isSimple_of_core h (self_mem_parts _)
  simpa [isSimple] using hsimple

theorem call_of_core {callee : Expr} {args : List Expr} {typeArgs : Option (List Ty)}
    {attrs : Attrs} (h : (call n callee args typeArgs attrs).isCore = true) :
    typeArgs.getD [] = [] := by
  have hsimple := isSimple_of_core h (self_mem_parts _)
  simp only [isSimple, Bool.and_eq_true, List.isEmpty_iff] at hsimple
  exact hsimple.2

theorem global_mem_parts {g : Global} (hg : g ∈ e.mentions) : global g ∈ e.parts := by
  induction e using induction_children with
  | step e ih =>
    have hchild {c : Expr} (hc : c ∈ e.children) (hg : g ∈ c.mentions) : global g ∈ e.parts :=
      parts_of_child hc (ih c hc hg)
    cases e with
    | global k =>
      obtain rfl : g = k := by simpa [mentions] using hg
      exact self_mem_parts _
    | fn n params body ret ps rs => exact hchild (mem_singleton_self body) hg
    | call n callee args ts attrs =>
      simp only [mentions, mem_append, mem_mentionsList] at hg
      rcases hg with hg | ⟨c, hc, hg⟩
      · exact hchild (by simp) hg
      · exact hchild (by simp [hc]) hg
    | letIn n x value body =>
      simp only [mentions, mem_append] at hg
      rcases hg with hg | hg <;> exact hchild (by simp) hg
    | tuple n fields =>
      obtain ⟨c, hc, hg⟩ := mem_mentionsList.1 hg
      exact hchild hc hg
    | proj n t index => exact hchild (mem_singleton_self t) hg
    | cond n test whenTrue whenFalse =>
      simp only [mentions, mem_append] at hg
      rcases hg with (hg | hg) | hg <;> exact hchild (by simp) hg
    | matchOn n subject clauses =>
      simp only [mentions, mem_append, mem_mentionsClauses] at hg
      rcases hg with hg | ⟨c, hc, hg⟩
      · exact hchild (by simp) hg
      · exact hchild (.tail _ (mem_map_of_mem hc)) hg
    | var | op | ctor | constant => simp [mentions] at hg

mutual
/-- Whether every variable in an expression is bound where it is used, the variables `bound` being
so from outside, innermost first. A local definition can refer to itself if it is a function. -/
def wellScoped (bound : List Serial) : Expr → Bool
  | .var x => bound.contains x.serial
  | .fn _ params body _ _ _ => body.wellScoped ((params.map fun x => x.serial).reverse ++ bound)
  | .call _ callee args _ _ => callee.wellScoped bound && wellScopedList bound args
  | .letIn _ x value body =>
    value.wellScoped (if value.function?.isSome then x.serial :: bound else bound) &&
      body.wellScoped (x.serial :: bound)
  | .tuple _ fields => wellScopedList bound fields
  | .proj _ t _ => t.wellScoped bound
  | .cond _ test whenTrue whenFalse =>
    test.wellScoped bound && whenTrue.wellScoped bound && whenFalse.wellScoped bound
  | .matchOn _ subject clauses => subject.wellScoped bound && wellScopedClauses bound clauses
  | .global _ | .op .. | .ctor _ | .constant .. => true
def wellScopedList (bound : List Serial) : List Expr → Bool
  | [] => true
  | e :: es => e.wellScoped bound && wellScopedList bound es
def wellScopedClauses (bound : List Serial) : List (Pattern × Expr) → Bool
  | [] => true
  | (p, e) :: cs => e.wellScoped (p.inner ++ bound) && wellScopedClauses bound cs
end

attribute [local simp] wellScoped wellScopedList

/-- The rule of simple typing at a node of the core. -/
def SimplyTyped (τ : Serial → Ty) : Expr → Prop
  | .var _ => True
  | .constant n c => Ty.ofEntries c.shape c.dtype = .ok (τ n)
  | .fn n params body ret _ _ =>
    (∀ x ∈ params, ∀ a, x.ascription = some a → τ x.serial = a) ∧
      (∀ r, ret = some r → τ body.serial = r) ∧
      τ n = .func (params.map fun x => τ x.serial) (τ body.serial) [] []
  | .call n callee args _ _ => τ callee.serial = .func (args.map fun e => τ e.serial) (τ n) [] []
  | .letIn n x value body =>
    τ value.serial = τ x.serial ∧ (∀ a, x.ascription = some a → τ x.serial = a) ∧
      τ n = τ body.serial
  | .tuple n fields => τ n = .tuple (fields.map fun e => τ e.serial)
  | .cond n test whenTrue whenFalse =>
    τ test.serial = .bool ∧ τ whenTrue.serial = τ whenFalse.serial ∧ τ n = τ whenTrue.serial
  | .global _ | .op .. | .ctor _ | .proj .. | .matchOn .. => False

/-- The types `τ`, by serial number, make a typing of the closed expression. -/
structure Typing (τ : Serial → Ty) (e : Expr) : Prop where
  wellScoped : e.wellScoped [] = true
  rules : ∀ d ∈ e.parts, d.SimplyTyped τ
  closed : ∀ n ∈ e.serials, (τ n).cellOccurrences = []

end Expr

end TensorTyping
