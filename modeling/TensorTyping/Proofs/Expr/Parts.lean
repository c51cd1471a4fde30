import TensorTyping.Proofs.Expr.Children

/-!
# The parts of an expression

An expression together with all its parts, the serial numbers that its nodes and the variables
bound in it have, and the types that are written in it. An expression is a tree, in which no node
is used twice and no variable bound twice, when these numbers are different.
-/
namespace TensorTyping

open List

namespace Pattern

mutual
/-- The serial numbers of a pattern but its own: those of the variables it binds and of the
patterns in it. -/
def inner : Pattern → List Serial
  | .wildcard _ => []
  | .var _ x => [x.serial]
  | .ctor _ _ subs => serialsList subs
def serialsList : List Pattern → List Serial
  | [] => []
  | p :: ps => p.inner ++ p.serial :: serialsList ps
end

mutual
/-- The types written in a pattern: those of variables, and the inputs of constructors. -/
@[simp]
def written : Pattern → List Ty
  | .wildcard _ => []
  | .var _ x => x.ascription.toList
  | .ctor _ c subs => c.inputs ++ writtenList subs
@[simp]
def writtenList : List Pattern → List Ty
  | [] => []
  | p :: ps => p.written ++ writtenList ps
end

end Pattern

namespace Expr

variable {d e : Expr} {n : Serial}
variable {es : List Expr} {cs : List (Pattern × Expr)} {c : Expr}

mutual
def parts : Expr → List Expr
  | .fn n params body ret ps rs => .fn n params body ret ps rs :: body.parts
  | .call n callee args ts attrs => .call n callee args ts attrs :: callee.parts ++ partsList args
  | .letIn n x value body => .letIn n x value body :: value.parts ++ body.parts
  | .tuple n fields => .tuple n fields :: partsList fields
  | .proj n t index => .proj n t index :: t.parts
  | .cond n test whenTrue whenFalse =>
    .cond n test whenTrue whenFalse :: test.parts ++ whenTrue.parts ++ whenFalse.parts
  | .matchOn n subject clauses => .matchOn n subject clauses :: subject.parts ++ clauseParts clauses
  | .var x => [.var x]
  | .global g => [.global g]
  | .op n name => [.op n name]
  | .ctor c => [.ctor c]
  | .constant n c => [.constant n c]
def partsList : List Expr → List Expr
  | [] => []
  | e :: es => e.parts ++ partsList es
def clauseParts : List (Pattern × Expr) → List Expr
  | [] => []
  | (_, e) :: cs => e.parts ++ clauseParts cs
end

theorem mem_partsList : d ∈ partsList es ↔ ∃ e ∈ es, d ∈ e.parts := by
  induction es with
  | nil => simp [partsList]
  | cons e es ih => simp [partsList, ih]

theorem mem_clauseParts : d ∈ clauseParts cs ↔ ∃ e ∈ cs.map Prod.snd, d ∈ e.parts := by
  induction cs with
  | nil => simp [clauseParts]
  | cons c cs ih => simp [clauseParts, ih, -mem_map]

theorem mem_parts_iff : d ∈ e.parts ↔ d = e ∨ ∃ c ∈ e.children, d ∈ c.parts := by
  cases e <;> simp [parts, mem_partsList, mem_clauseParts, -mem_map]

theorem self_mem_parts (e : Expr) : e ∈ e.parts := mem_parts_iff.2 (.inl rfl)

theorem parts_of_child (hc : c ∈ e.children) (hd : d ∈ c.parts) : d ∈ e.parts :=
  mem_parts_iff.2 (.inr ⟨c, hc, hd⟩)

theorem parts_trans (hd : d ∈ e.parts) (hc : c ∈ d.parts) : c ∈ e.parts := by
  induction e using induction_children with
  | step e ih =>
    rcases mem_parts_iff.1 hd with rfl | ⟨b, hb, hd⟩
    · exact hc
    · exact parts_of_child hb (ih b hb hd)

mutual
/-- The serial numbers of the nodes of an expression and of the variables that it binds. Symbols
have theirs from elsewhere. -/
def serials : Expr → List Serial
  | .var _ | .global _ | .ctor _ => []
  | .op n _ | .constant n _ => [n]
  | .fn n params body _ _ _ => params.map (fun x => x.serial) ++ (body.serials ++ [n])
  | .call n callee args _ _ => callee.serials ++ (serialsList args ++ [n])
  | .letIn n x value body => x.serial :: (value.serials ++ (body.serials ++ [n]))
  | .tuple n fields => serialsList fields ++ [n]
  | .proj n t _ => t.serials ++ [n]
  | .cond n test whenTrue whenFalse =>
    test.serials ++ (whenTrue.serials ++ (whenFalse.serials ++ [n]))
  | .matchOn n subject clauses => subject.serials ++ (clauseSerials clauses ++ [n])
def serialsList : List Expr → List Serial
  | [] => []
  | e :: es => e.serials ++ serialsList es
def clauseSerials : List (Pattern × Expr) → List Serial
  | [] => []
  | (p, e) :: cs => p.inner ++ p.serial :: (e.serials ++ clauseSerials cs)
end

/-- The serial numbers that a node brings in: its own and those of the variables that it binds. -/
@[simp]
def ownSerials : Expr → List Serial
  | .var _ | .global _ | .ctor _ => []
  | .op n _ | .constant n _ | .call n .. | .tuple n _ | .proj n .. | .cond n .. => [n]
  | .fn n params _ _ _ _ => n :: params.map fun x => x.serial
  | .letIn n x _ _ => [n, x.serial]
  | .matchOn n _ clauses => n :: clauses.flatMap fun c => c.1.serial :: c.1.inner

theorem mem_serialsList : n ∈ serialsList es ↔ ∃ e ∈ es, n ∈ e.serials := by
  induction es with
  | nil => simp [serialsList]
  | cons e es ih => simp [serialsList, ih]

theorem mem_clauseSerials :
    n ∈ clauseSerials cs ↔
      (∃ c ∈ cs, n ∈ c.1.serial :: c.1.inner) ∨ ∃ e ∈ cs.map Prod.snd, n ∈ e.serials := by
  induction cs with
  | nil => simp [clauseSerials]
  | cons c cs ih =>
    simp only [clauseSerials, mem_append, mem_cons, ih, map_cons, exists_eq_or_imp]
    grind

theorem mem_serials_iff : n ∈ e.serials ↔ n ∈ e.ownSerials ∨ ∃ c ∈ e.children, n ∈ c.serials := by
  cases e with
  | matchOn m subject clauses =>
    simp only [serials, ownSerials, children, mem_append, mem_cons, mem_clauseSerials,
      mem_flatMap, exists_eq_or_imp, not_mem_nil]
    grind
  | _ => simp [serials, mem_serialsList] <;> grind

theorem exists_part_of_serial (hn : n ∈ e.serials) : ∃ d ∈ e.parts, n ∈ d.ownSerials := by
  induction e using induction_children with
  | step e ih =>
    rcases mem_serials_iff.1 hn with hn | ⟨c, hc, hn⟩
    · exact ⟨e, e.self_mem_parts, hn⟩
    · obtain ⟨d, hd, hn⟩ := ih c hc hn
      exact ⟨d, parts_of_child hc hd, hn⟩

/-- The types written at a node: ascriptions, the slots of relations, type arguments and the inputs
of constructors. -/
@[simp]
def written : Expr → List Ty
  | .fn _ params _ ret _ relations =>
    params.filterMap (fun x => x.ascription) ++ ret.toList ++ relations.flatMap fun r => r.args
  | .call _ _ _ typeArgs _ => typeArgs.getD []
  | .letIn _ x _ _ => x.ascription.toList
  | .ctor c => c.inputs
  | .matchOn _ _ clauses => clauses.flatMap fun c => c.1.written
  | _ => []

@[simp]
def typeParams : Expr → List TypeParam
  | .fn _ _ _ _ ps _ => ps
  | _ => []

end Expr

theorem Function.eq_filterMap_of_paramTypes? {xs : List Var} {ts : List Ty}
    (h : paramTypes? xs = some ts) : ts = xs.filterMap fun x => x.ascription := by
  induction xs generalizing ts with
  | nil =>
    cases h
    rfl
  | cons x xs ih =>
    unfold paramTypes? at h
    split at h
    · next t us hx hus =>
      cases h
      rw [filterMap_cons_some hx, ← ih hus]
    · cases h

theorem Function.declared?_eq_some {f : Function} {sig : Signature}
    (h : f.declared? = some sig) : sig.args = f.params.filterMap (fun x => x.ascription) ∧
      f.ret = some sig.ret ∧ sig.relations = f.relations := by
  unfold declared? at h
  split at h
  · next ret args hret hargs =>
    cases h
    exact ⟨eq_filterMap_of_paramTypes? hargs, hret, rfl⟩
  · cases h

end TensorTyping
