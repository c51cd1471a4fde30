import TensorTyping.Proofs.Inference.Coverage
import TensorTyping.Proofs.Inference.Failure

/-!
# Only data is matched on

What is matched on may still be unknown when it is met. It is then remembered together with its
type, and when everything has been decided it has to have come out as a data type. In a module that
checks, whatever is matched on with at least one clause is therefore marked with a data type.

A `match` without clauses is not remembered: what it matches on has only been looked at when it was
met, and may come out as anything.
-/
namespace TensorTyping.Inference

variable {Γ : Context} {session : Session} {m : Module} {V s' : State} {e : Engine}

/-- No symbol is remembered as matched on: its type would have to be that of a function. -/
theorem CheckRun.subject_not_shared (hΓ : Γ.groups = Γ.module.groups)
    (h : CheckRun Γ session m V e s') {subject : Expr} {t : Ty} (ht : (subject, t) ∈ V.scrutinees) :
    subject.isShared = false := by
  rw [Bool.eq_false_iff]
  intro hshared
  have hsurveyed :=
    solveGroups_surveyed hΓ (List.nil_append _).symm (start_ready session) h.solved
  rcases hsurveyed.matched _ ht with hstart | hfunc
  · cases hstart
  · obtain ⟨as, b, ps, rs, hfunc⟩ := hfunc hshared
    obtain ⟨d, ts, hdata⟩ := h.subjects _ ht
    have hlater := (finish_evolves h.ready.valid h.finished).later.resolve_resolve t
    rw [hfunc, hdata, Store.resolve_eq, Ty.mapCells_func] at hlater
    cases hlater

/-- What is matched on with at least one clause is marked with the data type that it has come out
as. -/
theorem CheckRun.subject_marked (hΓ : Γ.groups = Γ.module.groups) {W : Whole}
    (h : CheckRun Γ session m W.final e s') (hown : W.own.Nodup) (hnil : W.env = [])
    (hreads : Reads W.own W.final e.store s'.session.marks) {n : Serial} {subject : Expr}
    {clauses : List (Pattern × Expr)} {env : Env} {s₁ s₂ : State} {t : Ty}
    (hvisit : Visit Γ refuse W (.matchOn n subject clauses) env s₁ t s₂) (hne : clauses ≠ []) :
    ∃ d ts, s'.session.marks.type? subject.serial = some (.data d ts) := by
  obtain ⟨u, s₃, branches, hsubject, hmem, -⟩ :=
    hvisit.matchOn ⟨refuse_within fun _ => False, fun _ _ => id, hown⟩
  have hmem := hmem hne
  obtain ⟨hserial, hnote⟩ := hsubject.type hnil (h.subject_not_shared hΓ hmem)
  obtain ⟨d, ts, hdata⟩ := h.subjects _ hmem
  exact ⟨d, ts, (hreads.types hserial hnote).trans (congrArg some hdata)⟩

/-- In a module whose bodies are trees and which checks, everything that is matched on with at least
one clause, wherever it stands and whenever its type became known, is marked with a data type. -/
theorem matched_on_data {operators : Operators} {registry : Registry} {report : Report}
    (tree : (m.functions.values.flatMap fun f => f.toExpr.serials).Nodup)
    (apart : ∀ f ∈ m.functions.values, ∀ n ∈ f.toExpr.serials, n ∉ symbols m)
    (checks : (m.check operators registry report session).outcome = .ok true) {g : Global}
    {f : Function} (of : m.functions.get? g = some f) {n : Serial} {subject : Expr}
    {clauses : List (Pattern × Expr)} (part : .matchOn n subject clauses ∈ f.toExpr.parts)
    (some_clause : clauses ≠ []) :
    ∃ d ts, (m.check operators registry report session).session.marks.type? subject.serial =
      some (.data d ts) := by
  obtain ⟨s', hrun, hsession⟩ := checkModule_of_check checks
  obtain ⟨V, e, hcheck⟩ := checkModule_eq_ok rfl hrun
  obtain ⟨t, s₁, s₂, hvisit⟩ := hcheck.visit rfl tree of
  have hown : f.toExpr.serials.Nodup :=
    (List.nodup_flatMap.1 tree).1 f (Table.mem_values_of_get? of)
  obtain ⟨env, s₃, u, s₄, hpart⟩ :=
    hvisit.part ⟨refuse_within fun _ => False, fun _ _ => id, hown⟩ part rfl
  rw [hsession]
  exact hcheck.subject_marked rfl hown rfl (hcheck.reads rfl apart of) hpart some_clause

namespace Boxed

def box : Handle := ⟨1, "Box"⟩

def wrap : Ctor := { serial := 2, name := "wrap", inputs := [.scalar "int32"], owner := box }

def f : Global := ⟨⟨3, "f"⟩⟩

def x : Var := ⟨⟨4, "x"⟩, none⟩

def y : Var := ⟨⟨5, "y"⟩, none⟩

/-- The `match x { _ => 1 }`, of which alone nothing can be said of `x`. -/
def early : Expr :=
  .matchOn 6 (.var x) [(.wildcard 7, .constant 8 ⟨"int32", [], .int 1⟩)]

/-- The function `fn(x) { (early, match x { wrap(y) => y }) }`. -/
def bodyOfF : Function where
  node := 9
  params := [x]
  body := .tuple 10 [early, .matchOn 11 (.var x) [(.ctor 12 wrap [.var 13 y], .var y)]]

def module : Module where
  functions := ⟨[(f, bodyOfF)]⟩
  dataTypes := ⟨[(box, ⟨box, [], [wrap]⟩)]⟩
  ctors := ⟨[(wrap.serial, ⟨box, [], [wrap]⟩)]⟩

/-- The function `fn(x) { match x {} }`. -/
def vacuous : Module where
  functions := ⟨[(f, { node := 9, params := [x], body := .matchOn 6 (.var x) [] })]⟩

/-- Whether `x` is marked with a type parameter. -/
def generic (marks : Marks) : Bool :=
  match marks.type? x.serial with
  | some (.param _) => true
  | _ => false

theorem param_of_generic {marks : Marks} (h : generic marks = true) :
    ∃ p, marks.type? x.serial = some (.param p) := by
  unfold generic at h
  split at h
  · next p hp => exact ⟨p, hp⟩
  · cases h

end Boxed

/-- The type of `x` becomes known only after it has been matched on. -/
theorem matched_on_data_later :
    (Boxed.module.check (Operators.standard ⟨50⟩).1 .standard {}
        { supply := ⟨200⟩ }).outcome.toOption = some true ∧
      ∃ d ts, (Boxed.module.check (Operators.standard ⟨50⟩).1 .standard {}
        { supply := ⟨200⟩ }).session.marks.type? Boxed.x.serial = some (.data d ts) := by
  have htree : (Boxed.module.functions.values.flatMap fun f => f.toExpr.serials).Nodup := by
    decide +kernel
  have hapart : ∀ f ∈ Boxed.module.functions.values, ∀ n ∈ f.toExpr.serials,
      n ∉ symbols Boxed.module := by decide +kernel
  have hoption : (Boxed.module.check (Operators.standard ⟨50⟩).1 .standard {}
      { supply := ⟨200⟩ }).outcome.toOption = some true := by decide +kernel
  have hpart : Boxed.early ∈ Boxed.bodyOfF.toExpr.parts := by
    simp [Boxed.bodyOfF, Boxed.early, Function.toExpr, Expr.parts, Expr.partsList]
  have hof : Boxed.module.functions.get? Boxed.f = some Boxed.bodyOfF := rfl
  have hmark := matched_on_data htree hapart (eq_ok_of_toOption hoption) hof hpart
    (List.cons_ne_nil _ _)
  exact ⟨hoption, hmark⟩

/-- What is matched on without clauses comes out as a type parameter, and the module checks. -/
theorem matched_on_parameter :
    (Boxed.vacuous.check (Operators.standard ⟨50⟩).1 .standard {}
        { supply := ⟨200⟩ }).outcome.toOption = some true ∧
      ∃ p, (Boxed.vacuous.check (Operators.standard ⟨50⟩).1 .standard {}
        { supply := ⟨200⟩ }).session.marks.type? Boxed.x.serial = some (.param p) := by
  have hgeneric : Boxed.generic (Boxed.vacuous.check (Operators.standard ⟨50⟩).1 .standard {}
      { supply := ⟨200⟩ }).session.marks = true := by decide +kernel
  exact ⟨by decide +kernel, Boxed.param_of_generic hgeneric⟩

end Inference

end TensorTyping
