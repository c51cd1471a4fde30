import TensorTyping.Proofs.Inference.Accounting
import TensorTyping.Proofs.Relation.Conclusions
import TensorTyping.Proofs.Ty.Agreement

/-!
# What a declared signature promises

A fully annotated function may declare relations of its type parameters. Its body is then checked
under the assumption that they hold: an instance that the engine cannot decide is dropped if a
declared relation has its name and its slots. Suppose that the function stands alone in its group
and that its parameters are instantiated. An instance that the engine has discharged holds there,
because putting types in for parameters keeps a conclusion. One that was dropped holds wherever the
declared relation does, provided that the two are decided in the same way, and for this their
attributes have to be of the same effect. That is not looked at when the instance is dropped, so
without it a signature may promise less than its body needs.
-/
namespace TensorTyping

open List

namespace Ty

mutual
/-- A type without the relations of its function types. -/
def bare : Ty → Ty
  | .tensor s d => .tensor s d
  | .tuple ts => .tuple (bareList ts)
  | .func as r ps _ => .func (bareList as) r.bare ps []
  | .param p => .param p
  | .cell c => .cell c
  | .handle h => .handle h
  | .data h as => .data h (bareList as)
def bareList : List Ty → List Ty
  | [] => []
  | t :: ts => t.bare :: bareList ts
end

theorem bareList_eq_map (ts : List Ty) : bareList ts = ts.map bare := by
  induction ts with
  | nil => rfl
  | cons t ts ih => simp [bareList, ih]

theorem bare_replace (f : TypeParam → Ty) (g : Cell → Ty) (t : Ty) :
    (t.replace f g).bare = t.bare.replace (fun p => (f p).bare) fun c => (g c).bare := by
  induction t using induction_children with
  | step t ih =>
    cases t with
    | tensor | param | cell | handle => rfl
    | tuple ts => simpa [replace, bare, replaceList_eq_map, bareList_eq_map] using ih
    | data h as => simpa [replace, bare, replaceList_eq_map, bareList_eq_map] using ih
    | func as r ps rs =>
      have has : ∀ u ∈ as, (u.replace f g).bare =
          u.bare.replace (fun p => (f p).bare) fun c => (g c).bare :=
        fun u hu => ih u (by simp [hu])
      simpa [replace, bare, replaceList_eq_map, bareList_eq_map, replaceRelations,
        ih r (by simp [children])] using has

theorem bareList_eq_iff {ts us : List Ty} :
    bareList ts = bareList us ↔ List.Forall₂ (fun t u => t.bare = u.bare) ts us := by
  rw [bareList_eq_map, bareList_eq_map, ← forall₂_eq_eq_eq, forall₂_map_left_iff,
    forall₂_map_right_iff]

theorem bare_eq_of_same {t u : Ty} (h : t.same u = true) : t.bare = u.bare := by
  induction t using induction_children generalizing u with
  | step t ih =>
    have hparts := (parallel_of_same h).imp fun v hv w _ => ih v hv
    cases hparts <;> simp_all [same, bare, bareList_eq_iff]

theorem parallel_of_bare_eq {t u : Ty} (h : t.bare = u.bare) :
    Parallel (fun v w => v.bare = w.bare) t u := by
  cases t <;> cases u <;> simp_all [bare, parallel_iff, bareList_eq_iff, Shape.agree_self]

theorem agree_of_bare_eq {t u : Ty} (h : t.bare = u.bare) : t.agree u = true := by
  induction t using induction_children generalizing u with
  | step t ih => exact agree_iff.2 ((parallel_of_bare_eq h).imp fun v hv w _ => ih v hv)

end Ty

theorem Rule.sharpens_bare : Sharpens fun t u => t.bare = u.bare where
  tensor_self _ _ := rfl
  tensor {s d u} h := by cases u <;> simp_all [Ty.bare]
  tuple {ts u} h := by
    cases u <;> simp only [Ty.bare, Ty.tuple.injEq, reduceCtorEq] at h
    next us =>
    exact ⟨us, rfl, Ty.bareList_eq_iff.1 h⟩
  other {t u} h ht := by
    cases t <;> cases u <;> simp_all [Ty.bare, isOther]

namespace TypeRelation

variable {registry : Registry} {p r : TypeRelation}

/-- The relation holds of the types in its slots: its rule concludes a type, to which that in the
output slot is related. -/
def HoldsWith (registry : Registry) (related : Ty → Ty → Prop) (r : TypeRelation) : Prop :=
  ∃ entry slot t u, registry.table.get? r.name = some entry ∧
    entry.rule.verdict r.args r.attrs = .ok (.holds slot t) ∧ r.args[slot]? = some u ∧ related t u

instance (registry : Registry) (related : Ty → Ty → Prop) [∀ t u, Decidable (related t u)]
    (r : TypeRelation) : Decidable (r.HoldsWith registry related) :=
  match hentry : registry.table.get? r.name with
  | none => isFalse (by simp [HoldsWith, hentry])
  | some entry =>
    match hv : entry.rule.verdict r.args r.attrs with
    | .ok (.holds slot t) =>
      match hu : r.args[slot]? with
      | some u => decidable_of_iff (related t u) (by simp [HoldsWith, hentry, hv, hu])
      | none => isFalse (by simp [HoldsWith, hentry, hv, hu])
    | .ok .fails | .ok .indeterminate | .error _ => isFalse (by simp [HoldsWith, hentry, hv])

/-- Attributes that make no difference to the rule of a relation. -/
def SameEffect (registry : Registry) (name : String) (a b : Attrs) : Prop :=
  ∀ entry, registry.table.get? name = some entry →
    ∀ types, entry.rule.verdict types a = entry.rule.verdict types b

/-- A promise with the name and the slots of a relation, and with attributes of the same effect. -/
def Matches (registry : Registry) (p r : TypeRelation) : Prop :=
  p.name = r.name ∧ Ty.sameList p.args r.args = true ∧ SameEffect registry r.name p.attrs r.attrs

theorem HoldsWith.exact (h : r.HoldsWith registry fun t u => t.agree u = true)
    (hplain : ∀ a ∈ r.args, a.plain = true) : r.HoldsWith registry Eq := by
  obtain ⟨entry, slot, t, u, hentry, hv, hu, hagree⟩ := h
  have ht : t.plain = true :=
    Rule.conclude_plain hplain (Rule.verdict_eq_holds.1 hv).1
  exact ⟨entry, slot, t, u, hentry, hv, hu,
    Ty.eq_of_agree ht (hplain u (mem_of_getElem? hu)) hagree⟩

theorem HoldsWith.mapCells (h : r.HoldsWith registry fun t u => t.agree u = true) (f : Cell → Ty) :
    HoldsWith registry (fun t u => t.agree u = true)
      { r with args := r.args.map (Ty.mapCells f) } := by
  obtain ⟨entry, slot, t, u, hentry, hv, hu, hagree⟩ := h
  refine ⟨entry, slot, t.mapCells f, u.mapCells f, hentry, Rule.verdict_mapCells hv, ?_,
    Ty.agree_mapCells f hagree⟩
  rw [getElem?_map, hu, Option.map_some]

theorem Matches.holds (h : p.Matches registry r) {γ : Substitution}
    (hp : (γ.applyRelation p).HoldsWith registry fun t u => t.same u = true) :
    (γ.applyRelation r).HoldsWith registry fun t u => t.agree u = true := by
  obtain ⟨hname, hargs, heffect⟩ := h
  obtain ⟨entry, slot, t, u, hentry, hv, hu, hsame⟩ := hp
  replace hentry : registry.table.get? r.name = some entry := hname ▸ hentry
  replace hv : entry.rule.verdict (p.args.map γ.apply) r.attrs = .ok (.holds slot t) :=
    (heffect entry hentry _).symm.trans hv
  -- The slots are the same but for relations in function types.
  have hbare : List.Forall₂ (fun t u => Ty.bare t = Ty.bare u) p.args r.args :=
    (Ty.sameList_iff.1 hargs).imp fun _ _ => Ty.bare_eq_of_same
  have hslots : List.Forall₂ (fun t u => Ty.bare t = Ty.bare u) (p.args.map γ.apply)
      (r.args.map γ.apply) := by
    rw [forall₂_map_left_iff, forall₂_map_right_iff]
    refine hbare.imp fun t u htu => ?_
    simp only [Substitution.apply, Ty.bare_replace, htu]
  obtain ⟨t', hv', ht'⟩ := Rule.verdict_follows Rule.sharpens_bare hslots hv
  obtain ⟨hslot, rfl⟩ := List.getElem?_eq_some_iff.1 hu
  have hslot' : slot < (r.args.map γ.apply).length := hslots.length_eq ▸ hslot
  refine ⟨entry, slot, t', (r.args.map γ.apply)[slot], hentry, hv',
    getElem?_eq_getElem hslot', Ty.agree_of_bare_eq ?_⟩
  calc t'.bare = t.bare := ht'.symm
    _ = ((γ.applyRelation p).args[slot]).bare := Ty.bare_eq_of_same hsame
    _ = ((r.args.map γ.apply)[slot]).bare := hslots.get hslot hslot'

end TypeRelation

namespace Inference

open TypeRelation

variable {registry : Registry} {s s' : Store} {i : Instance}

theorem holds_of_satisfied (h : i.Satisfied registry s) (γ : Substitution) :
    (γ.applyRelation (resolvedIn s i)).HoldsWith registry fun t u => t.agree u = true := by
  obtain ⟨entry, slot, t, arg, hentry, -, hv, harg, hagree⟩ := h
  refine ⟨entry, slot, γ.apply t, γ.apply (s.resolve arg), Registry.lookup_eq_ok.1 hentry,
    Rule.verdict_replace γ.onParam γ.onCell hv, ?_, Ty.agree_replace γ.onParam γ.onCell hagree⟩
  simp [Substitution.applyRelation, resolvedIn, harg]

theorem holds_later (h : s.Extends s') {ps : List TypeParam} {ts : List Ty}
    (hts : ∀ t ∈ ts, t.cellOccurrences = [])
    (hi : ((Substitution.ofParams ps ts).applyRelation (resolvedIn s i)).HoldsWith registry
      fun t u => t.agree u = true) :
    ((Substitution.ofParams ps ts).applyRelation (resolvedIn s' i)).HoldsWith registry
      fun t u => t.agree u = true := by
  -- What the cells come to stand for is instantiated as well.
  let f : Cell → Ty := fun c => (Substitution.ofParams ps ts).apply (s'.value c)
  have hslot : ∀ t, (Substitution.ofParams ps ts).apply (s'.resolve t) =
      ((Substitution.ofParams ps ts).apply (s.resolve t)).mapCells f := by
    intro t
    rw [h.resolve_eq, Ty.mapCells, Substitution.apply, Substitution.apply, Ty.replace_replace,
      Ty.mapCells_replace]
    refine Ty.replace_congr (fun p => ?_) fun c _ => ?_
    · change (Substitution.ofParams ps ts).onParam p =
        ((Substitution.ofParams ps ts).onParam p).mapCells f
      rcases Substitution.onParam_ofParams ps ts p with hp | hp
      · rw [hp]
        rfl
      · exact (Ty.mapCells_closed (hts _ hp) f).symm
    · rw [Substitution.onCell_ofParams]
      rfl
  have hlater := hi.mapCells f
  simpa only [Substitution.applyRelation, resolvedIn, map_map, Function.comp_def, hslot]
    using hlater

namespace BodyRun

variable {Γ : Context} {session : Session} {g : Global}

/-- Some fully annotated function of the group promises the relation of an instance, with attributes
of the same effect. -/
def PromisesAlike (run : BodyRun Γ session g) (i : Instance) : Prop :=
  ∃ p ∈ promised Γ run.group, p.Matches Γ.registry (resolvedIn run.settled.store i)

section

variable {m : Module} {s' : State} (run : BodyRun Γ session g) (hΓ : Γ.groups = Γ.module.groups)
  (h : checkModule Γ (start session) = .ok m s')

include run hΓ h

theorem discharged_or_promised (hall : ∀ k ∈ run.group, Γ.declared? k ≠ none) {i : Instance}
    (hi : i ∈ run.generated) :
    Engine.Discharged Γ.registry i run.typed.engine run.settled ∨ run.promises i = true := by
  rw [run.discharged_iff hΓ h hi]
  cases hleft : (run.settled.instance? i.seq).isSome with
  | false => exact .inl rfl
  | true =>
    right
    obtain ⟨s, e, hcheck⟩ := checkModule_eq_ok hΓ h
    obtain ⟨hready, s₁, hrun, -⟩ := run.groupRun hΓ hcheck.solved
    obtain ⟨hbegun, hended, htyped, hspan⟩ := run.phases hΓ hready hrun.opened_eq
    have hvalid := htyped.valid (hended.valid hbegun)
    obtain ⟨hwaits, hcovers⟩ := (run.mem_generated (hended.valid hbegun) htyped).1 hi
    have hwaits := (Engine.isSome_instance?_iff hvalid
      (hrun.steps.advances hvalid).waiting_sublist hwaits).1 hleft
    have hlt := (hrun.chained.bounds.2 run.span hspan).1.trans_lt (covers_iff.1 hcovers).1
    -- An instance that is left over belongs to a function that declares no signature.
    by_contra hnot
    have hentailed : isEntailed Γ run.group run.reached.engine.added run.settled.store i = false := by
      rw [isEntailed, decide_eq_true hlt, Bool.true_and]
      exact Bool.eq_false_iff.2 hnot
    obtain ⟨span, hspan, hnone, -⟩ := hrun.closes.owned i hwaits hlt hentailed
    refine hall span.function ?_ hnone
    rw [← hrun.functions_eq]
    exact mem_map_of_mem hspan

theorem settled_evolves : run.settled.store.Evolves s'.engine.store := by
  obtain ⟨s, e, hcheck⟩ := checkModule_eq_ok hΓ h
  obtain ⟨-, s₁, hrun, -, hlater, -⟩ := run.groupRun hΓ hcheck.solved
  exact hrun.closes.evolves.trans (hlater.trans hcheck.evolves)

end

/-- A fully annotated function stands alone in its group, and the module checks. Every instance that
was added for its body has been discharged by the engine or is promised by one of the relations that
the function declares. Take any types without cells for its type parameters, such that there all
declared relations hold and conclude just what their output slots have. Then every instance that was
discharged holds, and so does every one that is promised with attributes of the same effect: its
rule, with the attributes that the instance was made with, concludes a type that agrees with its
output slot, and that is equal to it if there are no named sizes and no parameters or relations of
function types in the slots. -/
theorem promises_suffice (hΓ : Γ.groups = Γ.module.groups) {m : Module} {s' : State}
    (h : checkModule Γ (start session) = .ok m s') (hg : g ∈ Γ.module.functions.keys)
    {sig : Signature} (hd : Γ.declared? g = some sig) (halone : Γ.groupOf g = [g]) :
    Nonempty (BodyRun Γ session g) ∧ ∀ run : BodyRun Γ session g, ∀ i ∈ run.generated,
      (Engine.Discharged Γ.registry i run.typed.engine run.settled ∨ run.promises i = true) ∧
      ∀ ts : List Ty, (∀ t ∈ ts, t.cellOccurrences = []) →
        (∀ r ∈ sig.relations, ((Substitution.ofParams sig.params ts).applyRelation r).HoldsWith
          Γ.registry fun t u => t.same u = true) →
        Engine.Discharged Γ.registry i run.typed.engine run.settled ∨ run.PromisesAlike i →
        ∃ r, r = (Substitution.ofParams sig.params ts).applyRelation
            (resolvedIn s'.engine.store i) ∧
          (r.HoldsWith Γ.registry fun t u => t.agree u = true) ∧
          ((∀ a ∈ r.args, a.plain = true) → r.HoldsWith Γ.registry Eq) := by
  refine ⟨nonempty hΓ h hg, fun run i hi => ?_⟩
  have hgroup : run.group = [g] := by
    rw [← halone, (groupOf_eq hΓ run.groups_eq (by simp [run.group_eq])).2]
  have hpromised : promised Γ run.group = sig.relations := by
    simp [promised, hgroup, hd]
  refine ⟨run.discharged_or_promised hΓ h (by simp [hgroup, hd]) hi, ?_⟩
  intro ts hts hholds hcase
  have hlater := run.settled_evolves hΓ h
  have hagree : ((Substitution.ofParams sig.params ts).applyRelation
      (resolvedIn s'.engine.store i)).HoldsWith Γ.registry fun t u => t.agree u = true := by
    refine holds_later hlater.later hts ?_
    rcases hcase with hdischarged | ⟨p, hp, hmatches⟩
    · obtain ⟨hbegun, hended, htyped, -⟩ := run.engines hΓ h
      exact holds_of_satisfied (hdischarged.satisfied (htyped.valid (hended.valid hbegun))) _
    · exact hmatches.holds (hholds p (hpromised ▸ hp))
  exact ⟨_, rfl, hagree, hagree.exact⟩

end BodyRun

/-! ## A sum along some axis

The function `f` sums its argument along one axis and promises that its result is the sum along the
first. -/

namespace Summed

def a : TypeParam := ⟨⟨1, "a"⟩, .type⟩

def b : TypeParam := ⟨⟨2, "b"⟩, .type⟩

def f : Global := ⟨⟨3, "f"⟩⟩

/-- The body of `f` is `sum(x)` along the axis `k`. -/
def bodyOfF (k : Int) : Function where
  node := 4
  params := [⟨⟨5, "x"⟩, some (.param a)⟩]
  body := .call 6 (.op 7 "sum") [.var ⟨⟨5, "x"⟩, some (.param a)⟩] none (.ofList [("axis", .int k)])
  ret := some (.param b)
  typeParams := [a, b]
  relations := [⟨"Reduce", [.param a, .param b], 1, .ofList [("axis", .int 0)]⟩]

def module (k : Int) : Module where
  functions := ⟨[(f, bodyOfF k)]⟩

def context (k : Int) : Context where
  module := module k
  operators := (Operators.standard ⟨20⟩).1
  registry := .standard
  groups := (module k).groups

def session : Session := { supply := ⟨200⟩ }

/-- A matrix and the sum of its rows. -/
def types : List Ty := [.tensor [.known 2, .known 3] "float32", .tensor [.known 3] "float32"]

def opened (k : Int) : State := endState (openGroup (context k) [f]) (start session)

def solve (k : Int) : Global → InferM Unit := solveWithin (context k) (context k).groups.length

def ended (k : Int) : State :=
  endState (infer (context k) (solve k) (bodyOfF k).toExpr []) (opened k)

def typed (k : Int) : State := endState (typeBodies (context k) (solve k) [f]) (opened k)

def settled (k : Int) : Engine := endState (EngineM.propagate .standard) (typed k).engine

def generated (k : Int) : List Instance :=
  (ended k).engine.waiting.filter fun i => (opened k).engine.added < i.seq

/-- Whether the body of `f` is typed up to the point where nothing more can be decided. -/
def runs (k : Int) : Bool :=
  succeeds (openGroup (context k) [f]) (start session) &&
    succeeds (infer (context k) (solve k) (bodyOfF k).toExpr []) (opened k) &&
    succeeds (typeBodies (context k) (solve k) [f]) (opened k) &&
    succeeds (EngineM.propagate .standard) (typed k).engine

theorem run {k : Int} (hgroups : (context k).groups = [[f]]) (hruns : runs k = true) :
    ∃ run : BodyRun (context k) session f, run.group = [f] ∧ run.settled = settled k ∧
      run.generated = generated k := by
  simp only [runs, Bool.and_eq_true] at hruns
  obtain ⟨⟨⟨hopened, hended⟩, htyped⟩, hsettled⟩ := hruns
  obtain ⟨_, hopened⟩ : ∃ a, openGroup (context k) [f] (start session) = .ok a (opened k) :=
    succeeds_iff.1 hopened
  obtain ⟨type, hended⟩ :
      ∃ a, infer (context k) (solve k) (bodyOfF k).toExpr [] (opened k) = .ok a (ended k) :=
    succeeds_iff.1 hended
  obtain ⟨spans, htyped⟩ :
      ∃ a, typeBodies (context k) (solve k) [f] (opened k) = .ok a (typed k) :=
    succeeds_iff.1 htyped
  obtain ⟨_, hsettled⟩ :
      ∃ a, EngineM.propagate (context k).registry (typed k).engine = .ok a (settled k) :=
    succeeds_iff.1 hsettled
  -- From here on it matters only how the states are related.
  unfold generated
  generalize settled k = settled, typed k = typed, ended k = ended, opened k = opened at *
  exact ⟨{
    before := [], group := [f], after := [], groups_eq := hgroups
    earlier := [], later := [], group_eq := rfl
    body := bodyOfF k, body_eq := rfl
    reached := start session, opened, begun := opened, ended, typed, settled
    earlierSpans := [], spans, type
    reached_eq := rfl
    opened_eq := hopened
    begun_eq := rfl
    ended_eq := hended
    typed_eq := htyped
    settled_eq := hsettled }, rfl, rfl, rfl⟩

theorem checks {k : Int} (hk : succeeds (checkModule (context k)) (start session) = true) :
    ∃ m s', checkModule (context k) (start session) = .ok m s' ∧
      s' = endState (checkModule (context k)) (start session) := by
  obtain ⟨m, hm⟩ := succeeds_iff.1 hk
  exact ⟨m, _, hm, rfl⟩

/-- The promise holds of the matrix and the sum of its rows. -/
theorem promise_holds (k : Int) : ∀ r ∈ (bodyOfF k).relations,
    ((Substitution.ofParams [a, b] types).applyRelation r).HoldsWith .standard
      fun t u => t.same u = true := by
  rw [bodyOfF, forall_mem_singleton]
  decide +kernel

/-- Whether an instance is undecided and asks for the sum along the first axis. -/
def sumsRows (i : Instance) : Bool :=
  ((settled 0).instance? i.seq).isSome && i.relation.name == "Reduce" &&
    Ty.sameList [.param a, .param b] (i.relation.args.map (settled 0).store.resolve) &&
    match i.attrs.get? "axis", i.attrs.get? "keepdims" with
    | some (.int 0), some (.bool false) => true
    | _, _ => false

/-- Whether dimensions are kept makes no difference if they are not. -/
theorem sameEffect_of_sumsRows {i : Instance} (hi : sumsRows i = true) :
    SameEffect .standard "Reduce" (.ofList [("axis", .int 0)]) i.attrs := by
  intro entry hentry types
  obtain rfl : entry = ⟨.reduce, some 2⟩ := by
    have hfound : Registry.standard.table.get? "Reduce" = some ⟨.reduce, some 2⟩ := rfl
    exact Option.some.inj (hentry.symm.trans hfound)
  simp only [sumsRows, Bool.and_eq_true] at hi
  have hattrs := hi.2
  split at hattrs
  · next haxis hkeep =>
    simp only [Rule.verdict, Rule.conclude, haxis, hkeep]
    rfl
  · cases hattrs

end Summed

/-- The sum along the first axis is promised, and the promise suffices. -/
theorem promises_suffice_first_axis : ∃ m s',
    checkModule (Summed.context 0) (start Summed.session) = .ok m s' ∧
      ∃ run : BodyRun (Summed.context 0) Summed.session Summed.f, ∃ i ∈ run.generated,
        (run.settled.instance? i.seq).isSome = true ∧ run.PromisesAlike i ∧
          ((Substitution.ofParams [Summed.a, Summed.b] Summed.types).applyRelation
            (resolvedIn s'.engine.store i)).HoldsWith .standard fun t u => t.agree u = true := by
  obtain ⟨m, s', hm, -⟩ := Summed.checks (k := 0) (by decide +kernel)
  obtain ⟨run, hgroup, hsettled, hgenerated⟩ := Summed.run (k := 0) (by decide +kernel)
    (by decide +kernel)
  have hinstance : (Summed.generated 0).any Summed.sumsRows = true := by decide +kernel
  obtain ⟨i, hi, hsums⟩ := List.any_eq_true.1 hinstance
  rw [← hgenerated] at hi
  have heffect := Summed.sameEffect_of_sumsRows hsums
  simp only [Summed.sumsRows, Bool.and_eq_true, beq_iff_eq] at hsums
  obtain ⟨⟨⟨hleft, hname⟩, hargs⟩, -⟩ := hsums
  have halike : run.PromisesAlike i := by
    refine ⟨⟨"Reduce", [.param Summed.a, .param Summed.b], 1, .ofList [("axis", .int 0)]⟩, ?_, ?_⟩
    · rw [hgroup]
      exact List.mem_singleton_self _
    · refine ⟨hname.symm, hsettled ▸ hargs, ?_⟩
      change SameEffect .standard i.relation.name _ i.attrs
      exact hname ▸ heffect
  obtain ⟨-, hholds⟩ := (BodyRun.promises_suffice rfl hm (by decide +kernel) rfl
    (by decide +kernel)).2 run i hi
  obtain ⟨_, rfl, hagree, -⟩ := hholds Summed.types (by decide +kernel) (Summed.promise_holds 0)
    (.inr halike)
  exact ⟨m, s', hm, run, i, hi, hsettled ▸ hleft, halike, hagree⟩

/-- The body sums along the second axis, which the promise of the sum along the first does not
entail: of a matrix with two rows of three, the promise holds if the result has three entries, but
the body returns two. -/
theorem promise_of_other_axis : ∃ m s' sig,
    checkModule (Summed.context 1) (start Summed.session) = .ok m s' ∧
      (Summed.context 1).declared? Summed.f = some sig ∧
      (Summed.context 1).groupOf Summed.f = [Summed.f] ∧
      (∀ r ∈ sig.relations,
        ((Substitution.ofParams sig.params Summed.types).applyRelation r).HoldsWith .standard
          fun t u => t.same u = true) ∧
      ∃ run : BodyRun (Summed.context 1) Summed.session Summed.f, ∃ i ∈ run.generated,
        ¬ ((Substitution.ofParams sig.params Summed.types).applyRelation
          (resolvedIn s'.engine.store i)).HoldsWith .standard fun t u => t.agree u = true := by
  obtain ⟨m, s', hm, hs'⟩ := Summed.checks (k := 1) (by decide +kernel)
  obtain ⟨run, -, -, hgenerated⟩ := Summed.run (k := 1) (by decide +kernel) (by decide +kernel)
  refine ⟨m, s', _, hm, rfl, by decide +kernel, Summed.promise_holds 1, run, ?_⟩
  rw [hgenerated, hs']
  decide +kernel

end Inference

end TensorTyping
