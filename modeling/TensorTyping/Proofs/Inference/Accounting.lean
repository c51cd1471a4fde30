import TensorTyping.Proofs.Inference.Runs

/-!
# What becomes of the relations of a body

Typing the body of a function adds relation instances. When the function declares no signature and
the module checks, each of them has either been discharged, because its rule held, or been dropped,
because a fully annotated function of the same group promises it, or stands in the signature that
is recorded: behind the relations written on the function and with its final slots and its own
attributes.

A relation that is dropped is lost, since it is promised by another function and the signature of
this one does not demand it.
-/
namespace TensorTyping.Inference

open List

/-- How the body of the function `g` is typed when a module is checked. The groups before its own
are typed, its own is opened, the bodies before it are typed, and then its own is. After the bodies
of the whole group the engine decides what it can. -/
structure BodyRun (Γ : Context) (session : Session) (g : Global) where
  before : List (List Global)
  group : List Global
  after : List (List Global)
  groups_eq : Γ.groups = before ++ group :: after
  earlier : List Global
  later : List Global
  group_eq : group = earlier ++ g :: later
  body : Function
  body_eq : Γ.module.functions.get? g = some body
  reached : State
  opened : State
  begun : State
  ended : State
  typed : State
  settled : Engine
  earlierSpans : List Span
  spans : List Span
  type : Ty
  reached_eq : solveGroups Γ before (start session) = .ok () reached
  opened_eq : openGroup Γ group reached = .ok () opened
  begun_eq : typeBodies Γ (solveWithin Γ Γ.groups.length) earlier opened = .ok earlierSpans begun
  ended_eq : infer Γ (solveWithin Γ Γ.groups.length) body.toExpr [] begun = .ok type ended
  typed_eq : typeBodies Γ (solveWithin Γ Γ.groups.length) group opened = .ok spans typed
  settled_eq : EngineM.propagate Γ.registry typed.engine = .ok () settled

namespace BodyRun

variable {Γ : Context} {session : Session} {g : Global}
variable {m : Module} {s' : State} {i : Instance}

def span (run : BodyRun Γ session g) : Span :=
  ⟨g, run.begun.engine.added, run.ended.engine.added⟩

def generated (run : BodyRun Γ session g) : List Instance :=
  run.ended.engine.waiting.filter fun i => run.begun.engine.added < i.seq

/-- Whether a fully annotated function of the group promises the relation of an instance, by its
name and its slots as they are when the engine has decided what it can. -/
def promises (run : BodyRun Γ session g) (i : Instance) : Bool :=
  isPromised (promised Γ run.group) (resolvedIn run.settled.store i)

/-- The instances added while the body was typed that the engine has not decided and no fully
annotated function of the group promises. -/
def kept (run : BodyRun Γ session g) : List Instance :=
  run.generated.filter fun i => (run.settled.instance? i.seq).isSome && !run.promises i

theorem of_solved (hΓ : Γ.groups = Γ.module.groups)
    (hsolve : solveGroups Γ Γ.groups (start session) = .ok () s')
    (hg : g ∈ Γ.module.functions.keys) : Nonempty (BodyRun Γ session g) := by
  -- The place of the function in the groups.
  have hflat : g ∈ Γ.groups.flatten := by
    rw [hΓ]
    exact (Module.groups_spec Γ.module).2.2.1 g hg
  obtain ⟨group, hgroup, hmem⟩ := mem_flatten.1 hflat
  obtain ⟨before, after, hgroups⟩ := append_of_mem hgroup
  obtain ⟨earlier, later, hmembers⟩ := append_of_mem hmem
  -- The states on the way to its body and beyond.
  rw [hgroups] at hsolve
  obtain ⟨reached, hreached, hready, hrest⟩ :=
    solveGroups_append hΓ hgroups (start_ready session) hsolve
  rw [nil_append] at hready
  obtain ⟨s₁, opened, typed, spans, settled, -, hrun, -⟩ :=
    solveGroups_cons_eq_ok hΓ hgroups hready hrest
  have hbodies := hrun.bodies
  rw [hmembers] at hbodies
  obtain ⟨first, begun, last, hfirst, hlast, -⟩ := typeBodies_append hbodies
  obtain ⟨span, s₂, rest, hbody, -, -⟩ := typeBodies_cons hlast
  obtain ⟨f, t, ended, hf, hinfer, -, -⟩ := typeBody_eq_ok hbody
  exact ⟨{
    before, group, after, groups_eq := hgroups
    earlier, later, group_eq := hmembers
    body := f, body_eq := hf
    reached, opened, begun, ended, typed, settled
    earlierSpans := first, spans, type := t
    reached_eq := hreached
    opened_eq := hrun.opens
    begun_eq := hfirst
    ended_eq := hinfer
    typed_eq := hrun.bodies
    settled_eq := hrun.closes.propagated }⟩

theorem nonempty (hΓ : Γ.groups = Γ.module.groups) (h : checkModule Γ (start session) = .ok m s')
    (hg : g ∈ Γ.module.functions.keys) : Nonempty (BodyRun Γ session g) := by
  obtain ⟨s, e, hcheck⟩ := checkModule_eq_ok hΓ h
  exact of_solved hΓ hcheck.solved hg

section

variable (run : BodyRun Γ session g)

include run

/-- The group of the function is typed in the states of the run. The groups after it follow and
leave its signatures as they are. -/
theorem groupRun (hΓ : Γ.groups = Γ.module.groups) {s : State}
    (hsolve : solveGroups Γ Γ.groups (start session) = .ok () s) :
    Ready run.before run.reached ∧ ∃ s₁,
      GroupRun Γ (solveWithin Γ Γ.groups.length) run.group run.reached run.opened run.typed
        run.spans run.settled s₁ ∧
      solveGroups Γ run.after s₁ = .ok () s ∧ s₁.engine.store.Evolves s.engine.store ∧
      ∀ k ∈ run.before.flatten ++ run.group, s.schemes.get? k = s₁.schemes.get? k := by
  have hgroups := run.groups_eq
  rw [hgroups] at hsolve
  obtain ⟨reached, hreached, hready, hrest⟩ :=
    solveGroups_append hΓ hgroups (start_ready session) hsolve
  obtain rfl : reached = run.reached := by simpa [run.reached_eq] using hreached.symm
  rw [nil_append] at hready
  refine ⟨hready, ?_⟩
  obtain ⟨s₁, opened, typed, spans, settled, -, hrun, hlast⟩ :=
    solveGroups_cons_eq_ok hΓ hgroups hready hrest
  -- Each phase has one result only.
  obtain rfl : opened = run.opened := by simpa [run.opened_eq] using hrun.opens.symm
  obtain ⟨rfl, rfl⟩ : spans = run.spans ∧ typed = run.typed := by
    simpa [run.typed_eq, eq_comm] using hrun.bodies
  obtain rfl : settled = run.settled := by
    simpa [run.settled_eq] using hrun.closes.propagated.symm
  have hsplit : Γ.groups = (run.before ++ [run.group]) ++ (run.after ++ []) := by
    simpa using hgroups
  obtain ⟨-, hevolves, hschemes⟩ := solveGroups_ready hΓ hsplit (hrun.ready hready) hlast
  exact ⟨s₁, hrun, hlast, hevolves, fun k hk => hschemes k (by simpa using hk)⟩

theorem bodies :
    ∃ span s₁ rest, typeBody Γ (solveWithin Γ Γ.groups.length) g run.begun = .ok span s₁ ∧
      typeBodies Γ (solveWithin Γ Γ.groups.length) run.later s₁ = .ok rest run.typed ∧
      run.spans = run.earlierSpans ++ span :: rest := by
  have hbodies := run.typed_eq
  rw [run.group_eq] at hbodies
  obtain ⟨first, begun, last, hfirst, hlast, hspans⟩ := typeBodies_append hbodies
  obtain ⟨rfl, rfl⟩ : first = run.earlierSpans ∧ begun = run.begun := by
    simpa [run.begun_eq, eq_comm] using hfirst
  obtain ⟨span, s₁, rest, hbody, hmore, rfl⟩ := typeBodies_cons hlast
  exact ⟨span, s₁, rest, hbody, hmore, hspans⟩

theorem known (hΓ : Γ.groups = Γ.module.groups) (hready : Ready run.before run.reached)
    (hopens : Opens Γ run.group run.reached run.opened) :
    run.begun.engine.Valid ∧ ∀ k ∈ g :: run.later, ∀ f, Γ.module.functions.get? k = some f →
      ∀ r ∈ f.body.mentions, Known Γ run.begun r := by
  have hknown : ∀ k ∈ run.group, ∀ f, Γ.module.functions.get? k = some f →
      ∀ r ∈ f.body.mentions, Known Γ run.opened r :=
    fun k hk f hf r hr => hready.known (hΓ ▸ run.groups_eq) hopens hk hf hr
  rw [run.group_eq] at hknown
  have hvalid := hopens.rests.valid hready.valid
  obtain ⟨hbegun, -, -⟩ := typeBodies_grows hvalid
    (fun k hk => hknown k (mem_append_left _ hk)) run.begun_eq
  exact ⟨hbegun.valid hvalid, fun k hk f hf r hr =>
    hbegun.known (hknown k (mem_append_right _ hk) f hf r hr)⟩

theorem joins {span : Span} {s₁ : State}
    (h : typeBody Γ (solveWithin Γ Γ.groups.length) g run.begun = .ok span s₁)
    (hended : run.ended.engine.store.Valid) :
    span = run.span ∧ run.ended.engine.Rests s₁.engine ∧
      s₁ = { run.ended with engine := s₁.engine } := by
  obtain ⟨f, t, ended, hf, hinfer, rfl, hjoin⟩ := typeBody_eq_ok h
  obtain rfl : f = run.body := by simpa [run.body_eq] using hf.symm
  obtain ⟨rfl, rfl⟩ : t = run.type ∧ ended = run.ended := by
    simpa [run.ended_eq, eq_comm] using hinfer
  exact ⟨rfl, hjoin hended⟩

theorem phases (hΓ : Γ.groups = Γ.module.groups) (hready : Ready run.before run.reached)
    (hopens : Opens Γ run.group run.reached run.opened) :
    run.begun.engine.Valid ∧ Grows run.begun run.ended ∧ Grows run.ended run.typed ∧
      run.span ∈ run.spans := by
  obtain ⟨hvalid, hknown⟩ := run.known hΓ hready hopens
  obtain ⟨span, s₁, rest, hbody, hmore, hspans⟩ := run.bodies
  have hmentions : ∀ r ∈ run.body.toExpr.mentions, Known Γ run.begun r :=
    hknown g (.head _) _ run.body_eq
  have hended : Grows run.begun (endState (infer Γ (solveWithin Γ Γ.groups.length)
      run.body.toExpr []) run.begun) := infer_grows hvalid hmentions []
  rw [endState_of_ok run.ended_eq] at hended
  have hvalid' := hended.valid hvalid
  obtain ⟨rfl, hrests, hstate⟩ := run.joins hbody hvalid'.store
  have hjoined : Grows run.ended s₁ := by
    rw [hstate]
    exact .of_engine (.of_rests hrests)
  obtain ⟨htyped, -, -⟩ := typeBodies_grows (hjoined.valid hvalid')
    (fun k hk f hf r hr => (hended.trans hjoined).known
      (hknown k (.tail _ hk) f hf r hr)) hmore
  refine ⟨hvalid, hended, hjoined.trans htyped, ?_⟩
  rw [hspans]
  exact mem_append_right _ (.head _)

theorem numbers_generated (hbegun : run.begun.engine.Valid) (hended : Grows run.begun run.ended) :
    run.generated.map Instance.seq = List.range' (run.begun.engine.added + 1)
      (run.ended.engine.added - run.begun.engine.added) := by
  obtain ⟨new, hnew⟩ := hended.gains
  have hold : run.begun.engine.waiting.filter (fun i => run.begun.engine.added < i.seq) = [] := by
    rw [filter_eq_nil_iff]
    intro i hi
    have := hbegun.bounded i hi
    simpa using this
  have hall : new.filter (fun i => run.begun.engine.added < i.seq) = new := by
    rw [filter_eq_self]
    intro i hi
    simpa using (hnew.seq_mem hi).1
  rw [generated, hnew.waiting_eq, filter_append, hold, hall, nil_append, hnew.numbers,
    hnew.added_eq, Nat.add_sub_cancel_left]

theorem mem_generated (hended : run.ended.engine.Valid) (htyped : Grows run.ended run.typed) :
    i ∈ run.generated ↔ i ∈ run.typed.engine.waiting ∧ run.span.covers i = true := by
  obtain ⟨new, hnew⟩ := htyped.gains
  rw [generated, mem_filter, decide_eq_true_eq, covers_iff, hnew.waiting_eq, mem_append]
  constructor
  · rintro ⟨hi, hlt⟩
    exact ⟨.inl hi, hlt, hended.bounded i hi⟩
  · rintro ⟨hi | hi, hlt, hle⟩
    · exact ⟨hi, hlt⟩
    · exact absurd hle (Nat.not_le_of_gt (hnew.seq_mem hi).1)

theorem kept_eq (hended : run.ended.engine.Valid) (htyped : Grows run.ended run.typed) {mark : Nat}
    (hmark : mark ≤ run.begun.engine.added)
    (hsub : run.settled.waiting.Sublist run.typed.engine.waiting) :
    run.kept = run.settled.waiting.filter fun i =>
      run.span.covers i && !isEntailed Γ run.group mark run.settled.store i := by
  have hvalid := htyped.valid hended
  have hentailed : ∀ i, run.span.covers i = true →
      isEntailed Γ run.group mark run.settled.store i = run.promises i := by
    intro i hi
    have hlt : decide (mark < i.seq) = true :=
      decide_eq_true (hmark.trans_lt (covers_iff.1 hi).1)
    rw [isEntailed, hlt, Bool.true_and, promises]
  refine Engine.eq_of_mem_iff ?_ ?_ fun i => ?_
  · refine hended.ordered.sublist (List.Sublist.map _ ?_)
    exact filter_sublist.trans filter_sublist
  · exact hvalid.ordered.sublist ((filter_sublist.trans hsub).map _)
  · simp only [kept, mem_filter, run.mem_generated hended htyped, Bool.and_eq_true]
    constructor
    · rintro ⟨⟨hi, hcovers⟩, hsome, hnot⟩
      rw [hentailed i hcovers]
      exact ⟨(Engine.isSome_instance?_iff hvalid hsub hi).1 hsome, hcovers, hnot⟩
    · rintro ⟨hi, hcovers, hnot⟩
      rw [hentailed i hcovers] at hnot
      have hi' := hsub.subset hi
      exact ⟨⟨hi', hcovers⟩, (Engine.isSome_instance?_iff hvalid hsub hi').2 hi, hnot⟩

omit run in
/-- What is recorded of a body holds no cells, so that it is the same in all later stores. -/
theorem resolvedIn_final {s s' : Store} (h : s.Extends s')
    (hi : ∀ t ∈ i.relation.args, (s.resolve t).cellOccurrences = []) :
    resolvedIn s' i = resolvedIn s i := by
  have hargs : i.relation.args.map s'.resolve = i.relation.args.map s.resolve := by
    refine map_congr_left fun t ht => ?_
    rw [h.resolve_eq, Ty.mapCells_eq_self]
    rw [hi t ht]
    exact forall_mem_nil _
  simp only [resolvedIn, hargs]

section

variable (hΓ : Γ.groups = Γ.module.groups) (h : checkModule Γ (start session) = .ok m s')

include hΓ h

/-- The relations of the signature that is recorded for a function that declares none. -/
theorem relations_eq (hg : g ∈ Γ.module.functions.keys) (hd : Γ.declared? g = none) :
    ∃ sig, m.signature? g = some sig ∧
      sig.relations = run.body.relations ++ run.kept.map (resolvedIn s'.engine.store) := by
  obtain ⟨s, e, hcheck⟩ := checkModule_eq_ok hΓ h
  obtain ⟨hready, s₁, hrun, -, hlater, hschemes⟩ := run.groupRun hΓ hcheck.solved
  obtain ⟨hbegun, hended, htyped, hspan⟩ := run.phases hΓ hready hrun.opened_eq
  have hvalid := hrun.valid_typed hready.valid
  have hsub := (hrun.steps.advances hvalid).waiting_sublist
  have hmark := (hrun.chained.bounds.2 run.span hspan).1
  have hkept := run.kept_eq (hended.valid hbegun) htyped hmark hsub
  obtain ⟨-, -, ⟨f, sig, hf, hget, -, hrelations, -⟩, -⟩ :=
    hrun.closes.recorded run.span hspan hd
  obtain rfl : f = run.body := Option.some.inj (hf.symm.trans run.body_eq)
  refine ⟨sig, ?_, ?_⟩
  · rw [hcheck.signatures g hg, hschemes g (by simp [run.group_eq])]
    exact hget
  · rw [hrelations, ← hkept]
    congr 1
    refine map_congr_left fun i hi => ?_
    rw [hkept, mem_filter, Bool.and_eq_true, Bool.not_eq_true'] at hi
    obtain ⟨hwaits, hcovers, hnot⟩ := hi
    exact (resolvedIn_final (hlater.trans hcheck.evolves).later
      (hrun.closes.complete run.span hspan hd i hwaits hcovers hnot)).symm

theorem engines :
    run.begun.engine.Valid ∧ Grows run.begun run.ended ∧ Grows run.ended run.typed ∧
      Engine.Steps Γ.registry run.typed.engine run.settled := by
  obtain ⟨s, e, hcheck⟩ := checkModule_eq_ok hΓ h
  obtain ⟨hready, s₁, hrun, -⟩ := run.groupRun hΓ hcheck.solved
  obtain ⟨hbegun, hended, htyped, -⟩ := run.phases hΓ hready hrun.opened_eq
  exact ⟨hbegun, hended, htyped, hrun.steps⟩

/-- The instances of the body that are discharged are those that are gone when the engine has
decided what it can. -/
theorem discharged_iff (hi : i ∈ run.generated) :
    Engine.Discharged Γ.registry i run.typed.engine run.settled ↔
      (run.settled.instance? i.seq).isSome = false := by
  obtain ⟨hbegun, hended, htyped, hsteps⟩ := run.engines hΓ h
  have hvalid := htyped.valid (hended.valid hbegun)
  have hwaits := ((run.mem_generated (hended.valid hbegun) htyped).1 hi).1
  have hleft := Engine.isSome_instance?_iff hvalid (hsteps.advances hvalid).waiting_sublist hwaits
  rw [Bool.eq_false_iff, ne_eq, hleft]
  constructor
  · intro hdischarged
    exact hdischarged.not_mem_waiting hvalid
  · intro hgone
    exact (hsteps.mem_waiting hvalid hwaits).resolve_left hgone

end

end

/-- Every instance added for the body of a function that declares no signature is accounted for,
when the module checks. It has been discharged by a step of the engine because its rule held; or a
fully annotated function of the group promises its relation; or the signature that is recorded for
the function contains it, with its name, its final slots and its attributes. Behind the relations
written on the function the signature carries just the instances that were neither discharged nor
promised. -/
theorem relations_accounted (hΓ : Γ.groups = Γ.module.groups) {m : Module} {s' : State}
    (h : checkModule Γ (start session) = .ok m s') (hg : g ∈ Γ.module.functions.keys)
    (hd : Γ.declared? g = none) :
    Nonempty (BodyRun Γ session g) ∧
      ∀ run : BodyRun Γ session g, ∃ sig, m.signature? g = some sig ∧
        run.generated.map Instance.seq = List.range' (run.begun.engine.added + 1)
          (run.ended.engine.added - run.begun.engine.added) ∧
        sig.relations = run.body.relations ++ run.kept.map (resolvedIn s'.engine.store) ∧
        ∀ i ∈ run.generated,
          Engine.Discharged Γ.registry i run.typed.engine run.settled ∨
            run.promises i = true ∨ resolvedIn s'.engine.store i ∈ sig.relations := by
  refine ⟨nonempty hΓ h hg, fun run => ?_⟩
  obtain ⟨sig, hsig, hrelations⟩ := run.relations_eq hΓ h hg hd
  obtain ⟨hbegun, hended, -, -⟩ := run.engines hΓ h
  refine ⟨sig, hsig, run.numbers_generated hbegun hended, hrelations, fun i hi => ?_⟩
  rw [run.discharged_iff hΓ h hi]
  cases hleft : (run.settled.instance? i.seq).isSome with
  | false => exact .inl rfl
  | true =>
    cases hpromised : run.promises i with
    | true => exact .inr (.inl rfl)
    | false =>
      have hkept : i ∈ run.kept := List.mem_filter.2 ⟨hi, by simp [hleft, hpromised]⟩
      rw [hrelations]
      exact .inr (.inr (List.mem_append_right _ (List.mem_map_of_mem hkept)))

end BodyRun

/-! ## Functions that call one another

The function `f` is fully annotated and promises a relation of its type parameter. It calls `g`,
which declares nothing and needs this relation twice. The function `h` stands alone. -/

namespace Crossed

def T : TypeParam := ⟨⟨1, "T"⟩, .type⟩

def f : Global := ⟨⟨2, "f"⟩⟩

def g : Global := ⟨⟨3, "g"⟩⟩

def h : Global := ⟨⟨4, "h"⟩⟩

/-- The body of `f` is `g(x)`. -/
def bodyOfF : Function where
  node := 5
  params := [⟨⟨6, "x"⟩, some (.param T)⟩]
  body := .call 7 (.global g) [.var ⟨⟨6, "x"⟩, some (.param T)⟩] none .empty
  ret := some (.param T)
  typeParams := [T]
  relations := [⟨"Broadcast", [.param T, .param T, .param T], 2, .empty⟩]

/-- The body of `g` is `add(f(y), y)`. -/
def bodyOfG : Function where
  node := 8
  params := [⟨⟨9, "y"⟩, none⟩]
  body := .call 10 (.op 11 "add")
    [.call 12 (.global f) [.var ⟨⟨9, "y"⟩, none⟩] none .empty, .var ⟨⟨9, "y"⟩, none⟩] none .empty

/-- The body of `h` is `add(z, z)`. -/
def bodyOfH : Function where
  node := 13
  params := [⟨⟨14, "z"⟩, none⟩]
  body := .call 15 (.op 16 "add") [.var ⟨⟨14, "z"⟩, none⟩, .var ⟨⟨14, "z"⟩, none⟩] none .empty

def module : Module where
  functions := ⟨[(f, bodyOfF), (g, bodyOfG), (h, bodyOfH)]⟩

def context : Context where
  module := module
  operators := (Operators.standard ⟨20⟩).1
  registry := .standard
  groups := module.groups

def session : Session := { supply := ⟨200⟩ }

/-- The names of the relations in the signature that is recorded for a function. -/
def recorded (k : Global) : Option (List String) :=
  match checkModule context (start session) with
  | .ok m _ => (m.signature? k).map fun sig => sig.relations.map Relation.name
  | .error _ _ => none

theorem checks : ∃ m s', checkModule context (start session) = .ok m s' ∧
    ∀ k, recorded k = (m.signature? k).map fun sig => sig.relations.map Relation.name := by
  have hok : succeeds (checkModule context) (start session) = true := by decide +kernel
  unfold succeeds at hok
  unfold recorded
  generalize checkModule context (start session) = result at hok ⊢
  cases result with
  | ok m s' => exact ⟨m, s', rfl, fun _ => rfl⟩
  | error fault s' => cases hok

/-- Typing the body of `g` adds an instance that the engine cannot decide. -/
theorem run : ∃ run : BodyRun context session g,
    run.generated.any (fun i => (run.settled.instance? i.seq).isSome) = true := by
  let solve := solveWithin context context.groups.length
  let opened := endState (openGroup context [f, g]) (start session)
  let begun := endState (typeBodies context solve [f]) opened
  let ended := endState (infer context solve bodyOfG.toExpr []) begun
  let typed := endState (typeBodies context solve [f, g]) opened
  let settled := endState (EngineM.propagate context.registry) typed.engine
  obtain ⟨_, hopened⟩ : ∃ a, openGroup context [f, g] (start session) = .ok a opened :=
    succeeds_iff.1 (by decide +kernel)
  obtain ⟨earlierSpans, hbegun⟩ : ∃ a, typeBodies context solve [f] opened = .ok a begun :=
    succeeds_iff.1 (by decide +kernel)
  obtain ⟨type, hended⟩ : ∃ a, infer context solve bodyOfG.toExpr [] begun = .ok a ended :=
    succeeds_iff.1 (by decide +kernel)
  obtain ⟨spans, htyped⟩ : ∃ a, typeBodies context solve [f, g] opened = .ok a typed :=
    succeeds_iff.1 (by decide +kernel)
  obtain ⟨_, hsettled⟩ :
      ∃ a, EngineM.propagate context.registry typed.engine = .ok a settled :=
    succeeds_iff.1 (by decide +kernel)
  have hleft : (ended.engine.waiting.filter fun i => begun.engine.added < i.seq).any
      (fun i => (settled.instance? i.seq).isSome) = true := by decide +kernel
  -- From here on it matters only how the states are related.
  clear_value settled typed ended begun opened
  exact ⟨{
    before := [], group := [f, g], after := [[h]], groups_eq := by decide +kernel
    earlier := [f], later := [], group_eq := rfl
    body := bodyOfG, body_eq := rfl
    reached := start session, opened, begun, ended, typed, settled
    earlierSpans, spans, type
    reached_eq := rfl
    opened_eq := hopened
    begun_eq := hbegun
    ended_eq := hended
    typed_eq := htyped
    settled_eq := hsettled }, hleft⟩

end Crossed

/-- The relation that `h` needs is recorded. -/
theorem relations_accounted_alone : ∃ m s',
    checkModule Crossed.context (start Crossed.session) = .ok m s' ∧
      Crossed.recorded Crossed.h = some ["Broadcast"] ∧
      ∀ run : BodyRun Crossed.context Crossed.session Crossed.h,
        ∃ sig, m.signature? Crossed.h = some sig ∧
          ∀ i ∈ run.generated,
            Engine.Discharged Crossed.context.registry i run.typed.engine run.settled ∨
              run.promises i = true ∨ resolvedIn s'.engine.store i ∈ sig.relations := by
  obtain ⟨m, s', hm, -⟩ := Crossed.checks
  refine ⟨m, s', hm, by decide +kernel, fun run => ?_⟩
  obtain ⟨sig, hsig, -, -, haccounted⟩ :=
    (BodyRun.relations_accounted rfl hm (by decide +kernel) rfl).2 run
  exact ⟨sig, hsig, haccounted⟩

/-- The relations that `g` needs are lost, because `f` promises them: none is recorded, and yet the
engine has not discharged all of them. -/
theorem relation_lost_to_caller : ∃ m s' sig,
    checkModule Crossed.context (start Crossed.session) = .ok m s' ∧
      Crossed.context.declared? Crossed.g = none ∧ m.signature? Crossed.g = some sig ∧
      ∃ run : BodyRun Crossed.context Crossed.session Crossed.g, ∃ i ∈ run.generated,
        ¬ Engine.Discharged Crossed.context.registry i run.typed.engine run.settled ∧
          resolvedIn s'.engine.store i ∉ sig.relations := by
  obtain ⟨m, s', hm, hrecorded⟩ := Crossed.checks
  have hnone : Crossed.recorded Crossed.g = some [] := by decide +kernel
  rw [hrecorded] at hnone
  obtain ⟨sig, hsig, hempty⟩ := Option.map_eq_some_iff.1 hnone
  rw [List.map_eq_nil_iff] at hempty
  obtain ⟨run, hleft⟩ := Crossed.run
  obtain ⟨i, hi, hsome⟩ := List.any_eq_true.1 hleft
  refine ⟨m, s', sig, hm, rfl, hsig, run, i, hi, ?_, ?_⟩
  · rw [run.discharged_iff rfl hm hi, hsome]
    exact Bool.true_eq_false_eq_False
  · rw [hempty]
    exact List.not_mem_nil

end TensorTyping.Inference
