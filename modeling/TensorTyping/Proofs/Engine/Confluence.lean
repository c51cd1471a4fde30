import TensorTyping.Proofs.Engine.Wakeups
import TensorTyping.Proofs.Relation.Conclusions
import TensorTyping.Proofs.Store.Renaming

/-!
# The order of relations makes no difference

Uses of relations are added to an engine in some order, and then propagated. Suppose that this ends,
and let `g` give every cell its value at the end. Every use is answered by `g`: its rule holds of the
slots with the conclusion that its output has, or cannot tell. Whatever another order tries on the
way, it tries with no more knowledge than `g` has. A rule that has decided stays with its decision,
so one that refuses would do so at the end of the first run as well, and a conclusion is one that `g`
satisfies, so that the unification goes through and keeps to `g`. Hence the other order ends, and
with types of which those of the first are instances. As the same holds the other way round, both
say the same.

Types are plain throughout: for these, slots that agree are equal.
-/
namespace TensorTyping

open List

variable {t : Ty} {u : RelationUse}

structure RelationUse where
  relation : TypeRelation
  origin : Option Phrase
  attrs : Attrs

namespace RelationUse

/-- The use with the attributes that count: its own over those of the relation. -/
def effective (u : RelationUse) : RelationUse :=
  { u with attrs := u.relation.attrs.merge u.attrs }

/-- The relation is known, the use gives it as many slots as it takes, and all are plain types of
the store. -/
structure Fits (registry : Registry) (s : Store) (u : RelationUse) : Prop where
  known : ∃ entry, registry.lookup u.relation.name u.origin = .ok entry ∧
    ∀ n, entry.arity = some n → n = u.relation.args.length
  owned : ∀ a ∈ u.relation.args, s.ownsAll a = true
  plain : ∀ a ∈ u.relation.args, a.plain = true

/-- Under the substitution the rule of the use cannot tell, or holds with a conclusion that its
output slot is equal to. -/
def Answered (registry : Registry) (g : Cell → Ty) (u : RelationUse) : Prop :=
  ∃ entry v, registry.lookup u.relation.name u.origin = .ok entry ∧
    entry.rule.verdict (u.relation.args.map (Ty.mapCells g)) u.attrs = .ok v ∧
    (v = .indeterminate ∨
      ∃ slot arg, u.relation.args[slot]? = some arg ∧ v = .holds slot (arg.mapCells g))

def Undetermined (registry : Registry) (s : Store) (u : RelationUse) : Prop :=
  ∃ entry, registry.lookup u.relation.name u.origin = .ok entry ∧
    entry.rule.verdict (u.relation.args.map s.resolve) u.attrs = .ok .indeterminate

theorem Undetermined.of_models {registry : Registry} {s s' : Store} (h : u.Undetermined registry s')
    (hmodels : s.Models s'.value) : u.Undetermined registry s := by
  obtain ⟨entry, hentry, hv⟩ := h
  have hslots : u.relation.args.map s'.resolve =
      (u.relation.args.map s.resolve).map (Ty.mapCells s'.value) := by
    rw [map_map]
    refine map_congr_left fun a _ => ?_
    rw [s'.resolve_eq, ← hmodels.resolve]
    rfl
  rw [hslots] at hv
  rcases Rule.verdict_of_mapCells hv (by simp) with hnow | ⟨t, hnow⟩
  · exact ⟨entry, hentry, hnow⟩
  · rw [Rule.verdict_mapCells hnow] at hv
    simp at hv

end RelationUse

def Instance.use (i : Instance) : RelationUse := ⟨i.relation, i.origin, i.attrs⟩

/-- Whether nothing but a plain type is written in a slot of a store. -/
def Slot.plain : Slot → Bool
  | .bound t => t.plain
  | _ => true

namespace EngineM

def addAll (registry : Registry) : List RelationUse → EngineM Unit
  | [] => return ()
  | u :: us => do
    let _ ← add registry u.relation u.origin u.attrs
    addAll registry us

/-- Add uses in the order of a list and propagate. -/
def solve (registry : Registry) (us : List RelationUse) : EngineM Unit := do
  addAll registry us
  propagate registry

end EngineM

namespace Store

theorem map_resolve_eq (s : Store) (ts : List Ty) :
    ts.map s.resolve = ts.map (Ty.mapCells s.value) :=
  map_congr_left fun t _ => s.resolve_eq t

theorem Valid.plain_value {s : Store} (h : s.Valid) (hs : s.slots.all Slot.plain = true)
    (c : Cell) : (s.value c).plain = true := by
  induction c using h.cell_induction with
  | step c ih =>
    rw [h.value_eq_expand, expand]
    cases hc : s.owns c with
    | false => rfl
    | true =>
      simp only [if_true]
      split
      · next j hj => exact ih (s.cellAt j) hc (owns_cellAt.2 (h.link_lt hj)) (.inl hj)
      · next t ht =>
        have hplain : Slot.plain (.bound t) = true := by
          rw [Array.all_eq_true'] at hs
          exact hs _ (Array.mem_of_getElem? ht)
        rw [Ty.plain_mapCells]
        exact ⟨hplain, fun d hd => ih d hc (h.owned ht d hd) (.inr ⟨t, ht, d, hd, rfl⟩)⟩
      · rfl

theorem Valid.plain_of_plain {s : Store} (h : s.Valid) (hs : s.slots.all Slot.plain = true)
    (ht : t.plain = true) : s.Plain t := by
  rw [Plain, s.resolve_eq, Ty.plain_mapCells]
  exact ⟨ht, fun c _ => h.plain_value hs c⟩

end Store

namespace Engine

open RelationUse

variable {registry : Registry} {g : Cell → Ty} {e e' : Engine} {i : Instance}

theorem map_use_waiting (e : Engine) : e.waiting.map Instance.use = e.pending.map Instance.use := by
  rw [waiting, map_map]
  rfl

/-- The conclusion of a rule from resolved slots is a type of the store that is resolved itself. -/
theorem conclusion_resolved {s : Store} {ts : List Ty} {attrs : Attrs} {rule : Rule} {slot : Nat}
    (h : s.Valid) (hts : ∀ a ∈ ts, s.ownsAll a = true)
    (hv : rule.verdict (ts.map s.resolve) attrs = .ok (.holds slot t)) :
    s.ownsAll t = true ∧ s.resolve t = t := by
  have hfree : ∀ c ∈ t.cellOccurrences, s.owns c = true ∧ s.value c = .cell c := by
    intro c hc
    obtain ⟨u, hu, hcu⟩ := Rule.mem_cells_of_conclude (Rule.verdict_eq_holds.1 hv).1 hc
    obtain ⟨a, ha, rfl⟩ := mem_map.1 hu
    exact ⟨(h.free_of_mem_resolve (hts a ha) hcu).1, h.value_of_mem_resolve hcu⟩
  constructor
  · exact Store.ownsAll_iff.2 fun c hc => (hfree c hc).1
  · rw [s.resolve_eq]
    exact Ty.mapCells_eq_self fun c hc => (hfree c hc).2

structure PlainWork (e : Engine) : Prop where
  owned : ∀ i ∈ e.waiting, ∀ a ∈ i.relation.args, e.store.ownsAll a = true
  plain : ∀ i ∈ e.waiting, ∀ a ∈ i.relation.args, e.store.Plain a

theorem plain_step (h : Watchful registry none e) (hp : e.PlainWork)
    (hrun : EngineM.step registry e = .ok true e') (ht : e.store.Plain t) : e'.store.Plain t := by
  have hkept {s s' : Store} (hk : s.Kept s') {u : Ty} (hu : s.Plain u) : s'.Plain u := by
    rw [Store.Plain, hk.view.resolve_eq]
    exact hu
  obtain ⟨n, rest, hq, ⟨-, rfl⟩ | ⟨i, hi, -, htries⟩⟩ :=
    EngineM.step_eq_true h.orderly.valid.store hrun
  · exact ht
  · have hwaits := (mem_waiting_of_instance? hi).1
    cases htries with
    | sleeps _ _ _ heyes _ => exact hkept heyes.kept ht
    | @settles entry slot u arg e₁ s _ howned hv harg hpeek hunify =>
      have hresolved := conclusion_resolved h.orderly.valid.store howned hv
      have hu : e.store.Plain u := by
        rw [Store.Plain, hresolved.2]
        refine Rule.conclude_plain (fun x hx => ?_) (Rule.verdict_eq_holds.1 hv).1
        obtain ⟨a, ha, rfl⟩ := mem_map.1 hx
        exact hp.plain _ hwaits a ha
      have harg' : e.store.Plain arg := hp.plain _ hwaits arg (mem_of_getElem? harg)
      have hk : e.store.Kept e₁.store := hpeek.kept
      have hstore : ((e₁.moved s).discharge i.asleep.seq).store = s := e₁.store_moved s
      rw [hstore]
      exact StoreM.unify_plain hk.valid (hkept hk harg') (hkept hk hu) hunify (hkept hk ht)

theorem PlainWork.step (hp : e.PlainWork) (h : Watchful registry none e)
    (hrun : EngineM.step registry e = .ok true e') : e'.PlainWork := by
  have hmoves := moves_of_step hrun h.orderly.valid
  constructor
  · intro i hi a ha
    exact hmoves.evolves.later.ownsAll (hp.owned i (hmoves.waiting_sublist.subset hi) a ha)
  · intro i hi a ha
    exact plain_step h hp hrun (hp.plain i (hmoves.waiting_sublist.subset hi) a ha)

theorem plain_steps (h : Watchful registry none e) (hp : e.PlainWork) (hsteps : Steps registry e e')
    (ht : e.store.Plain t) : e'.store.Plain t := by
  have hboth : e'.PlainWork ∧ e'.store.Plain t := by
    induction hsteps with
    | refl => exact ⟨hp, ht⟩
    | tail hbefore hstep ih =>
      have hw := h.steps hbefore
      exact ⟨ih.1.step hw hstep, plain_step hw ih.1 hstep ih.2⟩
  exact hboth.2

theorem Watchful.size_steps (h : Watchful registry none e) (hsteps : Steps registry e e') :
    e'.store.size = e.store.size := by
  induction hsteps with
  | refl => rfl
  | @tail e₁ e₂ hbefore hstep ih =>
    have hvalid := (h.steps hbefore).orderly.valid.store
    rw [← ih]
    obtain ⟨n, rest, -, ⟨-, rfl⟩ | ⟨i, -, -, htries⟩⟩ := EngineM.step_eq_true hvalid hstep
    · rfl
    · cases htries with
      | sleeps _ _ _ heyes _ => exact heyes.kept.view.size_eq
      | @settles _ _ _ _ e₃ s _ _ _ _ hpeek hunify =>
        have hstore : ((e₃.moved s).discharge i.asleep.seq).store = s := e₃.store_moved s
        rw [hstore, (StoreM.narrows_of_unify hpeek.kept.valid hunify).1]
        exact hpeek.kept.view.size_eq

theorem answered_of_undecided (h : i.Undecided registry e.store) :
    Answered registry e.store.value i.use := by
  obtain ⟨entry, hentry, -, hv⟩ := h
  rw [e.store.map_resolve_eq] at hv
  exact ⟨entry, _, hentry, hv, .inl rfl⟩

/-- An instance that is satisfied has become equal to the conclusion in its output slot, if all its
slots are plain. -/
theorem answered_of_satisfied (h : i.Satisfied registry e.store)
    (hp : ∀ a ∈ i.relation.args, e.store.Plain a) : Answered registry e.store.value i.use := by
  obtain ⟨entry, slot, t, arg, hentry, -, hv, harg, hagree⟩ := h
  have ht : t.plain = true := by
    refine Rule.conclude_plain (fun x hx => ?_) (Rule.verdict_eq_holds.1 hv).1
    obtain ⟨a, ha, rfl⟩ := mem_map.1 hx
    exact hp a ha
  have heq := Ty.eq_of_agree ht (hp arg (mem_of_getElem? harg)) hagree
  rw [e.store.map_resolve_eq] at hv
  refine ⟨entry, .holds slot t, hentry, hv, .inr ⟨slot, arg, harg, ?_⟩⟩
  rw [heq, e.store.resolve_eq]

/-- Where propagation ends, every use that it began with is answered by the values of the cells. -/
theorem answered_at_end (h : Watchful registry none e) (hp : e.PlainWork)
    (hrun : EngineM.propagate registry e = .ok () e') (hi : i ∈ e.waiting) :
    Answered registry e'.store.value i.use := by
  have hsteps := EngineM.propagate_eq_ok hrun
  have hfix := (EngineM.propagate_fixpoint h hrun).2
  have hadvances := hsteps.advances h.orderly.valid
  rcases hadvances.mem_waiting h.orderly.valid hi with hleft | hsat
  · obtain ⟨j, hj, rfl⟩ := mem_map.1 hleft
    exact answered_of_undecided (hfix j hj).2
  · exact answered_of_satisfied hsat fun a ha => plain_steps h hp hsteps (hp.plain i hi a ha)

/-- An engine that knows no more than the substitution `g`, which answers all that wait. -/
structure Guided (registry : Registry) (g : Cell → Ty) (e : Engine) : Prop where
  watchful : Watchful registry none e
  models : e.store.Models g
  owned : ∀ i ∈ e.waiting, ∀ a ∈ i.relation.args, e.store.ownsAll a = true
  answered : ∀ i ∈ e.waiting, Answered registry g i.use

theorem attempt_answered (h : e.store.Valid) (hg : e.store.Models g)
    (howned : ∀ a ∈ i.relation.args, e.store.ownsAll a = true)
    (hans : Answered registry g i.use) :
    ∃ e', EngineM.attempt registry i e = .ok () e' ∧ e'.store.Models g := by
  obtain ⟨entry, v, hentry, hv, hcases⟩ := hans
  have hslots : (i.relation.args.map e.store.resolve).map (Ty.mapCells g) =
      i.relation.args.map (Ty.mapCells g) := by
    rw [map_map]
    exact map_congr_left fun a _ => hg.resolve a
  have hv' : entry.rule.verdict ((i.relation.args.map e.store.resolve).map (Ty.mapCells g))
      i.attrs = .ok v := by
    rw [hslots]
    exact hv
  have hne : v ≠ .fails := by
    rcases hcases with rfl | ⟨slot, arg, -, rfl⟩
    · simp
    · simp
  rcases Rule.verdict_of_mapCells hv' hne with hnow | ⟨t, hnow⟩
  · obtain ⟨e₁, hpeek, hattempt⟩ := EngineM.attempt_of_verdict h hentry howned hnow
    obtain ⟨e₂, hwatch, heyes, -⟩ := EngineM.watchAll_ok hpeek.kept.valid i.seq fun a ha => by
      rw [hpeek.kept.view.ownsAll_eq]
      exact howned a ha
    exact ⟨e₂, hattempt.trans hwatch, (hg.kept hpeek.kept).kept heyes.kept⟩
  · obtain ⟨e₁, hpeek, hattempt⟩ := EngineM.attempt_of_verdict h hentry howned hnow
    -- The conclusion is kept, so it is the one that `g` satisfies.
    have hlater := Rule.verdict_mapCells (f := g) hnow
    rw [hv'] at hlater
    rcases hcases with rfl | ⟨slot, arg, harg, rfl⟩
    · simp at hlater
    obtain ⟨rfl, heq⟩ : slot = entry.rule.target ∧ arg.mapCells g = t.mapCells g := by
      simpa using hlater
    have hview := hpeek.kept.view
    have harg' := howned arg (mem_of_getElem? harg)
    have ht := (conclusion_resolved h howned hnow).1
    have hsolves : e₁.store.Solves g [(arg, t)] := by
      intro p hp
      obtain rfl : p = (arg, t) := by simpa using hp
      rw [hview.ownsAll_eq, hview.ownsAll_eq]
      exact ⟨harg', ht, heq⟩
    obtain ⟨s, hunify, hmodels⟩ :
        ∃ s, StoreM.unify arg t i.origin e₁.store = .ok () s ∧ s.Models g :=
      StoreM.unify_complete hpeek.kept.valid (hg.kept hpeek.kept) hsolves
    refine ⟨(e₁.moved s).discharge i.seq, ?_, ?_⟩
    · have hassign : EngineM.assign i entry.rule.target t e₁ = .ok () (e₁.moved s) := by
        rw [EngineM.assign_of_some harg]
        exact EngineM.onStore_of_ok hunify
      rw [hattempt, EngineM.follow, bind_of_ok (EngineM.blaming_eq_ok.2 hassign)]
      rfl
    · rw [show ((e₁.moved s).discharge i.seq).store = s from e₁.store_moved s]
      exact hmodels

theorem Guided.step (h : Guided registry g e) :
    ∃ more e', EngineM.step registry e = .ok more e' ∧ Guided registry g e' := by
  have hnext {e' : Engine} (hstep : EngineM.step registry e = .ok true e')
      (hmodels : e'.store.Models g) : Guided registry g e' := by
    have hmoves := moves_of_step hstep h.watchful.orderly.valid
    refine ⟨h.watchful.step hstep, hmodels, fun i hi a ha => ?_,
      fun i hi => h.answered i (hmoves.waiting_sublist.subset hi)⟩
    exact hmoves.evolves.later.ownsAll (h.owned i (hmoves.waiting_sublist.subset hi) a ha)
  obtain ⟨-, hstep⟩ | ⟨n, rest, -, -, hstep⟩ | ⟨n, rest, i, -, hi, -, hstep⟩ :=
    EngineM.step_cases registry e
  · exact ⟨false, e, hstep, h⟩
  · exact ⟨true, _, hstep, hnext hstep h.models⟩
  · have hwaits := (mem_waiting_of_instance? hi).1
    obtain ⟨e', hattempt, hmodels⟩ :
        ∃ e', EngineM.attempt registry i.asleep (EngineM.taken e n rest) = .ok () e' ∧
          e'.store.Models g :=
      attempt_answered h.watchful.orderly.valid.store h.models (h.owned _ hwaits)
        (h.answered _ hwaits)
    have hstep := hstep.trans (bind_of_ok hattempt)
    exact ⟨true, e', hstep, hnext hstep hmodels⟩

theorem Guided.steps (h : Guided registry g e) (hsteps : Steps registry e e') :
    Guided registry g e' := by
  induction hsteps with
  | refl => exact h
  | tail _ hstep ih =>
    obtain ⟨more, e₂, hstep', hguided⟩ := ih.step
    rw [hstep] at hstep'
    cases hstep'
    exact hguided

theorem Guided.propagate (h : Guided registry g e) :
    ∃ e', EngineM.propagate registry e = .ok () e' ∧ e'.store.Models g := by
  rcases EngineM.propagate_outcome h.watchful.toTidy with
    ⟨e', hrun, hsteps, -⟩ | ⟨f, e₁, e', -, hsteps, hfault⟩
  · exact ⟨e', hrun, (h.steps hsteps).models⟩
  · obtain ⟨more, e₂, hstep, -⟩ := (h.steps hsteps).step
    rw [hstep] at hfault
    cases hfault

end Engine

namespace EngineM

open Engine RelationUse

variable {registry : Registry} {s : Store} {e e' : Engine}

theorem add_ok (hu : u.Fits registry s) (e : Engine) :
    ∃ i, add registry u.relation u.origin u.attrs e = .ok i (e.enlist i) ∧
      i.seq = e.added + 1 ∧ i.dirty = true ∧ i.use = u.effective := by
  obtain ⟨entry, hentry, harity⟩ := hu.known
  refine ⟨⟨e.added + 1, u.relation, u.origin, u.relation.attrs.merge u.attrs, true⟩, ?_, rfl, rfl,
    rfl⟩
  unfold add
  rw [bind_of_ok (ofExcept_eq_ok.2 ⟨hentry, rfl⟩)]
  cases hn : entry.arity with
  | none => rfl
  | some n =>
    simp only [harity n hn, ne_eq, not_true_eq_false, if_false]
    rfl

theorem addAll_ok {us : List RelationUse} (hus : ∀ u ∈ us, u.Fits registry s)
    (h : Watchful registry none e) :
    ∃ e', addAll registry us e = .ok () e' ∧ e'.store = e.store ∧ Watchful registry none e' ∧
      e'.waiting.map Instance.use = e.waiting.map Instance.use ++ us.map effective := by
  induction us generalizing e with
  | nil => exact ⟨e, rfl, rfl, h, by simp⟩
  | cons u us ih =>
    rw [forall_mem_cons] at hus
    obtain ⟨i, hadd, hseq, hdirty, huse⟩ := add_ok hus.1 e
    obtain ⟨e', hrun, hstore, hwatchful, huses⟩ := ih hus.2 (h.enlist hseq hdirty)
    refine ⟨e', ?_, hstore, hwatchful, ?_⟩
    · rw [addAll, bind_of_ok hadd]
      exact hrun
    · have hasleep : i.asleep.use = i.use := rfl
      rw [huses, waiting_enlist, map_append, map_cons, map_cons, hasleep, huse,
        append_assoc]
      rfl

structure Loaded (registry : Registry) (s : Store) (us : List RelationUse) (e : Engine) : Prop where
  run : ∀ r, solve registry us { store := s } = r ↔ propagate registry e = r
  store_eq : e.store = s
  watchful : Watchful registry none e
  uses : e.waiting.map Instance.use = us.map effective

theorem exists_loaded (hs : s.Reachable) {us : List RelationUse}
    (hus : ∀ u ∈ us, u.Fits registry s) : ∃ e, Loaded registry s us e := by
  have hstart : Watchful registry none { store := s } := .start hs.valid hs.told
  obtain ⟨e, hadd, hstore, hwatchful, huses⟩ := addAll_ok hus hstart
  refine ⟨e, fun r => ?_, hstore, hwatchful, huses⟩
  rw [solve, bind_of_ok hadd]

namespace Loaded

variable {us us' : List RelationUse} {e₁ e₁' : Engine}

section

variable (h : Loaded registry s us e)
variable {i : Instance}

include h

theorem use_mem (hi : i ∈ e.waiting) : ∃ u ∈ us, u.effective = i.use := by
  have hmem : i.use ∈ us.map effective := h.uses ▸ mem_map_of_mem hi
  exact mem_map.1 hmem

theorem owned (hus : ∀ u ∈ us, u.Fits registry s) :
    ∀ i ∈ e.waiting, ∀ a ∈ i.relation.args, e.store.ownsAll a = true := by
  intro i hi a ha
  obtain ⟨u, hu, huse⟩ := h.use_mem hi
  have hrelation : u.relation = i.relation := congrArg RelationUse.relation huse
  rw [h.store_eq]
  exact (hus u hu).owned a (hrelation ▸ ha)

theorem plainWork (hs : s.Valid) (hplain : s.slots.all Slot.plain = true)
    (hus : ∀ u ∈ us, u.Fits registry s) : e.PlainWork := by
  refine ⟨h.owned hus, fun i hi a ha => ?_⟩
  obtain ⟨u, hu, huse⟩ := h.use_mem hi
  have hrelation : u.relation = i.relation := congrArg RelationUse.relation huse
  rw [h.store_eq]
  exact hs.plain_of_plain hplain ((hus u hu).plain a (hrelation ▸ ha))

theorem evolves_end (hrun : propagate registry e = .ok () e₁) : s.Evolves e₁.store := by
  have hevolves := ((propagate_eq_ok hrun).advances h.watchful.orderly.valid).evolves
    h.watchful.orderly.valid
  rwa [h.store_eq] at hevolves

theorem owns_end (hrun : propagate registry e = .ok () e₁) (c : Cell) :
    e₁.store.owns c = s.owns c := by
  have hsize := h.watchful.size_steps (propagate_eq_ok hrun)
  rw [Store.owns, Store.owns, hsize, (h.evolves_end hrun).later.serial_eq, h.store_eq]

/-- If one order ends, any other ends as well and knows no more than the first. -/
theorem other_order (h' : Loaded registry s us' e') (hs : s.Valid)
    (hplain : s.slots.all Slot.plain = true) (hperm : us.Perm us')
    (hus : ∀ u ∈ us, u.Fits registry s) (hrun : propagate registry e = .ok () e₁) :
    ∃ e₁', propagate registry e' = .ok () e₁' ∧ e₁'.store.Models e₁.store.value := by
  have hus' : ∀ u ∈ us', u.Fits registry s := fun u hu => hus u (hperm.mem_iff.2 hu)
  apply Guided.propagate
  refine ⟨h'.watchful, ?_, h'.owned hus', fun i hi => ?_⟩
  · rw [h'.store_eq]
    exact fun c => ((h.evolves_end hrun).later.value_eq c).symm
  · obtain ⟨u, hu, huse⟩ := h'.use_mem hi
    have hmem : u.effective ∈ e.waiting.map Instance.use := by
      rw [h.uses]
      exact mem_map_of_mem (hperm.mem_iff.2 hu)
    obtain ⟨j, hj, hju⟩ := mem_map.1 hmem
    rw [← huse, ← hju]
    exact answered_at_end h.watchful (h.plainWork hs hplain hus) hrun hj

/-- What is left at the end are the uses whose rules cannot tell by then. -/
theorem waiting_end (hrun : propagate registry e = .ok () e₁) :
    i ∈ e₁.waiting ↔ i ∈ e.waiting ∧ i.use.Undetermined registry e₁.store := by
  have hvalid := h.watchful.orderly.valid
  have hadvances := (propagate_eq_ok hrun).advances hvalid
  constructor
  · intro hi
    refine ⟨hadvances.waiting_sublist.subset hi, ?_⟩
    obtain ⟨j, hj, rfl⟩ := mem_map.1 hi
    obtain ⟨entry, hentry, -, hv⟩ := ((propagate_fixpoint h.watchful hrun).2 j hj).2
    exact ⟨entry, hentry, hv⟩
  · rintro ⟨hi, entry, hentry, hv⟩
    rcases hadvances.mem_waiting hvalid hi with hleft | ⟨entry', slot, t, -, hentry', -, hv', -⟩
    · exact hleft
    · -- The rule of an instance that was discharged holds.
      obtain rfl : entry' = entry := by
        have hsame := hentry'.symm.trans hentry
        simpa using hsame
      have hsame := hv.symm.trans hv'
      simp at hsame

end

open Classical in
theorem pending_end (h : Loaded registry s us e) (hrun : propagate registry e = .ok () e₁) :
    e₁.pending.map Instance.use =
      (us.filter fun u => u.effective.Undetermined registry e₁.store).map effective := by
  have hvalid := h.watchful.orderly.valid
  have hvalid₁ := ((propagate_eq_ok hrun).advances hvalid).valid hvalid
  have hwaiting : e₁.waiting =
      e.waiting.filter fun i => i.use.Undetermined registry e₁.store := by
    apply eq_of_mem_iff hvalid₁.ordered
    · exact hvalid.ordered.sublist (filter_sublist.map _)
    · intro i
      simp [h.waiting_end hrun]
  calc e₁.pending.map Instance.use
      = (e.waiting.filter fun i => i.use.Undetermined registry e₁.store).map Instance.use := by
        rw [← map_use_waiting, hwaiting]
    _ = (e.waiting.map Instance.use).filter fun u => u.Undetermined registry e₁.store := by
        rw [filter_map]
        rfl
    _ = (us.filter fun u => u.effective.Undetermined registry e₁.store).map effective := by
        rw [h.uses, filter_map]
        rfl

end Loaded

/-- The order of relations makes no difference. Take a reachable store to which only plain types
were bound, and uses of known relations with as many slots as these take, all of them plain types of
the store. Add the uses in two orders to two engines that start from the store, and propagate. If
one of the two ends, so does the other. In this case the same uses are left pending, and every type
of the store resolves to the same type in both up to a renaming of free cells. -/
theorem solve_perm (registry : Registry) {s : Store} (hs : s.Reachable)
    (hplain : s.slots.all Slot.plain = true) {us us' : List RelationUse} (hperm : us.Perm us')
    (hus : ∀ u ∈ us, u.Fits registry s) :
    ((∃ e, solve registry us { store := s } = .ok () e) ↔
        ∃ e', solve registry us' { store := s } = .ok () e') ∧
      ∀ e e', solve registry us { store := s } = .ok () e →
        solve registry us' { store := s } = .ok () e' →
        (∃ p : RelationUse → Bool, e.pending.map Instance.use = (us.filter p).map effective ∧
            e'.pending.map Instance.use = (us'.filter p).map effective) ∧
          e.store.SameUpToNames e'.store := by
  classical
  have hv := hs.valid
  have hus' : ∀ u ∈ us', u.Fits registry s := fun u hu => hus u (hperm.mem_iff.2 hu)
  obtain ⟨e₀, h⟩ := exists_loaded hs hus
  obtain ⟨e₀', h'⟩ := exists_loaded hs hus'
  refine ⟨⟨?_, ?_⟩, fun e e' hrun hrun' => ?_⟩
  · rintro ⟨e, hrun⟩
    obtain ⟨e', hrun', -⟩ := h.other_order h' hv hplain hperm hus ((h.run _).1 hrun)
    exact ⟨e', (h'.run _).2 hrun'⟩
  · rintro ⟨e', hrun'⟩
    obtain ⟨e, hrun, -⟩ := h'.other_order h hv hplain hperm.symm hus' ((h'.run _).1 hrun')
    exact ⟨e, (h.run _).2 hrun⟩
  · rw [h.run] at hrun
    rw [h'.run] at hrun'
    obtain ⟨e₁, hrun₁, hback⟩ := h.other_order h' hv hplain hperm hus hrun
    obtain ⟨e₂, hrun₂, hmodels⟩ := h'.other_order h hv hplain hperm.symm hus' hrun'
    rw [hrun'] at hrun₁
    rw [hrun] at hrun₂
    cases hrun₁
    cases hrun₂
    have hsame : ∀ u : RelationUse,
        u.Undetermined registry e'.store ↔ u.Undetermined registry e.store := fun u =>
      ⟨fun hu => hu.of_models hmodels, fun hu => hu.of_models hback⟩
    refine ⟨⟨fun u => u.effective.Undetermined registry e.store, ?_, ?_⟩, ?_⟩
    · exact h.pending_end hrun
    · rw [h'.pending_end hrun']
      simp only [hsame]
    · apply (h.evolves_end hrun).valid.sameUpToNames (h'.evolves_end hrun').valid _ hmodels hback
      intro c
      rw [h.owns_end hrun, h'.owns_end hrun']

/-- A chain of three relations, added from the end or from the start, beside one whose operand
stays unknown. -/
theorem solve_perm_chain :
    let s := Store.afterAll {} [.fresh, .fresh, .fresh, .fresh, .fresh, .fresh,
      .bind (.cell ⟨0, 0⟩) (.tensor [.known 2, .known 3] "float32") none]
    let matmul : RelationUse := ⟨⟨"MatMul", [.cell ⟨0, 0⟩,
      .tensor [.known 3, .known 4] "float32", .cell ⟨0, 1⟩], 2, .empty⟩, none, .empty⟩
    let identity : RelationUse :=
      ⟨⟨"Identity", [.cell ⟨0, 1⟩, .cell ⟨0, 2⟩], 1, .empty⟩, none, .empty⟩
    let reduce : RelationUse :=
      ⟨⟨"Reduce", [.cell ⟨0, 2⟩, .cell ⟨0, 3⟩], 1, .empty⟩, none, .ofList [("axis", .int 0)]⟩
    let unknown : RelationUse :=
      ⟨⟨"Identity", [.cell ⟨0, 4⟩, .cell ⟨0, 5⟩], 1, .empty⟩, none, .empty⟩
    let us := [matmul, identity, unknown, reduce]
    s.Reachable ∧ s.slots.all Slot.plain = true ∧ us.Perm us.reverse ∧
      (∀ u ∈ us, u.Fits .standard s) ∧
      ∃ e e', solve .standard us { store := s } = .ok () e ∧
        solve .standard us.reverse { store := s } = .ok () e' ∧
        e.pending.map Instance.seq = [3] ∧ e'.pending.map Instance.seq = [2] ∧
        (e.store.resolve (.cell ⟨0, 3⟩)).same (.tensor [.known 4] "float32") = true ∧
        e.store.SameUpToNames e'.store := by
  intro s matmul identity reduce unknown us
  have hs : s.Reachable := ⟨0, _, rfl⟩
  have hplain : s.slots.all Slot.plain = true := by decide +kernel
  have hperm : us.Perm us.reverse := us.reverse_perm.symm
  have hus : ∀ u ∈ us, u.Fits .standard s := by
    have hfits {u : RelationUse} {rule : Rule} {n : Int}
        (hentry : Registry.standard.lookup u.relation.name u.origin = .ok ⟨rule, some n⟩)
        (hn : n = u.relation.args.length)
        (hall : u.relation.args.all (fun a => s.ownsAll a && a.plain) = true) :
        u.Fits .standard s := by
      simp only [List.all_eq_true, Bool.and_eq_true] at hall
      refine ⟨⟨_, hentry, ?_⟩, fun a ha => (hall a ha).1, fun a ha => (hall a ha).2⟩
      rintro m hm
      obtain rfl : n = m := by simpa using hm
      exact hn
    simp only [us, List.forall_mem_cons, List.not_mem_nil, false_imp_iff, implies_true, and_true]
    exact ⟨hfits rfl rfl (by decide +kernel), hfits rfl rfl (by decide +kernel),
      hfits rfl rfl (by decide +kernel), hfits rfl rfl (by decide +kernel)⟩
  have hok : succeeds (solve .standard us) { store := s } = true := by decide +kernel
  obtain ⟨_, hrun⟩ := succeeds_iff.1 hok
  have hperms := solve_perm .standard hs hplain hperm hus
  obtain ⟨e', hrun'⟩ := hperms.1.1 ⟨_, hrun⟩
  have he' : endState (solve .standard us.reverse) { store := s } = e' := endState_of_ok hrun'
  refine ⟨hs, hplain, hperm, hus, _, e', hrun, hrun', by decide +kernel, ?_, by decide +kernel,
    (hperms.2 _ _ hrun hrun').2⟩
  rw [← he']
  decide +kernel

end EngineM

end TensorTyping
