import TensorTyping.Proofs.Engine.Trials
import TensorTyping.Proofs.Engine.Wakeups
import TensorTyping.Proofs.Relation.Conclusions
import TensorTyping.Proofs.Unify.Faults
import TensorTyping.Proofs.Unify.Heredity

/-!
# Working to a discipline

A discipline says what may be known of types, which phrases may be blamed, which settings a use of a
relation may have, and with which faults it is all right to stop. If the instances that wait in an
engine conform to it, the engine keeps to it: it comes to know no other things, and it stops with no
other fault.
-/
namespace TensorTyping

open List

variable {entry : RelationEntry} {α : Type} {f : Fault} {ns : List Nat} {site : Option Phrase}

namespace EngineM

variable {registry : Registry} {e : Engine} {r : TypeRelation} {origin : Option Phrase}
  {attrs : Attrs}

theorem add_of_unknown (h : registry.table.get? r.name = none) :
    add registry r origin attrs e = .error (.issue (.unboundName r.name origin)) e := by
  simp only [add, Registry.lookup, h]
  rfl

theorem add_of_fit (h : registry.table.get? r.name = some entry)
    (harity : ∀ n, entry.arity = some n → n = r.args.length) :
    add registry r origin attrs e = .ok ⟨e.added + 1, r, origin, r.attrs.merge attrs, true⟩
      (e.enlist ⟨e.added + 1, r, origin, r.attrs.merge attrs, true⟩) := by
  simp only [add, Registry.lookup, h]
  rw [bind_of_ok (ofExcept_eq_ok.2 ⟨rfl, rfl⟩)]
  cases hn : entry.arity with
  | none => rfl
  | some n =>
    simp only [harity n hn, ne_eq, not_true_eq_false, if_false]
    rfl

theorem add_of_misfit {n : Int} (h : registry.table.get? r.name = some entry)
    (hn : entry.arity = some n) (hne : n ≠ r.args.length) :
    add registry r origin attrs e = .error (.issue
      { kind := .arityMismatch
        evidence := [.ofText r.name, .value (.int n), .ofNat r.args.length]
        sentence := some "The relation %s takes %s types, but this use gives it %s."
        site := origin }) e := by
  simp only [add, Registry.lookup, h]
  rw [bind_of_ok (ofExcept_eq_ok.2 ⟨rfl, rfl⟩)]
  simp only [hn, ne_eq, hne, not_false_eq_true, if_true]
  rfl

/-- A step stops only where it tries an instance. -/
theorem step_eq_error {e' : Engine} (h : step registry e = .error f e') :
    ∃ n rest i, e.instance? n = some i ∧
      attempt registry i.asleep (taken e n rest) = .error f e' := by
  obtain ⟨-, hstep⟩ | ⟨n, rest, -, -, hstep⟩ | ⟨n, rest, i, -, hi, -, hstep⟩ :=
    step_cases registry e
  all_goals rw [hstep] at h
  · cases h
  · cases h
  · rcases bind_eq_error h with hattempt | ⟨_, e₁, -, hpure⟩
    · exact ⟨n, rest, i, hi, hattempt⟩
    · cases hpure

theorem detach_ok (hnodup : ns.Nodup) (hns : ∀ n ∈ ns, ∃ i ∈ e.pending, i.seq = n) :
    ∃ e', detach ns e = .ok () e' := by
  induction ns generalizing e with
  | nil => exact ⟨e, rfl⟩
  | cons n ns ih =>
    obtain ⟨hn, hnodup⟩ := nodup_cons.1 hnodup
    obtain ⟨hfirst, hrest⟩ := forall_mem_cons.1 hns
    cases hi : e.instance? n with
    | none =>
      obtain ⟨i, hmem, hseq⟩ := hfirst
      exact absurd hseq (Engine.instance?_eq_none hi hmem)
    | some i =>
      rw [detach_cons_of_some hi]
      apply ih hnodup
      intro m hm
      obtain ⟨j, hj, rfl⟩ := hrest m hm
      refine ⟨j, mem_filter.2 ⟨hj, ?_⟩, rfl⟩
      have hne : j.seq ≠ n := fun heq => hn (heq ▸ hm)
      simpa using hne

theorem onStore_ends {act : StoreM α} {P : α → Store → Prop} {E : Fault → Store → Prop}
    (h : Ends act e.store P E) :
    Ends (onStore act) e (fun a e' => P a e'.store) fun f e' => E f e'.store := by
  cases hrun : act e.store with
  | ok a s =>
    apply Ends.of_eq_ok (onStore_of_ok hrun)
    rw [Engine.store_moved]
    exact h.of_ok hrun
  | error f s =>
    apply Ends.of_eq_error (onStore_of_error hrun)
    rw [Engine.store_moved]
    exact h.of_error hrun

theorem blaming_ends {act : EngineM α} {P : α → Engine → Prop} {E : Fault → Engine → Prop}
    (h : Ends act e P fun f e' => E (f.blame site) e') : Ends (blaming site act) e P E := by
  cases hrun : act e with
  | ok a e' => exact .of_eq_ok (by unfold blaming; rw [hrun]) (h.of_ok hrun)
  | error f e' => exact .of_eq_error (by unfold blaming; rw [hrun]) (h.of_error hrun)

end EngineM

/-- What is asked of the things that a run works with. -/
structure Discipline where
  /-- Of every part of what is known of a type. -/
  part : Ty → Prop
  /-- Of the phrases that are blamed. -/
  phrase : Phrase → Prop
  /-- Of the settings of a use of a relation, by the name of the relation. -/
  setting : String → Attrs → Prop
  /-- Of the settings that a call adds. -/
  added : Attrs → Prop
  /-- Of a fault and the store that it leaves behind. -/
  stops : Fault → Store → Prop

/-- A discipline that the operations of a store and the rules of a registry obey. -/
structure Discipline.Coherent (D : Discipline) (registry : Registry) : Prop where
  tensor (s : Shape) (dtype : String) : D.part (.tensor s dtype)
  param (p : TypeParam) : D.part (.param p)
  tuple (ts : List Ty) : D.part (.tuple ts)
  data (h : Handle) (as : List Ty) : D.part (.data h as)
  func (as : List Ty) (r : Ty) {rs : List TypeRelation} :
    (∀ x ∈ rs, D.setting x.name x.attrs) → D.part (.func as r [] rs)
  relations {as : List Ty} {r : Ty} {ps : List TypeParam} {rs : List TypeRelation} :
    D.part (.func as r ps rs) → ∀ x ∈ rs, D.setting x.name x.attrs
  mapChildren_iff (h : Ty → Ty) (t : Ty) : D.part (t.mapChildren h) ↔ D.part t
  merge {name : String} {a b : Attrs} : D.setting name a → D.added b → D.setting name (a.merge b)
  plain : D.added .empty
  index (i : Index) : D.setting "TupleGetItem" (.ofList [("index", i.toValue)])
  blames {f : Fault} {s : Store} : s.Blames D.phrase f → D.stops f s
  blame {f : Fault} {s : Store} (site : Option Phrase) : D.stops f s → D.stops (f.blame site) s
  rules {name : String} {attrs : Attrs} {entry : RelationEntry} {types : List Ty} {f : Fault}
    {site : Phrase} {s : Store} : registry.table.get? name = some entry →
    (∀ n, entry.arity = some n → n = types.length) → D.setting name attrs →
    (∀ t ∈ types, s.ownsAll t = true) → D.phrase site →
    entry.rule.verdict types attrs = .error f → D.stops (f.blame (some site)) s
  slots {name : String} {entry : RelationEntry} {n : Nat} {s : Store} :
    registry.table.get? name = some entry → (∀ k, entry.arity = some k → k = n) →
    n ≤ entry.rule.target → D.stops .missingSlot s

/-- The store has moved on, and as far as types that satisfy the condition are concerned it keeps
to the condition. -/
structure Store.Proceeds (q : Ty → Prop) (s s' : Store) : Prop where
  tells : ∃ heard, s.Tells heard s'
  within : s.Within q s'

namespace Store

variable {q : Ty → Prop} {s s' s'' : Store}

theorem Kept.proceeds (h : s.Kept s') : s.Proceeds q s' := ⟨⟨[], h.tells⟩, h.within⟩

namespace Proceeds

theorem refl (h : s.Valid) : s.Proceeds q s := (Kept.refl h).proceeds

theorem trans (h : s.Proceeds q s') (h' : s'.Proceeds q s'') : s.Proceeds q s'' := by
  obtain ⟨heard, htells⟩ := h.tells
  obtain ⟨heard', htells'⟩ := h'.tells
  exact ⟨⟨heard ++ heard', htells.trans htells'⟩, h.within.trans h'.within⟩

theorem evolves (h : s.Proceeds q s') : s.Evolves s' := by
  obtain ⟨heard, htells⟩ := h.tells
  exact htells.evolves

end Proceeds

theorem Meets.proceeds {t : Ty} (h : s.Meets q t) (hs : s.Proceeds q s') : s'.Meets q t :=
  h.within hs.evolves hs.within

theorem Valid.fresh_proceeds (h : s.Valid) : s.Proceeds q s.fresh.2 where
  tells := ⟨[], h.fresh_tells⟩
  within :=
    { holds := fun t ht => by
        rw [Holds, h.resolve_fresh]
        exact ht
      apart := fun t _ => h.resolve_fresh t
      peek_eq := fun c _ => h.peek_fresh c }

end Store

namespace Discipline

variable (D : Discipline) {registry : Registry} {s s' : Store} {t u : Ty}

/-- The type belongs to the store and what is known of it is all right. -/
abbrev Fair (s : Store) (t : Ty) : Prop := s.Meets D.part t

variable {D}

theorem Coherent.steady (hD : D.Coherent registry) : Ty.Steady D.part :=
  fun h t => (hD.mapChildren_iff h t).2

namespace Fair

variable {ts : List Ty}

section

variable (hD : D.Coherent registry)

include hD

theorem intro (hcell : t.isCell = false) (hpart : D.part t)
    (hchildren : ∀ u ∈ t.children, D.Fair s u) : D.Fair s t :=
  Store.Meets.intro hD.steady hcell hpart hchildren

theorem param (p : TypeParam) : D.Fair s (.param p) :=
  intro hD rfl (hD.param p) fun _ hu => absurd hu not_mem_nil

theorem apply {ps : List TypeParam} (hts : ∀ t ∈ ts, D.Fair s t) (h : D.Fair s t) :
    D.Fair s ((Substitution.ofParams ps ts).apply t) := by
  have hcell : (Substitution.ofParams ps ts).onCell = .cell :=
    funext (Substitution.onCell_ofParams ps ts)
  rw [Substitution.apply, hcell]
  refine h.replace hD.mapChildren_iff fun p _ => ?_
  rcases Substitution.onParam_ofParams ps ts p with hp | hp
  · rw [hp]
    exact param hD p
  · exact hts _ hp

theorem tuple (h : ∀ t ∈ ts, D.Fair s t) : D.Fair s (.tuple ts) :=
  intro hD rfl (hD.tuple ts) h

theorem data (n : Handle) (h : ∀ t ∈ ts, D.Fair s t) : D.Fair s (.data n ts) :=
  intro hD rfl (hD.data n ts) h

theorem func {as : List Ty} {r : Ty} (has : ∀ t ∈ as, D.Fair s t) (hr : D.Fair s r) :
    D.Fair s (.func as r [] []) := by
  apply intro hD rfl (hD.func as r fun x hx => absurd hx not_mem_nil)
  intro u hu
  have hmem : u ∈ as ∨ u = r := by simpa using hu
  rcases hmem with hu | rfl
  · exact has u hu
  · exact hr

end

end Fair

/-- A use of a relation that is all right. -/
structure Runs (D : Discipline) (registry : Registry) (s : Store) (i : Instance) : Prop where
  slots : ∀ a ∈ i.relation.args, D.Fair s a
  origin : ∃ p, i.origin = some p ∧ D.phrase p
  setting : D.setting i.relation.name i.attrs
  registered : ∃ entry, registry.table.get? i.relation.name = some entry ∧
    ∀ n, entry.arity = some n → n = i.relation.args.length

theorem Runs.proceeds {i : Instance} (h : D.Runs registry s i) (hs : s.Proceeds D.part s') :
    D.Runs registry s' i :=
  ⟨fun a ha => (h.slots a ha).proceeds hs, h.origin, h.setting, h.registered⟩

/-- An engine in which all that waits is all right, and so is whatever cell may come up. -/
structure Governs (D : Discipline) (registry : Registry) (e : Engine) : Prop where
  watchful : Engine.Watchful registry none e
  unborn : ∀ c, e.store.owns c = false → D.part (.cell c)
  runs : ∀ i ∈ e.waiting, D.Runs registry e.store i

namespace Governs

variable {e e' : Engine}

section

variable (h : D.Governs registry e)

include h

theorem valid : e.Valid := h.watchful.orderly.valid

theorem store_valid : e.store.Valid := h.valid.store

theorem proceeds (hwatch : Engine.Watchful registry none e') (hs : e.store.Proceeds D.part e'.store)
    (hwaiting : ∀ i ∈ e'.waiting, i ∈ e.waiting) : D.Governs registry e' where
  watchful := hwatch
  unborn := by
    intro c hc
    apply h.unborn
    by_contra howns
    have hlater := hs.evolves.later.owns (Bool.not_eq_false _ ▸ howns)
    rw [hc] at hlater
    cases hlater
  runs i hi := (h.runs i (hwaiting i hi)).proceeds hs

theorem moved (hs : e.store.Proceeds D.part s) : D.Governs registry (e.moved s) := by
  obtain ⟨heard, htells⟩ := hs.tells
  have hrests := Engine.moved_rests hs.evolves
  apply h.proceeds (h.watchful.moved htells)
  · rw [Engine.store_moved]
    exact hs
  · rw [hrests.waiting_eq]
    exact fun i hi => hi

end

end Governs

/-- The computation keeps to the discipline, however it ends. -/
def Keeps {α : Type} (D : Discipline) (registry : Registry) (act : EngineM α) (e : Engine)
    (Q : α → Engine → Prop) : Prop :=
  Ends act e
    (fun a e' => D.Governs registry e' ∧ e.store.Proceeds D.part e'.store ∧ Q a e')
    fun f e' => D.stops f e'.store

section

variable {e e' : Engine} (hD : D.Coherent registry) {i : Instance}

theorem onStore_keeps {act : StoreM α} {P : α → Store → Prop} (h : D.Governs registry e)
    (hact : Ends act e.store (fun a s' => e.store.Proceeds D.part s' ∧ P a s')
      fun f s' => D.stops f s') :
    D.Keeps registry (EngineM.onStore act) e fun a e' => P a e'.store := by
  cases hrun : act e.store with
  | ok a s' =>
    obtain ⟨hs, ha⟩ := hact.of_ok hrun
    refine .of_eq_ok (EngineM.onStore_of_ok hrun) ⟨h.moved hs, ?_, ?_⟩
    · rw [Engine.store_moved]
      exact hs
    · change P a (e.moved s').store
      rw [Engine.store_moved]
      exact ha
  | error f s' =>
    refine .of_eq_error (EngineM.onStore_of_error hrun) ?_
    rw [Engine.store_moved]
    exact hact.of_error hrun

include hD

section

variable (h : D.Governs registry e)

include h

theorem unify_keeps {a b : Ty} {site : Phrase} (hsite : D.phrase site) (ha : D.Fair e.store a)
    (hb : D.Fair e.store b) :
    D.Keeps registry (EngineM.onStore (StoreM.unify a b (some site))) e
      fun _ e' => e'.store.Agrees (a, b) := by
  have hvalid := h.store_valid
  have hends : Ends (StoreM.unify a b (some site)) e.store
      (fun _ s' => e.store.Evolves s' ∧ e.store.Within D.part s')
      fun f s' => s'.Blames D.phrase f :=
    StoreM.unify_ends hD.steady hvalid hsite ha.1 hb.1 ha.2 hb.2
  apply onStore_keeps h (P := fun _ s' => s'.Agrees (a, b))
  constructor
  · intro _ s' hrun
    obtain ⟨-, heard, htells⟩ := StoreM.narrows_of_unify hvalid hrun
    refine ⟨⟨⟨heard, htells⟩, (hends.of_ok hrun).2⟩, ?_⟩
    exact StoreM.unify_agrees hvalid hrun (.refl htells.evolves.valid)
  · intro f s' hrun
    exact hD.blames (hends.of_error hrun)

omit hD in
theorem find_keeps (ht : e.store.ownsAll t = true) :
    D.Keeps registry (EngineM.onStore (StoreM.find t)) e
      fun u e' => u = e.store.top t ∧ e.store.Kept e'.store := by
  apply onStore_keeps h (P := fun u s' => u = e.store.top t ∧ e.store.Kept s')
  exact (StoreM.find_ends h.store_valid ht).mono fun u s' hu => ⟨hu.2.proceeds, hu⟩

omit hD in
theorem resolve_keeps (ht : e.store.ownsAll t = true) :
    D.Keeps registry (EngineM.onStore (StoreM.resolve t)) e
      fun u e' => u = e.store.resolve t ∧ e.store.Kept e'.store := by
  apply onStore_keeps h (P := fun u s' => u = e.store.resolve t ∧ e.store.Kept s')
  exact (StoreM.resolve_ends h.store_valid ht).mono fun u s' hu => ⟨hu.2.proceeds, hu⟩

omit hD in
theorem Governs.peeks (he : e.Peeks e') : D.Governs registry e' := by
  apply h.proceeds (h.watchful.eyes he.eyes) he.kept.proceeds
  obtain ⟨s, hs, rfl⟩ := he
  exact fun i hi => hi

omit hD in
theorem resolveAll_keeps {ts : List Ty} (hts : ∀ t ∈ ts, e.store.ownsAll t = true) :
    D.Keeps registry (EngineM.resolveAll ts) e
      fun us e' => us = ts.map e.store.resolve ∧ e.Peeks e' := by
  obtain ⟨e', hrun, hpeeks⟩ := EngineM.resolveAll_ok h.store_valid hts
  exact .of_eq_ok hrun ⟨h.peeks hpeeks, hpeeks.kept.proceeds, rfl, hpeeks⟩

omit hD in
theorem fresh_keeps :
    D.Keeps registry (EngineM.onStore StoreM.fresh) e fun t e' => D.Fair e'.store t := by
  have hvalid := h.store_valid
  apply onStore_keeps h (P := fun t s' => D.Fair s' t)
  apply Ends.of_eq_ok (show StoreM.fresh e.store = .ok (.cell e.store.fresh.1) e.store.fresh.2
    from rfl)
  refine ⟨hvalid.fresh_proceeds, ?_, ?_⟩
  · simp [Store.ownsAll_iff, Store.fresh, Store.owns, Store.size, Store.cellAt]
  · have hforeign : e.store.owns e.store.fresh.1 = false := by
      simp [Store.fresh, Store.owns, Store.size, Store.cellAt]
    have hvalue : e.store.fresh.2.value e.store.fresh.1 = .cell e.store.fresh.1 := by
      rw [hvalid.value_fresh, hvalid.value_foreign hforeign]
    change Ty.Everywhere D.part (e.store.fresh.2.value e.store.fresh.1)
    rw [hvalue]
    exact .intro (h.unborn _ hforeign) fun u hu => absurd hu not_mem_nil

theorem add_keeps {r : TypeRelation} {site : Phrase} {attrs : Attrs}
    (hslots : ∀ a ∈ r.args, D.Fair e.store a) (hsite : D.phrase site)
    (hsetting : D.setting r.name r.attrs) (hattrs : D.added attrs) :
    D.Keeps registry (EngineM.add registry r (some site) attrs) e fun _ _ => True := by
  cases hentry : registry.table.get? r.name with
  | none =>
    apply Ends.of_eq_error (EngineM.add_of_unknown hentry)
    exact hD.blames ⟨_, rfl, .unboundName hsite _ _⟩
  | some entry =>
    by_cases harity : ∀ n, entry.arity = some n → n = r.args.length
    · refine .of_eq_ok (EngineM.add_of_fit hentry harity) ⟨⟨?_, h.unborn, ?_⟩, ?_, trivial⟩
      · exact h.watchful.enlist rfl rfl
      · intro i hi
        rw [Engine.waiting_enlist] at hi
        rcases mem_append.1 hi with hi | hi
        · exact h.runs i hi
        · obtain rfl := mem_singleton.1 hi
          exact ⟨hslots, ⟨site, rfl, hsite⟩, hD.merge hsetting hattrs, entry, hentry, harity⟩
      · exact .refl h.store_valid
    · simp only [not_forall] at harity
      obtain ⟨n, hn, hne⟩ := harity
      apply Ends.of_eq_error (EngineM.add_of_misfit hentry hn hne)
      apply hD.blames
      apply Store.blames_of_site hsite rfl (forall_mem_nil _)
      exact Issue.fits_of_holes 3 (by cbv) rfl

omit h in
theorem follow_ends (hvalid : s.Valid) (h : D.Runs registry s i) (hkept : s.Kept e.store)
    (hentry : registry.table.get? i.relation.name = some entry)
    (harity : ∀ n, entry.arity = some n → n = i.relation.args.length) {v : Verdict}
    (hv : entry.rule.verdict (i.relation.args.map s.resolve) i.attrs = .ok v) :
    Ends (EngineM.follow i v) e (fun _ _ => True) fun f e' => D.stops f e'.store := by
  obtain ⟨site, horigin, hsite⟩ := h.origin
  have hfair : ∀ a ∈ i.relation.args, D.Fair e.store a :=
    fun a ha => (h.slots a ha).proceeds hkept.proceeds
  have howned : ∀ a ∈ i.relation.args, e.store.ownsAll a = true := fun a ha => (hfair a ha).1
  cases v with
  | holds slot t =>
    apply Ends.bind (P := fun _ _ => True)
    · apply EngineM.blaming_ends
      cases harg : i.relation.args[slot]? with
      | none =>
        rw [EngineM.assign_of_none harg]
        apply Ends.throw
        rw [getElem?_eq_none_iff, ← (Rule.verdict_eq_holds.1 hv).2] at harg
        refine hD.blame _ (hD.slots hentry (n := i.relation.args.length) ?_ harg)
        exact harity
      | some arg =>
        rw [EngineM.assign_of_some harg, horigin]
        have ht : D.Fair e.store t := by
          apply Store.Meets.of_verdict hD.steady hD.tensor _ hv
          intro u hu
          obtain ⟨a, ha, rfl⟩ := mem_map.1 hu
          exact ((h.slots a ha).resolve hvalid).proceeds hkept.proceeds
        have harg := hfair arg (mem_of_getElem? harg)
        have hends : Ends (StoreM.unify arg t (some site)) e.store
            (fun _ s' => e.store.Evolves s' ∧ e.store.Within D.part s')
            fun f s' => s'.Blames D.phrase f :=
          StoreM.unify_ends hD.steady hkept.valid hsite harg.1 ht.1 harg.2 ht.2
        exact (EngineM.onStore_ends hends).imp (fun _ _ _ => trivial) fun _ _ hf =>
          hD.blame _ (hD.blames hf)
    · exact fun _ e' _ => .of_eq_ok rfl trivial
  | fails =>
    obtain ⟨e₁, hrun, hpeeks⟩ := EngineM.resolveAll_ok hkept.valid howned
    refine .of_eq_error (bind_of_ok hrun) ?_
    apply hD.blames
    apply Store.blames_of_site hsite horigin
    · intro t ht
      simp only [Evidence.typesList, Evidence.types, Evidence.ofText, Evidence.typesList_map_type,
        nil_append, append_nil] at ht
      obtain ⟨a, ha, rfl⟩ := mem_map.1 ht
      exact hpeeks.kept.ownsAll (hkept.valid.ownsAll_resolve (howned a ha))
    · exact Issue.fits_of_holes 2 (by cbv) rfl
  | indeterminate =>
    obtain ⟨e₁, hrun, -⟩ := EngineM.watchAll_ok hkept.valid i.seq howned
    exact .of_eq_ok hrun trivial

omit h in
theorem attempt_ends (hvalid : e.store.Valid) (h : D.Runs registry e.store i) :
    Ends (EngineM.attempt registry i) e (fun _ _ => True) fun f e' => D.stops f e'.store := by
  obtain ⟨site, horigin, hsite⟩ := h.origin
  obtain ⟨entry, hentry, harity⟩ := h.registered
  have howned : ∀ a ∈ i.relation.args, e.store.ownsAll a = true := fun a ha => (h.slots a ha).1
  have hlookup : registry.lookup i.relation.name i.origin = .ok entry := by
    simp [Registry.lookup, hentry]
  obtain ⟨e₁, hrun, hpeeks⟩ := EngineM.resolveAll_ok hvalid howned
  have hkept := hpeeks.kept
  have htypes : ∀ t ∈ i.relation.args.map e.store.resolve, e₁.store.ownsAll t = true := by
    intro t ht
    obtain ⟨a, ha, rfl⟩ := mem_map.1 ht
    exact hkept.ownsAll (hvalid.ownsAll_resolve (howned a ha))
  rw [EngineM.attempt_eq, hlookup]
  apply Ends.bind (.of_eq_ok hrun ⟨rfl, rfl⟩ :
    Ends (EngineM.resolveAll i.relation.args) e
      (fun ts e' => ts = i.relation.args.map e.store.resolve ∧ e' = e₁) _)
  rintro _ _ ⟨rfl, rfl⟩
  cases hv : entry.rule.verdict (i.relation.args.map e.store.resolve) i.attrs with
  | error f =>
    have hlen : ∀ n, entry.arity = some n →
        n = (i.relation.args.map e.store.resolve).length := by
      intro n hn
      rw [length_map]
      exact harity n hn
    have hstops := hD.rules hentry hlen h.setting htypes hsite hv
    rw [← horigin] at hstops
    exact .of_eq_error (bind_of_error rfl) hstops
  | ok v => exact follow_ends hD hvalid h hkept hentry harity hv

omit h in
theorem tries_proceeds (hvalid : e.store.Valid) (h : D.Runs registry e.store i)
    (htries : EngineM.Tries registry i e e') : e.store.Proceeds D.part e'.store := by
  cases htries with
  | @settles entry slot t arg e₁ s _ _ hverdict harg hpeeks hunify =>
    have hkept := hpeeks.kept
    have hfair := (h.slots arg (mem_of_getElem? harg)).proceeds hkept.proceeds
    have ht : D.Fair e₁.store t := by
      apply Store.Meets.of_verdict hD.steady hD.tensor _ hverdict
      intro u hu
      obtain ⟨a, ha, rfl⟩ := mem_map.1 hu
      exact ((h.slots a ha).resolve hvalid).proceeds hkept.proceeds
    obtain ⟨-, heard, htells⟩ := StoreM.narrows_of_unify hkept.valid hunify
    have hs : e₁.store.Proceeds D.part s :=
      ⟨⟨heard, htells⟩, StoreM.unify_within hD.steady hkept.valid hfair.2 ht.2 hunify⟩
    have hstore : ((e₁.moved s).discharge i.seq).store = s := Engine.store_moved e₁ s
    rw [hstore]
    exact hkept.proceeds.trans hs
  | sleeps _ _ _ heyes => exact heyes.kept.proceeds

theorem Governs.step (hrun : EngineM.step registry e = .ok true e') :
    D.Governs registry e' ∧ e.store.Proceeds D.part e'.store := by
  have hproceeds : e.store.Proceeds D.part e'.store := by
    obtain ⟨n, rest, -, ⟨-, rfl⟩ | ⟨i, hi, -, htries⟩⟩ := EngineM.step_eq_true h.store_valid hrun
    · exact .refl h.store_valid
    · have hwork := EngineM.taken_sameWork e n rest
      have hruns := h.runs _ (Engine.mem_waiting_of_instance? hi).1
      have hgoes := tries_proceeds hD (e := EngineM.taken e n rest) h.store_valid hruns htries
      rw [hwork.store_eq] at hgoes
      exact hgoes
  refine ⟨h.proceeds (h.watchful.step hrun) hproceeds ?_, hproceeds⟩
  exact fun i hi => (Engine.moves_of_step hrun h.valid).waiting_sublist.subset hi

theorem Governs.steps (hsteps : Engine.Steps registry e e') :
    D.Governs registry e' ∧ e.store.Proceeds D.part e'.store := by
  induction hsteps with
  | refl => exact ⟨h, .refl h.store_valid⟩
  | tail _ hstep ih =>
    have hstep := ih.1.step hD hstep
    exact ⟨hstep.1, ih.2.trans hstep.2⟩

theorem step_error (hrun : EngineM.step registry e = .error f e') : D.stops f e'.store := by
  obtain ⟨n, rest, i, hi, hattempt⟩ := EngineM.step_eq_error hrun
  have hruns : D.Runs registry (EngineM.taken e n rest).store i.asleep := by
    rw [(EngineM.taken_sameWork e n rest).store_eq]
    exact h.runs _ (Engine.mem_waiting_of_instance? hi).1
  exact (attempt_ends hD (e := EngineM.taken e n rest) h.store_valid hruns).of_error hattempt

theorem propagate_keeps :
    D.Keeps registry (EngineM.propagate registry) e fun _ e' => Engine.Steps registry e e' := by
  rcases EngineM.propagate_outcome h.watchful.toTidy with
    ⟨e', hrun, hsteps, -⟩ | ⟨f, e₁, e', hrun, hsteps, hstep⟩
  · have hkeeps := h.steps hD hsteps
    exact .of_eq_ok hrun ⟨hkeeps.1, hkeeps.2, hsteps⟩
  · exact .of_eq_error hrun (step_error hD (h.steps hD hsteps).1 hstep)

omit hD in
theorem detach_keeps (hnodup : ns.Nodup) (hns : ∀ n ∈ ns, ∃ i ∈ e.pending, i.seq = n) :
    D.Keeps registry (EngineM.detach ns) e
      fun _ e' => e.Drops (fun n => ns.contains n) e' := by
  obtain ⟨e', hrun⟩ := EngineM.detach_ok hnodup hns
  have hdrops := EngineM.detach_eq_ok hrun
  have hwatch : Engine.Watchful registry none e' := by
    have hafter := Engine.History.watchful_detach h.watchful ns
    rwa [endState_of_ok hrun] at hafter
  have hstore : e.store.Proceeds D.part e'.store := by
    rw [hdrops.store_eq]
    exact .refl h.store_valid
  refine .of_eq_ok hrun ⟨h.proceeds hwatch hstore ?_, hstore, hdrops⟩
  intro i hi
  rw [hdrops.waiting_eq] at hi
  exact (mem_filter.1 hi).1

theorem finish_keeps :
    D.Keeps registry (EngineM.finish registry) e fun _ e' => e'.pending = [] := by
  unfold EngineM.finish
  apply (propagate_keeps hD h).bind
  rintro _ e₁ ⟨hgov, hproceeds, -⟩
  apply Ends.get_bind
  cases hpending : e₁.pending with
  | nil => exact .pure ⟨hgov, hproceeds, hpending⟩
  | cons i rest =>
    have hi : i.asleep ∈ e₁.waiting := by
      unfold Engine.waiting
      rw [hpending]
      exact .head _
    have hruns := hgov.runs _ hi
    obtain ⟨site, horigin, hsite⟩ := hruns.origin
    obtain ⟨e₂, hrun, hpeeks⟩ :=
      EngineM.resolveAll_ok hgov.store_valid fun a ha => (hruns.slots a ha).1
    refine .of_eq_error (bind_of_ok hrun) ?_
    apply hD.blames
    apply Store.blames_of_site hsite horigin
    · exact forall_mem_nil _
    · exact Issue.fits_of_holes 1 (by cbv) rfl

theorem bind_param_keeps {c : Cell} {p : TypeParam} (hc : D.Fair e.store (.cell c))
    (hfree : e.store.value c = .cell c) :
    D.Keeps registry (EngineM.onStore (StoreM.bind (.cell c) (.param p) site)) e
      fun _ e' => e.store.Binds c (.param p) e'.store := by
  have hvalid := h.store_valid
  have htop : e.store.top (.cell c) = .cell c := hvalid.peek_of_value hfree
  have hparam : e.store.resolve (.param p) = .param p := by
    rw [Store.resolve_eq]
    rfl
  apply onStore_keeps h (P := fun _ s' => e.store.Binds c (.param p) s')
  have ho := StoreM.bind_outcome hvalid (.cell c) (.param p) site
  generalize hrun : StoreM.bind (.cell c) (.param p) site e.store = res at ho
  cases ho with
  | foreign hforeign =>
    rcases hforeign with hforeign | hforeign
    · rw [hc.1] at hforeign
      cases hforeign
    · cases hforeign
  | notFree hcell =>
    rw [htop] at hcell
    cases hcell
  | already _ hcell => cases hcell
  | occurs _ _ hmem =>
    rw [hparam] at hmem
    cases hmem
  | binds hr hbinds =>
    rw [htop] at hr
    cases hr
    have hcell : D.part (.cell c) := by
      have hholds := hc.2.top
      change D.part (e.store.value c) at hholds
      rwa [hfree] at hholds
    refine .of_eq_ok hrun ⟨⟨⟨_, hbinds.tells hvalid⟩, hbinds.within hD.steady hcell ?_⟩, hbinds⟩
    exact (Fair.param hD p).2

end

end

end Discipline

end TensorTyping
