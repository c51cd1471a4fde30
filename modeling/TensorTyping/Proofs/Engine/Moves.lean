import TensorTyping.Engine
import TensorTyping.Proofs.Relation.Refinement
import TensorTyping.Proofs.Unify.Agreement

/-!
# What an engine can do

Whatever an engine does, its store only moves on to later ones. Of the instances that wait, either
all go on waiting (`Rests`), or one is discharged because its rule has come to a conclusion and the
output slot has been made to agree with it (`Settles`). Which instances are dirty, queued or
watching is bookkeeping that makes no difference to either.

An instance that is discharged is satisfied from then on, since a conclusion is kept when more is
known of the slots and so is agreement.
-/
namespace TensorTyping

open List

variable {s : Store} {n : Nat} {e₁ : Engine} {j : Instance}

namespace Instance

def asleep (i : Instance) : Instance := { i with dirty := false }

/-- The rule of an instance holds of its resolved slots, with a type for its output slot that
agrees with what the slot has become. -/
def Satisfied (registry : Registry) (s : Store) (i : Instance) : Prop :=
  ∃ entry slot t arg, registry.lookup i.relation.name i.origin = .ok entry ∧
    (∀ a ∈ i.relation.args, s.ownsAll a = true) ∧
    entry.rule.verdict (i.relation.args.map s.resolve) i.attrs = .ok (.holds slot t) ∧
    i.relation.args[slot]? = some arg ∧ t.agree (s.resolve arg) = true

theorem Satisfied.later {registry : Registry} {s' : Store} {i : Instance}
    (h : i.Satisfied registry s) (hs : s.Extends s') : i.Satisfied registry s' := by
  obtain ⟨entry, slot, t, arg, hentry, howned, hholds, harg, hagree⟩ := h
  refine ⟨entry, slot, t.mapCells s'.value, arg, hentry, fun a ha => hs.ownsAll (howned a ha), ?_,
    harg, ?_⟩
  · rw [hs.map_resolve]
    exact Rule.verdict_mapCells hholds
  · rw [hs.resolve_eq]
    exact Ty.agree_mapCells _ hagree

end Instance

namespace Engine

variable {e e' : Engine} {i : Instance}

/-- The instances not yet discharged, whether or not they are in the queue. -/
def waiting (e : Engine) : List Instance := e.pending.map Instance.asleep

/-- An engine whose instances are numbered in the order of addition. -/
structure Valid (e : Engine) : Prop where
  store : e.store.Valid
  ordered : (e.waiting.map Instance.seq).Pairwise (· < ·)
  bounded : ∀ i ∈ e.waiting, i.seq ≤ e.added

structure Rests (e e' : Engine) : Prop where
  evolves : e.store.Evolves e'.store
  waiting_eq : e'.waiting = e.waiting
  added_eq : e'.added = e.added

/-- The instance `i` is discharged, because its rule holds of its resolved slots and its output
slot has been made to agree with the conclusion. -/
structure Settles (registry : Registry) (i : Instance) (e e' : Engine) : Prop where
  evolves : e.store.Evolves e'.store
  waiting_eq : e'.waiting = e.waiting.filter fun j => j.seq != i.seq
  added_eq : e'.added = e.added
  waits : i ∈ e.waiting
  holds : ∃ entry slot t arg, registry.lookup i.relation.name i.origin = .ok entry ∧
    (∀ a ∈ i.relation.args, e.store.ownsAll a = true) ∧
    entry.rule.verdict (i.relation.args.map e.store.resolve) i.attrs = .ok (.holds slot t) ∧
    i.relation.args[slot]? = some arg ∧ e'.store.Agrees (arg, t)

theorem Rests.refl (h : e.store.Valid) : e.Rests e := ⟨.refl h, rfl, rfl⟩

theorem Rests.trans {e'' : Engine} (h : e.Rests e') (h' : e'.Rests e'') : e.Rests e'' :=
  ⟨h.evolves.trans h'.evolves, h'.waiting_eq.trans h.waiting_eq, h'.added_eq.trans h.added_eq⟩

theorem Rests.valid (h : e.Rests e') (he : e.Valid) : e'.Valid where
  store := h.evolves.valid
  ordered := by rw [h.waiting_eq]; exact he.ordered
  bounded := by rw [h.waiting_eq, h.added_eq]; exact he.bounded

theorem Valid.of_filter {p : Instance → Bool} (he : e.Valid) (hs : e'.store.Valid)
    (hw : e'.waiting = e.waiting.filter p) (ha : e'.added = e.added) : e'.Valid where
  store := hs
  ordered := hw ▸ he.ordered.sublist (filter_sublist.map _)
  bounded := by
    rw [hw, ha]
    exact fun i hi => he.bounded i (mem_of_mem_filter hi)

theorem Settles.valid {registry : Registry} (h : Settles registry i e e') (he : e.Valid) :
    e'.Valid :=
  he.of_filter h.evolves.valid h.waiting_eq h.added_eq

theorem Settles.satisfied {registry : Registry} (h : Settles registry i e e') :
    i.Satisfied registry e'.store := by
  obtain ⟨entry, slot, t, arg, hentry, howned, hholds, harg, hagree⟩ := h.holds
  have hs := h.evolves.later
  refine ⟨entry, slot, t.mapCells e'.store.value, arg, hentry,
    fun a ha => hs.ownsAll (howned a ha), ?_, harg, ?_⟩
  · rw [hs.map_resolve]
    exact Rule.verdict_mapCells hholds
  · rw [← e'.store.resolve_eq, Ty.agree_comm]
    exact hagree

theorem Valid.eq_of_seq (h : e.Valid) (hi : i ∈ e.waiting) (hj : j ∈ e.waiting)
    (hij : i.seq = j.seq) : i = j := by
  have hnodup : (e.waiting.map Instance.seq).Nodup := h.ordered.imp Nat.ne_of_lt
  exact inj_on_of_nodup_map hnodup hi hj hij

/-- The engines differ at most in their queues and watchers. -/
structure SameWork (e e' : Engine) : Prop where
  store_eq : e'.store = e.store
  waiting_eq : e'.waiting = e.waiting
  added_eq : e'.added = e.added

namespace SameWork

variable {e e' e'' : Engine}

theorem refl (e : Engine) : e.SameWork e := ⟨rfl, rfl, rfl⟩

theorem trans (h : e.SameWork e') (h' : e'.SameWork e'') : e.SameWork e'' :=
  ⟨h'.store_eq.trans h.store_eq, h'.waiting_eq.trans h.waiting_eq, h'.added_eq.trans h.added_eq⟩

theorem rests (h : e.SameWork e') (hs : e.store.Valid) : e.Rests e' :=
  ⟨by rw [h.store_eq]; exact .refl hs, h.waiting_eq, h.added_eq⟩

theorem foldl {α : Type} {f : Engine → α → Engine} (hf : ∀ (e : Engine) a, e.SameWork (f e a))
    (as : List α) (e : Engine) : e.SameWork (as.foldl f e) := by
  induction as generalizing e with
  | nil => exact .refl e
  | cons a as ih => exact (hf e a).trans (ih (f e a))

end SameWork

theorem setDirty_sameWork (e : Engine) (n : Nat) (b : Bool) : e.SameWork (e.setDirty n b) := by
  refine ⟨rfl, ?_, rfl⟩
  simp only [waiting, setDirty, map_map]
  refine map_congr_left fun i _ => ?_
  simp only [Function.comp_apply]
  split <;> rfl

theorem wake_sameWork (e : Engine) (n : Nat) : e.SameWork (e.wake n) := by
  unfold wake
  split
  · split
    · exact .refl e
    · exact (e.setDirty_sameWork n true).trans ⟨rfl, rfl, rfl⟩
  · exact .refl e

theorem hear_sameWork (e : Engine) (root : Nat) : e.SameWork (e.hear root) := by
  have hwake := SameWork.foldl wake_sameWork
    (e.watchers.filterMap fun w => if w.1 == root then some w.2 else none)
    { e with watchers := e.watchers.filter fun w => w.1 != root }
  exact ⟨hwake.store_eq, hwake.waiting_eq, hwake.added_eq⟩

theorem watch_sameWork (e : Engine) (n root : Nat) : e.SameWork (e.watch n root) := by
  unfold watch
  split <;> exact ⟨rfl, rfl, rfl⟩

theorem waiting_discharge (e : Engine) (n : Nat) :
    (e.discharge n).waiting = e.waiting.filter fun i => i.seq != n := by
  simp only [waiting, discharge, filter_map]
  rfl

theorem mem_waiting_of_instance? (h : e.instance? n = some i) : i.asleep ∈ e.waiting ∧ i.seq = n :=
  ⟨mem_map_of_mem (mem_of_find?_eq_some h), by simpa using find?_some h⟩

def moved (e : Engine) (s : Store) : Engine :=
  (s.heardSince e.store.trail.size).foldl hear { e with store := s }

theorem moved_rests (h : e.store.Evolves s) : e.Rests (e.moved s) := by
  have hw := SameWork.foldl hear_sameWork (s.heardSince e.store.trail.size) { e with store := s }
  exact ⟨by rw [moved, hw.store_eq]; exact h, hw.waiting_eq, hw.added_eq⟩

theorem store_moved (e : Engine) (s : Store) : (e.moved s).store = s :=
  (SameWork.foldl hear_sameWork (s.heardSince e.store.trail.size) { e with store := s }).store_eq

end Engine

namespace EngineM

open Engine

variable {α : Type} {registry : Registry} {e e' : Engine}
variable {i : Instance} {slot : Nat} {t : Ty}
variable {a : α} {act : StoreM α}

theorem onStore_of_ok (h : act e.store = .ok a s) : onStore act e = .ok a (e.moved s) := by
  simp only [onStore, h]
  rfl

theorem onStore_of_error {f : Fault} (h : act e.store = .error f s) :
    onStore act e = .error f (e.moved s) := by
  simp only [onStore, h]
  rfl

theorem onStore_eq_ok (h : onStore act e = .ok a e') : act e.store = .ok a e'.store := by
  cases hact : act e.store with
  | ok b s =>
    obtain ⟨rfl, rfl⟩ : b = a ∧ e.moved s = e' := by simpa [onStore_of_ok hact] using h
    rw [store_moved]
  | error f s => simp [onStore_of_error hact] at h

theorem endState_onStore (act : StoreM α) (e : Engine) :
    endState (onStore act) e = e.moved (endState act e.store) := by
  cases h : act e.store with
  | ok a s => rw [endState_of_ok (onStore_of_ok h), endState_of_ok h]
  | error f s => rw [endState_of_error (onStore_of_error h), endState_of_error h]

theorem endState_blaming (site : Option Phrase) (act : EngineM α) (e : Engine) :
    endState (blaming site act) e = endState act e := by
  unfold endState blaming
  cases act e <;> rfl

theorem blaming_eq_ok {site : Option Phrase} {act : EngineM α} :
    blaming site act e = .ok a e' ↔ act e = .ok a e' := by
  unfold blaming
  cases act e <;> simp

theorem ofExcept_eq_ok {x : Except Fault α} : ofExcept x e = .ok a e' ↔ x = .ok a ∧ e = e' := by
  cases x <;> simp [ofExcept, pure, EStateM.pure, throw_run]

theorem resolveAll_rests (h : e.store.Valid) (ts : List Ty) :
    e.Rests (endState (resolveAll ts) e) := by
  induction ts generalizing e with
  | nil => exact .refl h
  | cons t ts ih =>
    have hmoved := moved_rests (StoreM.resolve_kept h t).evolves
    rw [← endState_onStore] at hmoved
    refine endState_bind .trans hmoved fun u e₁ hu => ?_
    rw [endState_of_ok hu] at hmoved
    have htail := ih hmoved.evolves.valid
    refine endState_bind .trans htail fun us e₂ hus => ?_
    rw [endState_of_ok hus] at htail
    exact .refl htail.evolves.valid

theorem resolveAll_eq_ok (h : e.store.Valid) {ts us : List Ty}
    (hrun : resolveAll ts e = .ok us e') :
    us = ts.map e.store.resolve ∧ (∀ t ∈ ts, e.store.ownsAll t = true) ∧
      e.store.Kept e'.store := by
  induction ts generalizing e us with
  | nil =>
    obtain ⟨rfl, rfl⟩ : [] = us ∧ e = e' := by
      simpa [resolveAll, pure, EStateM.pure] using hrun
    exact ⟨rfl, by simp, .refl h⟩
  | cons t ts ih =>
    obtain ⟨u, e₁, hu, hrun⟩ := bind_eq_ok hrun
    obtain ⟨us', e₂, hus, hrun⟩ := bind_eq_ok hrun
    obtain ⟨rfl, rfl⟩ : u :: us' = us ∧ e₂ = e' := by simpa [pure, EStateM.pure] using hrun
    cases ht : e.store.ownsAll t with
    | false =>
      obtain ⟨s, hs, _⟩ := StoreM.resolve_foreign h ht
      simp [onStore_of_error hs] at hu
    | true =>
      obtain ⟨s, hs, hk⟩ := StoreM.resolve_ok h ht
      rw [onStore_of_ok hs] at hu
      obtain ⟨rfl, rfl⟩ : e.store.resolve t = u ∧ e.moved s = e₁ := by simpa using hu
      rw [← store_moved e s] at hk
      obtain ⟨rfl, howned, hk'⟩ := ih hk.valid hus
      refine ⟨?_, ?_, hk.trans hk'⟩
      · simp [hk.view.resolve_eq]
      · refine forall_mem_cons.2 ⟨ht, fun a ha => ?_⟩
        rw [← hk.view.ownsAll_eq]
        exact howned a ha

theorem watchAll_rests (h : e.store.Valid) (n : Nat) (ts : List Ty) :
    e.Rests (endState (watchAll n ts) e) := by
  induction ts generalizing e with
  | nil => exact .refl h
  | cons t ts ih =>
    have hmoved := moved_rests (StoreM.freeCells_kept h t).evolves
    rw [← endState_onStore] at hmoved
    refine endState_bind .trans hmoved fun cells e₁ hcells => ?_
    rw [endState_of_ok hcells] at hmoved
    have hwatch := (SameWork.foldl (fun e (c : Cell) => watch_sameWork e n c.index) cells
      e₁).rests hmoved.evolves.valid
    exact hwatch.trans (ih hwatch.evolves.valid)

theorem assign_of_some {arg : Ty} (h : i.relation.args[slot]? = some arg) :
    assign i slot t = onStore (StoreM.unify arg t i.origin) := by
  simp only [assign, h]

theorem assign_of_none (h : i.relation.args[slot]? = none) :
    assign i slot t = throw .missingSlot := by
  simp only [assign, h]

theorem assign_rests (h : e.store.Valid) (i : Instance) (slot : Nat) (t : Ty) :
    e.Rests (endState (assign i slot t) e) := by
  cases harg : i.relation.args[slot]? with
  | some arg =>
    rw [assign_of_some harg, endState_onStore]
    exact moved_rests (StoreM.unify_evolves h arg t i.origin)
  | none =>
    rw [assign_of_none harg]
    exact .refl h

theorem assign_eq_ok (h : e.store.Valid) (hrun : assign i slot t e = .ok () e') :
    ∃ arg, i.relation.args[slot]? = some arg ∧ e'.store.Agrees (arg, t) := by
  cases harg : i.relation.args[slot]? with
  | some arg =>
    refine ⟨arg, rfl, ?_⟩
    rw [assign_of_some harg] at hrun
    have hunify := onStore_eq_ok hrun
    have hevolves := StoreM.unify_evolves h arg t i.origin
    rw [endState_of_ok hunify] at hevolves
    exact StoreM.unify_agrees h hunify (.refl hevolves.valid)
  | none =>
    rw [assign_of_none harg] at hrun
    simp [throw_run] at hrun

/-- Everything that can come of trying the instance `i`. -/
inductive AttemptOutcome (registry : Registry) (i : Instance) (e : Engine) :
    EStateM.Result Fault Engine Unit → Prop
  | stops {f : Fault} {e' : Engine} : e.Rests e' → AttemptOutcome registry i e (.error f e')
  | sleeps {e' : Engine} : e.Rests e' → AttemptOutcome registry i e (.ok () e')
  | settles {e' : Engine} : Settles registry i e e' → AttemptOutcome registry i e (.ok () e')

theorem AttemptOutcome.of_rests {act : EngineM Unit} (h : e.Rests (endState act e₁)) :
    AttemptOutcome registry i e (act e₁) := by
  unfold endState at h
  cases hact : act e₁ with
  | ok u e' =>
    rw [hact] at h
    exact .sleeps h
  | error f e' =>
    rw [hact] at h
    exact .stops h

theorem attempt_holds {entry : RelationEntry} (hi : i ∈ e.waiting) (hrests : e.Rests e₁)
    (hentry : registry.lookup i.relation.name i.origin = .ok entry)
    (howned : ∀ a ∈ i.relation.args, e.store.ownsAll a = true)
    (hholds : entry.rule.verdict (i.relation.args.map e.store.resolve) i.attrs =
      .ok (.holds slot t)) :
    AttemptOutcome registry i e ((do
      blaming i.origin (assign i slot t)
      modify fun e => e.discharge i.seq : EngineM Unit) e₁) := by
  have hassign := assign_rests hrests.evolves.valid i slot t
  rw [← endState_blaming i.origin] at hassign
  cases hrun : blaming i.origin (assign i slot t) e₁ with
  | error f e₂ =>
    rw [endState_of_error hrun] at hassign
    rw [bind_of_error hrun]
    exact .stops (hrests.trans hassign)
  | ok u e₂ =>
    rw [endState_of_ok hrun] at hassign
    rw [bind_of_ok hrun]
    obtain ⟨arg, harg, hagree⟩ := assign_eq_ok hrests.evolves.valid (blaming_eq_ok.1 hrun)
    have hto := hrests.trans hassign
    exact .settles
      { evolves := hto.evolves
        waiting_eq := by rw [waiting_discharge, hto.waiting_eq]
        added_eq := hto.added_eq
        waits := hi
        holds := ⟨entry, slot, t, arg, hentry, howned, hholds, harg, hagree⟩ }

theorem attempt_outcome (h : e.store.Valid) (hi : i ∈ e.waiting) :
    AttemptOutcome registry i e (attempt registry i e) := by
  unfold attempt
  cases hentry : registry.lookup i.relation.name i.origin with
  | error f => exact .stops (.refl h)
  | ok entry =>
    rw [bind_of_ok (ofExcept_eq_ok.2 ⟨rfl, rfl⟩)]
    have hresolve := resolveAll_rests h i.relation.args
    cases htypes : resolveAll i.relation.args e with
    | error f e₁ =>
      rw [endState_of_error htypes] at hresolve
      rw [bind_of_error htypes]
      exact .stops hresolve
    | ok types e₁ =>
      rw [endState_of_ok htypes] at hresolve
      rw [bind_of_ok htypes]
      obtain ⟨rfl, howned, _⟩ := resolveAll_eq_ok h htypes
      cases hv : entry.rule.verdict (i.relation.args.map e.store.resolve) i.attrs with
      | error f => exact .stops hresolve
      | ok verdict =>
        rw [bind_of_ok (blaming_eq_ok.2 (ofExcept_eq_ok.2 ⟨rfl, rfl⟩))]
        cases verdict with
        | holds slot t => exact attempt_holds hi hresolve hentry howned hv
        | fails =>
          -- The slots are resolved once more for the report, and nothing else happens.
          refine .of_rests (hresolve.trans (endState_bind .trans ?_ fun final e₂ hfinal => ?_))
          · exact resolveAll_rests hresolve.evolves.valid i.relation.args
          · have hagain := resolveAll_rests hresolve.evolves.valid i.relation.args
            rw [endState_of_ok hfinal] at hagain
            exact .refl hagain.evolves.valid
        | indeterminate =>
          exact .of_rests (hresolve.trans (watchAll_rests hresolve.evolves.valid i.seq _))

end EngineM

namespace Engine

def Moves (registry : Registry) (e e' : Engine) : Prop :=
  e.Rests e' ∨ ∃ i, Settles registry i e e'

def Advances (registry : Registry) : Engine → Engine → Prop :=
  Relation.ReflTransGen (Moves registry)

variable {registry : Registry} {e e' : Engine}

section

variable (h : Moves registry e e')

include h

theorem Moves.valid (he : e.Valid) : e'.Valid := by
  rcases h with h | ⟨i, h⟩
  · exact h.valid he
  · exact h.valid he

theorem Moves.evolves : e.store.Evolves e'.store := by
  rcases h with h | ⟨i, h⟩
  · exact h.evolves
  · exact h.evolves

theorem Moves.added_eq : e'.added = e.added := by
  rcases h with h | ⟨i, h⟩
  · exact h.added_eq
  · exact h.added_eq

theorem Moves.mem_waiting (he : e.Valid) (hj : j ∈ e.waiting) :
    j ∈ e'.waiting ∨ Settles registry j e e' := by
  rcases h with h | ⟨i, h⟩
  · exact .inl (h.waiting_eq ▸ hj)
  · by_cases hij : j.seq = i.seq
    · exact .inr (he.eq_of_seq hj h.waits hij ▸ h)
    · refine .inl ?_
      rw [h.waiting_eq]
      exact mem_filter.2 ⟨hj, by simpa using hij⟩

theorem Moves.waiting_sublist : e'.waiting.Sublist e.waiting := by
  rcases h with h | ⟨i, h⟩
  · rw [h.waiting_eq]
  · rw [h.waiting_eq]
    exact filter_sublist

end

theorem SameWork.moves (h : e.SameWork e₁) (hm : Moves registry e₁ e') : Moves registry e e' := by
  rcases hm with hr | ⟨i, hs⟩
  · exact .inl ⟨h.store_eq ▸ hr.evolves, hr.waiting_eq.trans h.waiting_eq,
      hr.added_eq.trans h.added_eq⟩
  · exact .inr ⟨i,
      { evolves := h.store_eq ▸ hs.evolves
        waiting_eq := by rw [hs.waiting_eq, h.waiting_eq]
        added_eq := hs.added_eq.trans h.added_eq
        waits := h.waiting_eq ▸ hs.waits
        holds := h.store_eq ▸ hs.holds }⟩

section

variable (h : Advances registry e e')

include h

theorem Advances.valid (he : e.Valid) : e'.Valid := by
  induction h with
  | refl => exact he
  | tail _ hm ih => exact hm.valid ih

theorem Advances.evolves (he : e.Valid) : e.store.Evolves e'.store := by
  induction h with
  | refl => exact .refl he.store
  | tail _ hm ih => exact ih.trans hm.evolves

theorem Advances.added_eq : e'.added = e.added := by
  induction h with
  | refl => rfl
  | tail _ hm ih => exact hm.added_eq.trans ih

theorem Advances.waiting_sublist : e'.waiting.Sublist e.waiting := by
  induction h with
  | refl => exact .refl _
  | tail _ hm ih => exact hm.waiting_sublist.trans ih

theorem Advances.mem_waiting (he : e.Valid) {i : Instance} (hi : i ∈ e.waiting) :
    i ∈ e'.waiting ∨ i.Satisfied registry e'.store := by
  induction h with
  | refl => exact .inl hi
  | tail ha hm ih =>
    rcases ih with hw | hsat
    · rcases hm.mem_waiting (Advances.valid ha he) hw with hw | hset
      · exact .inl hw
      · exact .inr hset.satisfied
    · exact .inr (hsat.later hm.evolves.later)

end

end Engine

namespace EngineM

open Engine

variable {registry : Registry} {e e' : Engine}
variable {rest : List Nat}

theorem attempt_moves {i : Instance} (h : e.store.Valid) (hi : i ∈ e.waiting) :
    Moves registry e (endState (attempt registry i) e) := by
  have ho : AttemptOutcome registry i e (attempt registry i e) := attempt_outcome h hi
  unfold endState
  generalize attempt registry i e = res at ho
  cases ho with
  | stops hr => exact .inl hr
  | sleeps hr => exact .inl hr
  | settles hs => exact .inr ⟨i, hs⟩

theorem step_nil (h : e.queue = []) : step registry e = .ok false e := by
  unfold step
  rw [get_bind, h]
  rfl

theorem step_idle (hq : e.queue = n :: rest)
    (hi : ∀ i, ({ e with queue := rest } : Engine).instance? n = some i → i.dirty = false) :
    step registry e = .ok true { e with queue := rest } := by
  unfold step
  rw [get_bind, hq]
  cases h : ({ e with queue := rest } : Engine).instance? n with
  | none =>
    simp only
    rw [modify_bind, get_bind, h]
    rfl
  | some i =>
    simp only
    rw [modify_bind, get_bind, h]
    simp only [hi i h]
    rfl

theorem step_dirty {i : Instance} (hq : e.queue = n :: rest)
    (hi : ({ e with queue := rest } : Engine).instance? n = some i) (hd : i.dirty = true) :
    step registry e = (do attempt registry i.asleep; return true)
      (({ e with queue := rest } : Engine).setDirty n false) := by
  unfold step
  rw [get_bind, hq]
  simp only
  rw [modify_bind, get_bind, hi]
  simp only [hd]
  rfl

def taken (e : Engine) (n : Nat) (rest : List Nat) : Engine :=
  ({ e with queue := rest } : Engine).setDirty n false

theorem taken_sameWork (e : Engine) (n : Nat) (rest : List Nat) : e.SameWork (taken e n rest) := by
  have hpop : e.SameWork { e with queue := rest } := ⟨rfl, rfl, rfl⟩
  exact hpop.trans (setDirty_sameWork _ n false)

/-- A step finds the queue empty, or it takes a number from it. Then either nobody of that number is
dirty, or the instance is tried. -/
theorem step_cases (registry : Registry) (e : Engine) :
    e.queue = [] ∧ step registry e = .ok false e ∨
      (∃ n rest, e.queue = n :: rest ∧ (∀ i, e.instance? n = some i → i.dirty = false) ∧
        step registry e = .ok true { e with queue := rest }) ∨
      ∃ n rest i, e.queue = n :: rest ∧ e.instance? n = some i ∧ i.dirty = true ∧
        step registry e = (do attempt registry i.asleep; return true) (taken e n rest) := by
  cases hq : e.queue with
  | nil => exact .inl ⟨rfl, step_nil hq⟩
  | cons n rest =>
    by_cases hidle : ∀ i, e.instance? n = some i → i.dirty = false
    · exact .inr (.inl ⟨n, rest, rfl, hidle, step_idle hq hidle⟩)
    · simp only [not_forall, Bool.not_eq_false] at hidle
      obtain ⟨i, hi, hd⟩ := hidle
      exact .inr (.inr ⟨n, rest, i, rfl, hi, hd, step_dirty hq hi hd⟩)

theorem step_moves (h : e.Valid) : Moves registry e (endState (step registry) e) := by
  obtain ⟨-, hstep⟩ | ⟨n, rest, -, -, hstep⟩ | ⟨n, rest, i, -, hi, -, hstep⟩ :=
    step_cases registry e
  · rw [endState_of_ok hstep]
    exact .inl (.refl h.store)
  · have hsame : e.SameWork { e with queue := rest } := ⟨rfl, rfl, rfl⟩
    rw [endState_of_ok hstep]
    exact .inl (hsame.rests h.store)
  · have hclean := taken_sameWork e n rest
    have hw : i.asleep ∈ (taken e n rest).waiting := by
      rw [hclean.waiting_eq]
      exact (mem_waiting_of_instance? hi).1
    refine hclean.moves ?_
    have hm : Moves registry _ (endState (attempt registry i.asleep) _) :=
      attempt_moves (hclean.store_eq ▸ h.store) hw
    rw [← endState_bind_pure _ fun _ => true] at hm
    unfold endState at hm ⊢
    rw [hstep]
    exact hm

theorem propagateWithin_advances (h : e.Valid) (fuel : Nat) :
    Advances registry e (endState (propagateWithin registry fuel) e) := by
  induction fuel generalizing e with
  | zero =>
    unfold propagateWithin endState
    rw [get_bind]
    cases e.queue.isEmpty <;> exact .refl
  | succ fuel ih =>
    have hstep : Moves registry e (endState (step registry) e) := step_moves h
    refine endState_bind .trans (.single hstep) fun more e₁ hrun => ?_
    rw [endState_of_ok hrun] at hstep
    cases more with
    | false => exact .refl
    | true => exact ih (hstep.valid h)

theorem propagate_advances (h : e.Valid) :
    Advances registry e (endState (propagate registry) e) := by
  have hrun : propagate registry e = propagateWithin registry e.attempts e := rfl
  unfold endState
  rw [hrun]
  exact propagateWithin_advances h e.attempts

end EngineM

end TensorTyping
