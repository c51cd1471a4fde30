import TensorTyping.Proofs.Engine.Wakeups

/-!
# How many instances are tried

Propagation goes on for as long as there are numbers in the queue. A trial that cannot tell yet
binds nothing, so that nobody is woken and one instance less is dirty. A trial that holds may wake
everyone else, but then one instance less is pending. Among `P` pending instances at most `P` are
dirty at first, and at most `P - 1`, then `P - 2`, and so on, are woken later, which bounds the
number of trials by `P * (P + 1) / 2`.

For this the queue has to be in order when propagation begins, which it is after any operations,
also after some that stopped with a fault.
-/
namespace TensorTyping

open List

namespace EngineM

open Engine

variable {α β : Type} {registry : Registry} {e e' : Engine}

instance : Std.Refl fun e e' : Engine => e.Tidy → e'.Tidy := ⟨fun _ h => h⟩

instance : Trans (fun e e' : Engine => e.Tidy → e'.Tidy) (fun e e' : Engine => e.Tidy → e'.Tidy)
    fun e e' : Engine => e.Tidy → e'.Tidy := ⟨fun h h' ht => h' (h ht)⟩

/-- The computation leaves the queue and the trail in order, however it ends. -/
abbrev Tidies (act : EngineM α) : Prop := Leads (fun e e' => e.Tidy → e'.Tidy) act

namespace Tidies

protected theorem blaming {act : EngineM α} (hact : Tidies act) (site : Option Phrase) :
    Tidies (blaming site act) := fun e h => by
  rw [endState_blaming]
  exact hact e h

protected theorem ofExcept (x : Except Fault α) : Tidies (ofExcept x) := by
  cases x with
  | ok a => exact .pure a
  | error f => exact .throw f

protected theorem onStore {act : StoreM α}
    (hact : ∀ s : Store, s.Valid → ∃ heard, s.Tells heard (endState act s)) :
    Tidies (onStore act) := fun e h => by
  obtain ⟨heard, htells⟩ := hact e.store h.orderly.valid.store
  rw [endState_onStore]
  exact h.moved htells

theorem resolveAll (ts : List Ty) : Tidies (resolveAll ts) := by
  induction ts with
  | nil => exact .pure []
  | cons t ts ih =>
    refine .bind (Tidies.onStore fun s h => ⟨_, (StoreM.resolve_kept h t).tells⟩) fun u => ?_
    exact ih.bind fun us => .pure _

theorem watchAll (n : Nat) (ts : List Ty) : Tidies (watchAll n ts) := by
  induction ts with
  | nil => exact .pure ()
  | cons t ts ih =>
    refine .bind (Tidies.onStore fun s h => ⟨_, (StoreM.freeCells_kept h t).tells⟩) fun cells => ?_
    refine .bind (fun e h => ?_) fun _ => ih
    exact h.eyes (foldl_watch_eyes h.orderly.valid.store n cells).1

theorem assign (i : Instance) (slot : Nat) (t : Ty) : Tidies (assign i slot t) := by
  cases harg : i.relation.args[slot]? with
  | some arg =>
    rw [assign_of_some harg]
    exact .onStore fun s h => (StoreM.unify_narrows h arg t i.origin).2
  | none =>
    rw [assign_of_none harg]
    exact .throw _

theorem attempt (registry : Registry) (i : Instance) : Tidies (attempt registry i) := by
  rw [attempt_eq]
  refine .bind (Tidies.ofExcept _) fun entry => .bind (resolveAll _) fun types => ?_
  refine .bind (Tidies.blaming (Tidies.ofExcept _) _) fun verdict => ?_
  cases verdict with
  | holds slot t => exact .bind (Tidies.blaming (assign i slot t) _) fun _ e h => h.discharge i.seq
  | fails => exact .bind (resolveAll _) fun _ => .throw _
  | indeterminate => exact watchAll i.seq _

theorem step (registry : Registry) : Tidies (step registry) := fun e h => by
  obtain ⟨-, hstep⟩ | ⟨n, rest, hq, hidle, hstep⟩ | ⟨n, rest, i, hq, -, -, hstep⟩ :=
    step_cases registry e
  · rw [endState_of_ok hstep]
    exact h
  · rw [endState_of_ok hstep]
    exact h.dropped hq hidle
  · have htried := (attempt registry i.asleep).bind (fun _ => .pure true) _ (h.taken hq)
    unfold endState at htried ⊢
    rwa [hstep]

theorem propagateWithin (registry : Registry) (fuel : Nat) :
    Tidies (propagateWithin registry fuel) := by
  induction fuel with
  | zero =>
    refine Leads.get.bind fun e => ?_
    split
    · exact .pure ()
    · exact .throw _
  | succ fuel ih =>
    refine (step registry).bind fun more => ?_
    cases more with
    | true => exact ih
    | false => exact .pure ()

theorem propagate (registry : Registry) : Tidies (propagate registry) :=
  Leads.get.bind fun e => propagateWithin registry e.attempts

theorem detach (ns : List Nat) : Tidies (detach ns) := by
  induction ns with
  | nil => exact .pure ()
  | cons n ns ih =>
    refine Leads.get.bind fun e => ?_
    cases e.instance? n with
    | none => exact .bind (.throw _) fun _ => ih
    | some i => exact .bind (fun e h => h.discharge n) fun _ => ih

theorem detachNumbered (ns : List Int) : Tidies (detachNumbered ns) := by
  refine .bind (fun e h => ?_) detach
  rw [numbered_state]
  exact h

theorem finish (registry : Registry) : Tidies (finish registry) := by
  refine (propagate registry).bind fun _ => Leads.get.bind fun e => ?_
  cases e.pending with
  | nil => exact .pure ()
  | cons i is => exact .bind (resolveAll _) fun _ => .throw _

end Tidies

/-- The course of propagation from an engine: the numbers of the instances that are tried, one after
the other, and how it ends. -/
inductive Course (registry : Registry) :
    Engine → List Nat → EStateM.Result Fault Engine Unit → Prop
  | ends {e : Engine} : e.queue = [] → Course registry e [] (.ok () e)
  | skips {e : Engine} {n : Nat} {rest tried : List Nat} {r : EStateM.Result Fault Engine Unit} :
      e.queue = n :: rest → (∀ i, e.instance? n = some i → i.dirty = false) →
      Course registry { e with queue := rest } tried r → Course registry e tried r
  | tries {e e₁ : Engine} {n : Nat} {rest tried : List Nat} {i : Instance}
      {r : EStateM.Result Fault Engine Unit} :
      e.queue = n :: rest → e.instance? n = some i → i.dirty = true →
      attempt registry i.asleep (taken e n rest) = .ok () e₁ →
      Course registry e₁ tried r → Course registry e (n :: tried) r
  | stops {e e₁ : Engine} {n : Nat} {rest : List Nat} {i : Instance} {f : Fault} :
      e.queue = n :: rest → e.instance? n = some i → i.dirty = true →
      attempt registry i.asleep (taken e n rest) = .error f e₁ →
      Course registry e [n] (.error f e₁)

theorem propagateWithin_course {fuel : Nat} (h : e.Tidy) (hfuel : e.effort < fuel) :
    ∃ tried, Course registry e tried (propagateWithin registry fuel e) := by
  induction fuel generalizing e with
  | zero => exact absurd hfuel (Nat.not_lt_zero _)
  | succ fuel ih =>
    rw [propagateWithin]
    obtain ⟨hq, hstep⟩ | ⟨n, rest, hq, hidle, hstep⟩ | ⟨n, rest, i, hq, hi, hd, hstep⟩ :=
      step_cases registry e
    · rw [bind_of_ok hstep]
      exact ⟨[], .ends hq⟩
    · have heffort := (h.step hstep).2
      obtain ⟨tried, hcourse⟩ := ih (h.dropped hq hidle) (by omega)
      rw [bind_of_ok hstep]
      exact ⟨tried, .skips hq hidle hcourse⟩
    · cases hrun : attempt registry i.asleep (taken e n rest) with
      | ok _ e₁ =>
        have hstep : step registry e = .ok true e₁ := hstep.trans (bind_of_ok hrun)
        obtain ⟨htidy, heffort⟩ := h.step hstep
        obtain ⟨tried, hcourse⟩ := ih htidy (by omega)
        rw [bind_of_ok hstep]
        exact ⟨n :: tried, .tries hq hi hd hrun hcourse⟩
      | error f e₁ =>
        rw [bind_of_error (hstep.trans (bind_of_error hrun))]
        exact ⟨[n], .stops hq hi hd hrun⟩

end EngineM

namespace Engine

variable {registry : Registry} {e e' : Engine} {i : Instance} {n : Nat}

def dirtyCount (e : Engine) : Nat := e.pending.countP Instance.dirty

theorem dirtyCount_le (e : Engine) : e.dirtyCount ≤ e.pending.length := countP_le_length

theorem dirtyCount_taken (hi : e.instance? n = some i) (hd : i.dirty = true) (rest : List Nat) :
    (EngineM.taken e n rest).dirtyCount < e.dirtyCount := by
  obtain ⟨hmem, rfl⟩ := mem_of_instance? hi
  have hothers : (EngineM.taken e i.seq rest).dirtyCount =
      (e.pending.filter fun j => !(j.seq == i.seq)).countP Instance.dirty := by
    simp only [dirtyCount, EngineM.taken, setDirty, countP_map, countP_filter]
    refine countP_congr fun j _ => ?_
    by_cases hj : j.seq = i.seq <;> simp [hj]
  have hone : 0 < (e.pending.filter fun j => j.seq == i.seq).countP Instance.dirty :=
    countP_pos_iff.2 ⟨i, mem_filter.2 ⟨hmem, by simp⟩, hd⟩
  have hall := e.pending.countP_eq_countP_filter_add Instance.dirty fun j => j.seq == i.seq
  unfold dirtyCount at hothers ⊢
  omega

theorem pending_length (e : Engine) : e.pending.length = e.waiting.length :=
  length_map _ |>.symm

/-- A trial leaves one instance less, or leaves all as they are. -/
theorem pending_of_tries (hi : i ∈ e.waiting) (ht : EngineM.Tries registry i e e') :
    e'.pending.length < e.pending.length ∨ e'.pending = e.pending := by
  cases ht with
  | @settles _ _ _ _ e₁ s _ _ _ _ hpeek hunify =>
    left
    obtain ⟨s₁, hs₁, rfl⟩ := hpeek
    obtain ⟨-, _, htells⟩ := StoreM.narrows_of_unify hs₁.valid hunify
    rw [pending_length, pending_length, waiting_discharge, (moved_rests htells.evolves).waiting_eq]
    exact length_filter_lt_length_iff_exists.2 ⟨i, hi, by simp⟩
  | sleeps _ _ _ heyes _ =>
    right
    rw [heyes.rest_eq]

/-- Twice the number of instances that can still be tried: each of the dirty ones, and all that are
left each time that one is discharged. -/
def trials (e : Engine) : Nat := 2 * e.dirtyCount + e.pending.length * (e.pending.length - 1)

theorem trials_le (e : Engine) : e.trials ≤ e.pending.length * (e.pending.length + 1) := by
  have hle := e.dirtyCount_le
  unfold trials
  generalize e.pending.length = P at hle ⊢
  cases P with
  | zero => omega
  | succ k =>
    have hmul : (k + 1) * (k + 1 + 1) = (k + 1) * k + (k + 1) * 2 := Nat.mul_add (k + 1) k 2
    rw [Nat.add_sub_cancel, hmul]
    omega

theorem trials_of_tries {rest : List Nat} (hi : e.instance? n = some i) (hd : i.dirty = true)
    (ht : EngineM.Tries registry i.asleep (EngineM.taken e n rest) e') :
    e'.trials + 2 ≤ e.trials := by
  have hlength : (EngineM.taken e n rest).pending.length = e.pending.length :=
    length_map _
  have hcount := dirtyCount_taken hi hd rest
  have hwaits : i.asleep ∈ (EngineM.taken e n rest).waiting := by
    rw [(EngineM.taken_sameWork e n rest).waiting_eq]
    exact (mem_waiting_of_instance? hi).1
  rcases pending_of_tries hwaits ht with hlt | heq
  · have hle := e'.trials_le
    have hmul : e'.pending.length * (e'.pending.length + 1) ≤
        (e.pending.length - 1) * e.pending.length :=
      Nat.mul_le_mul (by omega) (by omega)
    rw [Nat.mul_comm (e.pending.length - 1)] at hmul
    unfold trials at hle ⊢
    omega
  · have hsame : e'.dirtyCount = (EngineM.taken e n rest).dirtyCount := by
      rw [dirtyCount, heq, dirtyCount]
    unfold trials
    rw [heq, hlength, hsame]
    omega

end Engine

namespace EngineM

open Engine

variable {registry : Registry}

theorem Course.length_le {e : Engine} {tried : List Nat}
    {r : EStateM.Result Fault Engine Unit} (h : Course registry e tried r) (he : e.Tidy) :
    2 * tried.length ≤ e.trials := by
  induction h with
  | ends => exact Nat.zero_le _
  | skips hq hidle _ ih => exact ih (he.dropped hq hidle)
  | tries hq hi hd hrun _ ih =>
    have htries := attempt_tries (he.taken hq).orderly.valid.store hrun
    have hrest := ih ((he.taken hq).tries htries)
    have hless := trials_of_tries hi hd htries
    rw [length_cons]
    omega
  | @stops e _ _ rest _ _ hq hi hd =>
    have hless := dirtyCount_taken hi hd rest
    unfold trials
    rw [length_singleton]
    omega

end EngineM

namespace Engine.History

variable {registry : Registry}

theorem tidy_after {h : History} (ht : h.engine.Tidy) (op : Operation) :
    (h.after registry op).engine.Tidy := by
  cases op with
  | add r origin attrs =>
    rcases EngineM.add_outcome registry r origin attrs h.engine with ⟨f, hf⟩ | hok
    · simp only [after, hf]
      exact ht
    · simp only [after, hok]
      exact ht.enlist rfl rfl
  | store op => exact EngineM.Tidies.onStore (fun s hs => hs.after_tells op) _ ht
  | propagate => exact EngineM.Tidies.propagate registry _ ht
  | detach ns => exact EngineM.Tidies.detachNumbered ns _ ht
  | mark => exact ht
  | finish => exact EngineM.Tidies.finish registry _ ht

theorem tidy_afterAll {h : History} (ht : h.engine.Tidy) (ops : List Operation) :
    (h.afterAll registry ops).engine.Tidy := by
  induction ops generalizing h with
  | nil => exact ht
  | cons op ops ih => exact ih (tidy_after ht op)

/-- Propagation is quadratic in the number of pending instances. Whatever operations were carried
out on an engine before, also if some of them stopped with a fault, propagation takes a course that
ends, and no course tries more than `P * (P + 1) / 2` instances if `P` are pending. -/
theorem propagate_quadratic (registry : Registry) (serial : Serial) (ops : List Operation) :
    let e := ((start serial).afterAll registry ops).engine
    let P := e.pending.length
    (∃ tried, EngineM.Course registry e tried (EngineM.propagate registry e)) ∧
      ∀ tried r, EngineM.Course registry e tried r → tried.length ≤ P * (P + 1) / 2 := by
  intro e P
  have he : e.Tidy :=
    tidy_afterAll (.start (Store.valid_empty serial) (Store.told_empty serial)) ops
  refine ⟨EngineM.propagateWithin_course he e.effort_lt_attempts, fun tried r hcourse => ?_⟩
  have hlength := hcourse.length_le he
  have hle : e.trials ≤ P * (P + 1) := e.trials_le
  rw [Nat.le_div_iff_mul_le (by decide)]
  omega

end Engine.History

end TensorTyping
