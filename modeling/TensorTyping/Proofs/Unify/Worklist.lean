import Mathlib.Algebra.GroupWithZero.Nat
import TensorTyping.Proofs.Store.Trail
import TensorTyping.Proofs.Unify.MostGeneral

/-!
# The loop of unification ends

The queue of the loop that unification comes to may grow, and binding a cell makes pairs larger that
are in it already. But a turn that binds a cell leaves fewer of them free, and a turn that binds none
leaves a queue whose pairs, as they resolve, are smaller in all. Neither can go on for ever, so the
loop stops: with an empty queue, or at a pair that it refuses (`unify_loop_ends`).
-/
namespace TensorTyping

open List

namespace Ty

/-- There are parts to compare for every form but those of types with identity, and two types with
identity of one form are the same. -/
theorem form_ne_of_parts {x y : Ty} (h : Ty.parts x y = .error .kindMismatch)
    (hsame : x.same y = false) : x.form ≠ y.form := by
  intro hform
  cases x <;> cases y <;> simp only [form, reduceCtorEq, Form.param.injEq, Form.cell.injEq,
    Form.handle.injEq] at hform
  case param.param => simp [same, hform] at hsame
  case cell.cell => simp [same, hform] at hsame
  case handle.handle => simp [same, hform] at hsame
  all_goals
    unfold Ty.parts at h
    repeat' split at h
    all_goals cases h

theorem sizeOf_pos (t : Ty) : 0 < sizeOf t := by
  cases t <;> simp only [tensor.sizeOf_spec, tuple.sizeOf_spec, func.sizeOf_spec, param.sizeOf_spec,
    cell.sizeOf_spec, handle.sizeOf_spec, data.sizeOf_spec] <;> omega

theorem sum_sizeOf_le (ts : List Ty) : (ts.map sizeOf).sum ≤ sizeOf ts := by
  induction ts with
  | nil => exact Nat.zero_le _
  | cons t ts ih =>
    rw [map_cons, sum_cons, List.cons.sizeOf_spec]
    omega

theorem sum_sizeOf_lt_of_parts {f : Cell → Ty} {x y : Ty} {ps : List (Ty × Ty)}
    (hps : Ty.parts x y = .ok ps) :
    (ps.map fun p => sizeOf (p.1.mapCells f)).sum < sizeOf (x.mapCells f) := by
  have hzip {as bs : List Ty} (hlen : as.length = bs.length) :
      ((as.zip bs).map fun p => sizeOf (p.1.mapCells f)).sum ≤ sizeOf (as.map (mapCells f)) := by
    have hfst : (as.zip bs).map (fun p => sizeOf (p.1.mapCells f)) =
        (as.map (mapCells f)).map sizeOf := by
      rw [map_map]
      conv_rhs => rw [← map_fst_zip (Nat.le_of_eq hlen), map_map]
      rfl
    exact hfst ▸ sum_sizeOf_le _
  cases splits_of_parts hps with
  | tensor =>
    rw [map_nil, sum_nil, mapCells, replace, tensor.sizeOf_spec]
    omega
  | tuple hlen =>
    have := hzip hlen
    rw [mapCells_tuple, tuple.sizeOf_spec]
    omega
  | func hlen =>
    have := hzip hlen
    rw [map_append, sum_append, map_singleton, sum_singleton, mapCells_func,
      func.sizeOf_spec]
    dsimp only
    omega
  | data hlen =>
    have := hzip hlen
    rw [mapCells_data, data.sizeOf_spec]
    omega

end Ty

namespace StoreM

open Store

variable {s s' : Store} {site : Option Phrase} {x y : Ty} {ps queue : List (Ty × Ty)}
variable {pairs : List (Ty × Ty)}

/-! ## The loop ends -/

/-- The size of the first sides of the pairs, as they resolve. -/
noncomputable def load (s : Store) (queue : List (Ty × Ty)) : Nat :=
  (queue.map fun p => sizeOf (s.resolve p.1)).sum

theorem load_cons (s : Store) (x y : Ty) (queue : List (Ty × Ty)) :
    load s ((x, y) :: queue) = sizeOf (s.resolve x) + load s queue := by
  rw [load, map_cons, sum_cons, load]

theorem load_append (s : Store) (queue ps : List (Ty × Ty)) :
    load s (queue ++ ps) = load s queue + load s ps := by
  rw [load, map_append, sum_append, load, load]

theorem load_kept (h : s.Kept s') (queue : List (Ty × Ty)) : load s' queue = load s queue := by
  simp only [load, h.view.resolve_eq]

/-- What comes down in every turn: the number of cells that the trail does not tell of, or the
load. -/
noncomputable def remaining (l : Loop) : Nat × Nat :=
  (l.store.size - l.store.trail.size, load l.store l.queue)

/-- One order for both. -/
abbrev Fewer : Nat × Nat → Nat × Nat → Prop := Prod.Lex (· < ·) (· < ·)

theorem unifyPair_told (h : s.Valid) (ht : s.Told) (hrun : unifyPair site x y s = .ok ps s') :
    s'.Valid ∧ s'.Told := by
  obtain ⟨-, heard, htells⟩ := unifyPair_narrows h x y site
  rw [endState_of_ok hrun] at htells
  exact ⟨htells.evolves.valid, htells.told ht⟩

theorem unifyPair_fewer (h : s.Valid) (ht : s.Told) (hrun : unifyPair site x y s = .ok ps s') :
    Fewer (remaining ⟨s', queue ++ ps⟩) (remaining ⟨s, (x, y) :: queue⟩) := by
  obtain ⟨-, ht'⟩ := unifyPair_told h ht hrun
  -- A turn that only looks at the store makes the queue lighter.
  have hkept (hk : s.Kept s') (hload : load s ps < sizeOf (s.resolve x)) :
      Fewer (remaining ⟨s', queue ++ ps⟩) (remaining ⟨s, (x, y) :: queue⟩) := by
    simp only [remaining, hk.view.size_eq, hk.view.trail_eq, load_kept hk, load_append, load_cons]
    exact .right _ (by omega)
  cases unifyPair_cases h hrun with
  | same _ hk =>
    exact hkept hk (s.resolve x).sizeOf_pos
  | binds _ hb =>
    have hle := ht'.trail_le
    rw [hb.trail_eq, Array.size_push, hb.size_eq] at hle
    refine .left _ _ ?_
    simp only [hb.size_eq, hb.trail_eq, Array.size_push]
    omega
  | parts _ _ _ hparts hk =>
    refine hkept hk ?_
    have hlt := Ty.sum_sizeOf_lt_of_parts (f := s.value) hparts
    simp only [← s.resolve_eq, h.resolve_top] at hlt
    exact hlt

/-- The loop does not go on for ever, whatever is in the queue. -/
theorem loop_ends (h : s.Valid) (ht : s.Told) (site : Option Phrase) (queue : List (Ty × Ty)) :
    Acc (fun l' l => Turn site l l') ⟨s, queue⟩ := by
  have hwf : WellFounded Fewer := (Prod.lex Nat.lt_wfRel Nat.lt_wfRel).wf
  induction hn : remaining ⟨s, queue⟩ using hwf.induction generalizing s queue with
  | _ n ih =>
    subst hn
    refine .intro _ fun l hturn => ?_
    cases hturn with
    | settle hrun =>
      obtain ⟨h', ht'⟩ := unifyPair_told h ht hrun
      exact ih _ (unifyPair_fewer h ht hrun) h' ht' _ rfl

/-! ## How a pair is settled -/

/-- What the loop relies on: the store is valid, and it owns the types in the queue. -/
structure Loop.Fair (l : Loop) : Prop where
  valid : l.store.Valid
  owned : l.store.OwnsPairs l.queue

theorem Turns.fair {l l' : Loop} (h : Turns site l l') (hl : l.Fair) : l'.Fair := by
  have hw := @upkeep_owned site (fun _ _ => True) fun _ _ _ _ => trivial
  obtain ⟨hvalid, -, howned⟩ := hw.turns h hl.valid hl.owned
  exact ⟨hvalid, howned⟩

/-- The pair is settled, or it is refused with an issue of unification. It is refused for its forms
only if they differ. -/
def Settles (site : Option Phrase) (s : Store) (x y : Ty) : Prop :=
  (∃ ps s', unifyPair site x y s = .ok ps s') ∨
    ∃ i s', unifyPair site x y s = .error (.issue i) s' ∧ i.kind ∈ IssueKind.ofUnification ∧
      (i.kind = .kindMismatch → (s.top x).form ≠ (s.top y).form)

theorem unifyPair_settles (h : s.Valid) (hx : s.ownsAll x = true) (hy : s.ownsAll y = true)
    (site : Option Phrase) : Settles site s x y := by
  have ho := unifyPair_outcome h x y site
  unfold Settles
  generalize unifyPair site x y s = result at ho ⊢
  cases ho with
  | foreign hforeign => simp [hx, hy] at hforeign
  | same => exact .inl ⟨_, _, rfl⟩
  | binds => exact .inl ⟨_, _, rfl⟩
  | parts => exact .inl ⟨_, _, rfl⟩
  | occurs => exact .inr ⟨_, _, rfl, by simp [IssueKind.ofUnification], nofun⟩
  | mismatch _ _ hsame hparts =>
    refine .inr ⟨_, _, rfl, Ty.kind_mem_of_parts hparts, fun hkind => ?_⟩
    obtain rfl : _ = IssueKind.kindMismatch := hkind
    exact Ty.form_ne_of_parts hparts hsame

/-- Unification of types of a reachable store ends, and only with errors of its own. The loop that
it comes to takes finitely many turns, and each of its turns settles a pair or refuses it: never
because a cell is foreign or bound already, and never because there is nothing to compare for two
types of one form. Unification succeeds in the store in which the loop has emptied the queue, or
fails with the issue with which the loop stops. -/
theorem unify_loop_ends (hs : s.Reachable) {a b : Ty} (ha : s.ownsAll a = true)
    (hb : s.ownsAll b = true) (site : Option Phrase) :
    Acc (fun l' l => Turn site l l') ⟨s, [(a, b)]⟩ ∧
      (∀ s₁ x y queue, Turns site ⟨s, [(a, b)]⟩ ⟨s₁, (x, y) :: queue⟩ → Settles site s₁ x y) ∧
      ((∃ s', unify a b site s = .ok () s' ∧ Turns site ⟨s, [(a, b)]⟩ ⟨s', []⟩) ∨
        ∃ i s', unify a b site s = .error (.issue i) s' ∧ i.kind ∈ IssueKind.ofUnification ∧
          Stops site ⟨s, [(a, b)]⟩ (.issue i) s') := by
  have h := hs.valid
  have hfair : (Loop.mk s [(a, b)]).Fair := ⟨h, List.forall_mem_singleton.2 ⟨ha, hb⟩⟩
  have hsettles : ∀ s₁ x y queue, Turns site ⟨s, [(a, b)]⟩ ⟨s₁, (x, y) :: queue⟩ →
      Settles site s₁ x y := by
    intro s₁ x y queue hturns
    have hreached := hturns.fair hfair
    obtain ⟨hx, hy⟩ := hreached.owned (x, y) List.mem_cons_self
    exact unifyPair_settles hreached.valid hx hy site
  refine ⟨loop_ends h hs.told site _, hsettles, ?_⟩
  have hwithin : unify a b site s = unifyWithin site (rounds s a b) [(a, b)] s := rfl
  cases hrun : unify a b site s with
  | ok _ s' => exact .inl ⟨s', rfl, unifyWithin_turns (hwithin ▸ hrun)⟩
  | error fault s' =>
    have hstops : Stops site ⟨s, [(a, b)]⟩ fault s' := by
      refine (unifyWithin_stops (hwithin ▸ hrun)).resolve_right fun hfuel => ?_
      exact unify_ne_outOfFuel h (hfuel.1 ▸ hrun)
    obtain ⟨s₁, x, y, queue, hturns, hstop⟩ := id hstops
    rcases hsettles s₁ x y queue hturns with ⟨ps, s₂, hok⟩ | ⟨i, s₂, herror, hkind, -⟩
    · rw [hstop] at hok
      cases hok
    · rw [hstop] at herror
      cases herror
      exact .inr ⟨i, s', rfl, hkind, hstops⟩

/-- One cell twice, against two types. The first type is bound to the cell, which makes the second
pair larger while it is in the queue; it is taken apart twice and refused in the end. -/
theorem unify_loop_ends_refusal :
    let s := afterAll {} [.fresh, .fresh]
    let a := Ty.tuple [.cell ⟨0, 0⟩, .cell ⟨0, 0⟩]
    let b := Ty.tuple [.tuple [.cell ⟨0, 1⟩], .tuple [.tuple [.cell ⟨0, 1⟩]]]
    s.Reachable ∧ (s.ownsAll a && s.ownsAll b) = true ∧
      ∃ i s', unify a b none s = .error (.issue i) s' ∧ i.kind ∈ IssueKind.ofUnification ∧
        Stops none ⟨s, [(a, b)]⟩ (.issue i) s' := by
  intro s a b
  have hs : s.Reachable := ⟨0, _, rfl⟩
  have hends := unify_loop_ends hs (a := a) (b := b) (by decide +kernel) (by decide +kernel) none
  refine ⟨hs, by decide +kernel, hends.2.2.resolve_left ?_⟩
  rintro ⟨s', hok, -⟩
  have hfails : succeeds (unify a b none) s = false := by decide +kernel
  rw [succeeds, hok] at hfails
  cases hfails

end StoreM

end TensorTyping
