import TensorTyping.Proofs.Engine.Discipline
import TensorTyping.Proofs.Store.Renumbering

/-!
# Engines with other serial numbers

An engine looks at no serial number, neither that of its store nor those of the parameters in the
slots of its instances. With others it comes to the same verdicts in the same order.
-/
namespace TensorTyping

open List

variable {ρ : Serial ↪ Serial}

def Instance.renumber (ρ : Serial → Serial) (i : Instance) : Instance :=
  { i with relation := i.relation.renumber ρ }

namespace Engine

def renumber (ρ : Serial → Serial) (e : Engine) : Engine :=
  { e with store := e.store.renumber ρ, pending := e.pending.map (Instance.renumber ρ) }

section

variable (e : Engine)

theorem instance?_renumber (seq : Nat) :
    (e.renumber ρ).instance? seq = (e.instance? seq).map (Instance.renumber ρ) :=
  find?_map

theorem setDirty_renumber (seq : Nat) (dirty : Bool) :
    (e.renumber ρ).setDirty seq dirty = (e.setDirty seq dirty).renumber ρ := by
  simp only [setDirty, renumber, map_map, Engine.mk.injEq, and_true, true_and]
  apply map_congr_left
  intro i _
  by_cases hseq : i.seq = seq <;> simp [Instance.renumber, hseq]

theorem wake_renumber (seq : Nat) : (e.renumber ρ).wake seq = (e.wake seq).renumber ρ := by
  unfold wake
  rw [instance?_renumber]
  cases e.instance? seq with
  | none => rfl
  | some i =>
    simp only [Option.map_some, Instance.renumber]
    split
    · rfl
    · rw [setDirty_renumber]
      rfl

theorem foldl_wake_renumber (seqs : List Nat) (e : Engine) :
    seqs.foldl wake (e.renumber ρ) = (seqs.foldl wake e).renumber ρ := by
  induction seqs generalizing e with
  | nil => rfl
  | cons seq seqs ih => rw [foldl_cons, foldl_cons, wake_renumber, ih]

theorem hear_renumber (root : Nat) : (e.renumber ρ).hear root = (e.hear root).renumber ρ :=
  foldl_wake_renumber _ { e with watchers := e.watchers.filter fun w => w.1 != root }

theorem foldl_hear_renumber (roots : List Nat) (e : Engine) :
    roots.foldl hear (e.renumber ρ) = (roots.foldl hear e).renumber ρ := by
  induction roots generalizing e with
  | nil => rfl
  | cons root roots ih => rw [foldl_cons, foldl_cons, hear_renumber, ih]

theorem moved_renumber (s : Store) : (e.renumber ρ).moved (s.renumber ρ) = (e.moved s).renumber ρ :=
  foldl_hear_renumber (s.heardSince e.store.trail.size) { e with store := s }

theorem enlist_renumber (i : Instance) :
    (e.renumber ρ).enlist (i.renumber ρ) = (e.enlist i).renumber ρ := by
  simp [enlist, renumber, Instance.renumber]

theorem watch_renumber (seq root : Nat) :
    (e.renumber ρ).watch seq root = (e.watch seq root).renumber ρ := by
  unfold watch
  rw [show (e.renumber ρ).watchers = e.watchers from rfl]
  split <;> rfl

theorem foldl_watch_renumber (seq : Nat) (cells : List Cell) (e : Engine) :
    (cells.map (Cell.renumber ρ)).foldl (fun e c => e.watch seq c.index) (e.renumber ρ) =
      (cells.foldl (fun e c => e.watch seq c.index) e).renumber ρ := by
  induction cells generalizing e with
  | nil => rfl
  | cons c cells ih =>
    rw [map_cons, foldl_cons, foldl_cons, ← ih, ← watch_renumber]
    rfl

theorem discharge_renumber (seq : Nat) :
    (e.renumber ρ).discharge seq = (e.discharge seq).renumber ρ := by
  simp only [discharge, renumber, filter_map]
  rfl

theorem pendingSince_renumber (mark : Nat) :
    (e.renumber ρ).pendingSince mark = (e.pendingSince mark).map (Instance.renumber ρ) := by
  simp only [pendingSince, renumber, filter_map]
  rfl

theorem attempts_renumber : (e.renumber ρ).attempts = e.attempts := by
  simp [attempts, renumber]

end

end Engine

namespace Rule

variable {rule : Rule} {types : List Ty} {attrs : Attrs}

theorem sharpens_renumber (ρ : Serial ↪ Serial) : Sharpens (Image (Ty.renumber ρ)) where
  tensor_self _ _ := rfl
  tensor h := h
  tuple {ts u} h := by
    refine ⟨ts.map (Ty.renumber ρ), by rw [h, Ty.renumber_tuple], ?_⟩
    rw [forall₂_map_right_iff]
    exact forall₂_same.2 fun _ _ => rfl
  other {t u} h ht := by
    subst h
    cases t <;> first | rfl | cases ht

theorem sharpens_renumbered (ρ : Serial ↪ Serial) :
    Sharpens fun t u => Image (Ty.renumber ρ) u t where
  tensor_self _ _ := rfl
  tensor {s d u} h := by
    change Ty.tensor s d = u.renumber ρ at h
    cases u with
    | tensor => exact h.symm
    | _ => simp at h
  tuple {ts u} h := by
    change Ty.tuple ts = u.renumber ρ at h
    cases u with
    | tuple us =>
      obtain rfl : ts = us.map (Ty.renumber ρ) := by simpa using h
      refine ⟨us, rfl, ?_⟩
      rw [forall₂_map_left_iff]
      exact forall₂_same.2 fun _ _ => rfl
    | _ => simp at h
  other {t u} h ht := by
    subst h
    cases u <;> first | rfl | cases ht

theorem conclude_renumber_of_undecided (h : rule.conclude types attrs = .error .undecided) :
    rule.conclude (types.map (Ty.renumber ρ)) attrs = .error .undecided := by
  have htypes : List.Forall₂ (fun t u => Image (Ty.renumber ρ) u t)
      (types.map (Ty.renumber ρ)) types := by
    rw [forall₂_map_left_iff]
    exact forall₂_same.2 fun _ _ => rfl
  have hback := conclude_follows (sharpens_renumbered ρ) htypes rule attrs
  unfold Follows at hback
  split at hback
  · obtain ⟨t, ht, -⟩ := hback
    cases h.symm.trans ht
  · next hundecided => exact hundecided
  · cases h.symm.trans hback
  · obtain ⟨g, hg, -⟩ := hback
    cases h.symm.trans hg

theorem verdict_renumber_of_holds {slot : Nat} {t : Ty}
    (h : rule.verdict types attrs = .ok (.holds slot t)) :
    rule.verdict (types.map (Ty.renumber ρ)) attrs = .ok (.holds slot (t.renumber ρ)) := by
  have htypes : List.Forall₂ (Image (Ty.renumber ρ)) types (types.map (Ty.renumber ρ)) := by
    rw [forall₂_map_right_iff]
    exact forall₂_same.2 fun _ _ => rfl
  obtain ⟨u, hu, rfl⟩ := verdict_follows (sharpens_renumber ρ) htypes h
  exact hu

end Rule

namespace EngineM

open Ty (renumber)

variable {α β : Type} {R : Engine → Engine → Prop}

theorem onStore_tracks {A : α → β → Prop} {x : StoreM α} {y : StoreM β}
    (h : Tracks (Image (Store.renumber ρ)) A x y) :
    Tracks (Image (Engine.renumber ρ)) A (onStore x) (onStore y) := by
  rintro e _ rfl a e' hrun
  have hx := onStore_eq_ok hrun
  rw [onStore_of_ok hx] at hrun
  obtain ⟨b, _, hy, hab, rfl⟩ := h rfl hx
  have hmoved : e.moved e'.store = e' := by simpa using hrun
  refine ⟨b, _, onStore_of_ok hy, hab, ?_⟩
  rw [Image, Engine.moved_renumber, hmoved]

theorem blaming_tracks {A : α → β → Prop} {x : EngineM α} {y : EngineM β} (site : Option Phrase)
    (h : Tracks R A x y) : Tracks R A (blaming site x) (blaming site y) := by
  intro s t hst a s' hrun
  obtain ⟨b, t', hy, hrest⟩ := h hst (blaming_eq_ok.1 hrun)
  exact ⟨b, t', blaming_eq_ok.2 hy, hrest⟩

theorem ofExcept_tracks (x : Except Fault α) : Tracks R Eq (ofExcept x) (ofExcept x) := by
  cases x with
  | ok a => exact .pure rfl
  | error f => exact .throw

theorem modify_tracks {f g : Engine → Engine} (h : ∀ e, g (e.renumber ρ) = (f e).renumber ρ) :
    Tracks (ε := Fault) (Image (Engine.renumber ρ)) (fun _ _ => True) (modify f) (modify g) := by
  apply Tracks.modify
  rintro e _ rfl
  exact h e

theorem resolveAll_tracks (ts : List Ty) :
    Tracks (Image (Engine.renumber ρ)) (Image (List.map (renumber ρ))) (resolveAll ts)
      (resolveAll (ts.map (renumber ρ))) := by
  induction ts with
  | nil => exact .pure rfl
  | cons t ts ih =>
    apply (onStore_tracks (StoreM.resolve_tracks t)).bind_image
    intro u
    apply ih.bind_image
    intro us
    exact .pure rfl

theorem watchAll_tracks (seq : Nat) (ts : List Ty) :
    Tracks (Image (Engine.renumber ρ)) (fun _ _ => True) (watchAll seq ts)
      (watchAll seq (ts.map (renumber ρ))) := by
  induction ts with
  | nil => exact .pure trivial
  | cons t ts ih =>
    apply (onStore_tracks (StoreM.freeCells_tracks t)).bind_image
    intro cells
    refine (modify_tracks ?_).bind_unit ih
    exact Engine.foldl_watch_renumber seq cells

theorem assign_tracks (i : Instance) (slot : Nat) (t : Ty) :
    Tracks (Image (Engine.renumber ρ)) (fun _ _ => True) (assign i slot t)
      (assign (i.renumber ρ) slot (t.renumber ρ)) := by
  have hslot : (i.renumber ρ).relation.args[slot]? = i.relation.args[slot]?.map (renumber ρ) :=
    getElem?_map
  unfold assign
  rw [hslot]
  cases i.relation.args[slot]? with
  | none => exact .throw
  | some arg => exact onStore_tracks (StoreM.unify_tracks arg t i.origin)

section

variable (registry : Registry)

theorem add_tracks (relation : TypeRelation) (origin : Option Phrase) (attrs : Attrs) :
    Tracks (Image (Engine.renumber ρ)) (fun _ _ => True) (add registry relation origin attrs)
      (add registry (relation.renumber ρ) origin attrs) := by
  rintro e _ rfl i e' hrun
  cases hentry : registry.table.get? relation.name with
  | none =>
    rw [add_of_unknown hentry] at hrun
    cases hrun
  | some entry =>
    by_cases harity : ∀ n, entry.arity = some n → n = relation.args.length
    · have harity' : ∀ n, entry.arity = some n → n = (relation.renumber ρ).args.length := by
        simpa [TypeRelation.renumber] using harity
      rw [add_of_fit hentry harity] at hrun
      cases hrun
      refine ⟨_, _, add_of_fit hentry harity', trivial, ?_⟩
      exact Engine.enlist_renumber e ⟨e.added + 1, relation, origin, _, true⟩
    · simp only [not_forall] at harity
      obtain ⟨n, hn, hne⟩ := harity
      rw [add_of_misfit hentry hn hne] at hrun
      cases hrun

theorem attempt_tracks (i : Instance) :
    Tracks (Image (Engine.renumber ρ)) (fun _ _ => True) (attempt registry i)
      (attempt registry (i.renumber ρ)) := by
  rw [attempt_eq, attempt_eq]
  apply (ofExcept_tracks (registry.lookup i.relation.name i.origin)).bind
  rintro entry _ rfl
  apply (resolveAll_tracks i.relation.args).bind_image
  intro types
  cases hverdict : entry.rule.verdict types i.attrs with
  | error f => exact .throw_bind
  | ok v =>
    cases v with
    | holds slot t =>
      rw [show (i.renumber ρ).attrs = i.attrs from rfl, Rule.verdict_renumber_of_holds hverdict]
      apply Tracks.bind_unit (blaming_tracks i.origin (assign_tracks i slot t))
      exact modify_tracks fun e => Engine.discharge_renumber e i.seq
    | fails =>
      intro e _ _ a e' hrun
      rw [bind_of_ok (blaming_eq_ok.2 (ofExcept_eq_ok.2 ⟨rfl, rfl⟩))] at hrun
      obtain ⟨final, e₁, -, hthrow⟩ := bind_eq_ok hrun
      cases hthrow
    | indeterminate =>
      have hundecided := Rule.verdict_eq_indeterminate.1 hverdict
      rw [show (i.renumber ρ).attrs = i.attrs from rfl,
        Rule.verdict_eq_indeterminate.2 (Rule.conclude_renumber_of_undecided hundecided)]
      exact watchAll_tracks i.seq i.relation.args

theorem step_tracks : Tracks (Image (Engine.renumber ρ)) Eq (step registry) (step registry) := by
  rintro e _ rfl more e' hrun
  obtain ⟨hq, hstep⟩ | ⟨n, rest, hq, hidle, hstep⟩ | ⟨n, rest, i, hq, hi, hdirty, hstep⟩ :=
    step_cases registry e
  all_goals rw [hstep] at hrun
  · cases hrun
    exact ⟨false, _, step_nil hq, rfl, rfl⟩
  · cases hrun
    refine ⟨true, _, step_idle hq ?_, rfl, rfl⟩
    intro i hi
    have hinstance := Engine.instance?_renumber (ρ := ρ) { e with queue := rest } n
    obtain ⟨j, hj, rfl⟩ := Option.map_eq_some_iff.1 (hinstance.symm.trans hi)
    exact hidle j hj
  · have hi' := (Engine.instance?_renumber (ρ := ρ) { e with queue := rest } n).trans
      (congrArg (Option.map (Instance.renumber ρ)) hi)
    have htracks : Tracks (Image (Engine.renumber ρ)) Eq
        (do attempt registry i.asleep; return true)
        (do attempt registry (i.renumber ρ).asleep; return true) :=
      (attempt_tracks registry i.asleep).bind_unit (.pure rfl)
    have hstart := Engine.setDirty_renumber (ρ := ρ) { e with queue := rest } n false
    obtain ⟨b, t', hrun', hb, ht'⟩ := htracks hstart hrun
    refine ⟨b, t', ?_, hb, ht'⟩
    rw [← hrun']
    exact step_dirty hq hi' hdirty

theorem propagateWithin_tracks (fuel : Nat) :
    Tracks (Image (Engine.renumber ρ)) (fun _ _ => True) (propagateWithin registry fuel)
      (propagateWithin registry fuel) := by
  induction fuel with
  | zero =>
    apply Tracks.get_bind
    rintro e _ rfl
    rw [show (e.renumber ρ).queue = e.queue from rfl]
    cases e.queue.isEmpty with
    | true => exact .pure trivial
    | false => exact .throw
  | succ fuel ih =>
    apply (step_tracks registry).bind
    rintro more _ rfl
    cases more with
    | true => exact ih
    | false => exact .pure trivial

theorem propagate_tracks :
    Tracks (Image (Engine.renumber ρ)) (fun _ _ => True) (propagate registry)
      (propagate registry) := by
  apply Tracks.get_bind
  rintro e _ rfl
  rw [Engine.attempts_renumber]
  exact propagateWithin_tracks registry e.attempts

end

theorem detach_tracks (seqs : List Nat) :
    Tracks (Image (Engine.renumber ρ)) (fun _ _ => True) (detach seqs) (detach seqs) := by
  induction seqs with
  | nil => exact .pure trivial
  | cons seq seqs ih =>
    rintro e _ rfl a e' hrun
    have hinstance := Engine.instance?_renumber (ρ := ρ) e seq
    cases hi : e.instance? seq with
    | none =>
      rw [detach_cons_of_none hi] at hrun
      cases hrun
    | some i =>
      rw [detach_cons_of_some hi] at hrun
      rw [hi] at hinstance
      rw [detach_cons_of_some hinstance]
      exact ih (Engine.discharge_renumber e seq) hrun

end EngineM

end TensorTyping
