import TensorTyping.Inference.Generalise
import TensorTyping.Proofs.Inference.Growth

/-!
# Instances that a declared signature promises

When the bodies of a group are typed and no instance can be decided any more, those whose resolved
relation some declared signature of the group promises are dropped, whichever function they were
added for. All others go on waiting. Resolving relations changes nothing but the length of paths in
the store.
-/
namespace TensorTyping.Inference

open List

variable {t u : Ty} {p : Instance → Bool}

/-- The relation of an instance with its slots resolved in a store and the attributes of its
use. -/
def resolvedIn (s : Store) (i : Instance) : TypeRelation :=
  { i.relation with args := i.relation.args.map s.resolve, attrs := i.attrs }

def resolveSlots (s : Store) (r : TypeRelation) : TypeRelation :=
  { r with args := r.args.map s.resolve }

theorem resolveSlots_kept {s s' : Store} (h : s.Kept s') : resolveSlots s' = resolveSlots s := by
  have hresolve : s'.resolve = s.resolve := funext h.view.resolve_eq
  funext r
  simp only [resolveSlots, hresolve]

theorem resolvedIn_kept {s s' : Store} (h : s.Kept s') (i : Instance) :
    resolvedIn s' i = resolvedIn s i := congrFun (resolveSlots_kept h) i.inUse

/-- Nothing has happened but that paths in the store were shortened. -/
structure Looks (s s' : State) : Prop where
  kept : s.engine.store.Kept s'.engine.store
  waiting_eq : s'.engine.waiting = s.engine.waiting
  added_eq : s'.engine.added = s.engine.added
  rest_eq : s' = { s with engine := s'.engine }

namespace Looks

variable {s s' s'' : State}

theorem refl (h : s.engine.store.Valid) : Looks s s := ⟨.refl h, rfl, rfl, rfl⟩

theorem trans (h : Looks s s') (h' : Looks s' s'') : Looks s s'' where
  kept := h.kept.trans h'.kept
  waiting_eq := h'.waiting_eq.trans h.waiting_eq
  added_eq := h'.added_eq.trans h.added_eq
  rest_eq := by
    rw [h'.rest_eq, h.rest_eq]

theorem valid (h : Looks s s') (hs : s.engine.Valid) : s'.engine.Valid :=
  Engine.Rests.valid ⟨h.kept.evolves, h.waiting_eq, h.added_eq⟩ hs

end Looks

variable {s s' : State}

theorem onStore_looks {α : Type} {act : StoreM α} {a : α}
    (hkept : s.engine.store.Kept (endState act s.engine.store))
    (h : onEngine (EngineM.onStore act) s = .ok a s') : Looks s s' := by
  obtain ⟨hrests, hstate⟩ := onStore_rests hkept.evolves h
  rw [endState_of_ok (EngineM.onStore_eq_ok (onEngine_eq_ok h).1)] at hkept
  exact ⟨hkept, hrests.waiting_eq, hrests.added_eq, hstate⟩

section

variable (hs : s.engine.store.Valid)

include hs

theorem resolveAll_looks {ts us : List Ty} (h : resolveAll ts s = .ok us s') :
    us = ts.map s.engine.store.resolve ∧ Looks s s' := by
  obtain ⟨hrun, hstate⟩ := onEngine_eq_ok h
  have hrests := EngineM.resolveAll_rests hs ts
  rw [endState_of_ok hrun] at hrests
  obtain ⟨rfl, -, hkept⟩ := EngineM.resolveAll_eq_ok hs hrun
  exact ⟨rfl, hkept, hrests.waiting_eq, hrests.added_eq, hstate⟩

theorem resolve_looks (h : resolve t s = .ok u s') : Looks s s' :=
  onStore_looks (StoreM.resolve_kept hs t) h

theorem find_looks (h : find t s = .ok u s') : Looks s s' :=
  onStore_looks (StoreM.find_kept hs t) h

theorem find_eq_ok (h : find t s = .ok u s') : u = s.engine.store.top t := by
  have hrun := EngineM.onStore_eq_ok (onEngine_eq_ok h).1
  cases ht : s.engine.store.ownsTop t with
  | false =>
    rw [StoreM.find_foreign ht] at hrun
    cases hrun
  | true =>
    obtain ⟨σ, hfind, -⟩ := StoreM.find_ok hs ht
    rw [hfind] at hrun
    cases hrun
    rfl

theorem resolve_eq_ok (h : resolve t s = .ok u s') : u = s.engine.store.resolve t := by
  have hrun := EngineM.onStore_eq_ok (onEngine_eq_ok h).1
  cases ht : s.engine.store.ownsAll t with
  | false =>
    obtain ⟨_, hforeign, -⟩ := StoreM.resolve_foreign hs ht
    rw [hforeign] at hrun
    cases hrun
  | true =>
    obtain ⟨_, hok, -⟩ := StoreM.resolve_ok hs ht
    rw [hok] at hrun
    cases hrun
    rfl

theorem resolveRelations_looks {rs rs' : List TypeRelation}
    (h : resolveRelations rs s = .ok rs' s') :
    rs' = rs.map (resolveSlots s.engine.store) ∧ Looks s s' := by
  induction rs generalizing s rs' with
  | nil =>
    cases h
    exact ⟨rfl, .refl hs⟩
  | cons r rs ih =>
    unfold resolveRelations at h
    obtain ⟨args, s₁, hargs, h⟩ := bind_eq_ok h
    obtain ⟨rest, s₂, hrest, h⟩ := bind_eq_ok h
    cases h
    obtain ⟨rfl, hfirst⟩ := resolveAll_looks hs hargs
    obtain ⟨rfl, hlast⟩ := ih hfirst.kept.valid hrest
    refine ⟨?_, hfirst.trans hlast⟩
    rw [map_cons, resolveSlots_kept hfirst.kept]
    rfl

theorem resolvedRelations_looks {is : List Instance} {rs : List TypeRelation}
    (h : resolvedRelations is s = .ok rs s') :
    rs = is.map (resolvedIn s.engine.store) ∧ Looks s s' := by
  rw [resolvedRelations_eq] at h
  obtain ⟨rfl, hlooks⟩ := resolveRelations_looks hs h
  exact ⟨map_map, hlooks⟩

theorem entailed_looks {promised : List TypeRelation} {is : List Instance} {ns : List Nat}
    (h : entailed promised is s = .ok ns s') :
    ns = (is.filter fun i => isPromised promised (resolvedIn s.engine.store i)).map Instance.seq ∧
      Looks s s' := by
  rw [entailed_eq] at h
  obtain ⟨rs, s₁, hrs, h⟩ := bind_eq_ok h
  cases h
  obtain ⟨rfl, hlooks⟩ := resolvedRelations_looks hs hrs
  refine ⟨?_, hlooks⟩
  rw [← map_prod_left_eq_zip, filter_map, map_map]
  rfl

end

/-- Of the waiting instances, those are left that satisfy `p`. -/
structure Leaves (p : Instance → Bool) (s s' : State) : Prop where
  kept : s.engine.store.Kept s'.engine.store
  waiting_eq : s'.engine.waiting = s.engine.waiting.filter p
  added_eq : s'.engine.added = s.engine.added
  rest_eq : s' = { s with engine := s'.engine }

theorem Looks.leaves (h : Looks s s') : Leaves (fun _ => true) s s' :=
  ⟨h.kept, by rw [h.waiting_eq, filter_true], h.added_eq, h.rest_eq⟩

theorem Leaves.valid (h : Leaves p s s') (hs : s.engine.Valid) : s'.engine.Valid :=
  hs.of_filter h.kept.valid h.waiting_eq h.added_eq

theorem map_filter_pending {α : Type} {f : Instance → α} (hf : ∀ i, f i.asleep = f i)
    (hp : ∀ i, p i.asleep = p i) (e : Engine) :
    (e.pending.filter p).map f = (e.waiting.filter p).map f := by
  have hcomp : p ∘ Instance.asleep = p := funext hp
  rw [Engine.waiting, filter_map, hcomp, map_map]
  exact map_congr_left fun i _ => (hf i).symm

theorem detach_leaves (hs : s.engine.Valid)
    (h : onEngine (EngineM.detach ((s.engine.waiting.filter p).map Instance.seq)) s = .ok () s') :
    Leaves (fun i => !p i) s s' := by
  obtain ⟨hrun, hstate⟩ := onEngine_eq_ok h
  have hdrops := EngineM.detach_eq_ok hrun
  refine ⟨?_, ?_, hdrops.added_eq, hstate⟩
  · rw [hdrops.store_eq]
    exact .refl hs.store
  · rw [hdrops.waiting_eq]
    refine filter_congr fun i hi => ?_
    congr 1
    rw [Bool.eq_iff_iff, contains_iff_mem, mem_map]
    constructor
    · rintro ⟨j, hj, hij⟩
      obtain ⟨hj, hpj⟩ := mem_filter.1 hj
      -- Two waiting instances of one number are the same.
      obtain rfl : j = i := hs.eq_of_seq hj hi hij
      exact hpj
    · exact fun hpi => ⟨i, mem_filter.2 ⟨hi, hpi⟩, rfl⟩

/-- Whether an instance was added after the mark and its relation is promised by a declared
signature of the group. -/
def isEntailed (Γ : Context) (group : List Global) (mark : Nat) (s : Store) (i : Instance) : Bool :=
  decide (mark < i.seq) && isPromised (promised Γ group) (resolvedIn s i)

theorem dischargeDeclared_leaves {Γ : Context} {group : List Global} {mark : Nat}
    (hs : s.engine.Valid) (h : dischargeDeclared Γ group mark s = .ok () s') :
    Leaves (fun i => !isEntailed Γ group mark s.engine.store i) s s' := by
  unfold dischargeDeclared at h
  cases hnone : (promised Γ group).isEmpty with
  | true =>
    rw [hnone] at h
    cases h
    have hfalse : ∀ i, isEntailed Γ group mark s.engine.store i = false := by
      intro i
      simp [isEntailed, isPromised, isEmpty_iff.1 hnone]
    simp only [hfalse]
    exact (Looks.refl hs.store).leaves
  | false =>
    rw [hnone] at h
    rw [if_neg (by simp), get_bind] at h
    obtain ⟨ns, s₁, hns, h⟩ := bind_eq_ok h
    obtain ⟨rfl, hlooks⟩ := entailed_looks hs.store hns
    have hns : ((s.engine.pendingSince mark).filter fun i =>
          isPromised (promised Γ group) (resolvedIn s.engine.store i)).map Instance.seq =
        (s₁.engine.waiting.filter (isEntailed Γ group mark s.engine.store)).map Instance.seq := by
      rw [Engine.pendingSince, filter_filter, hlooks.waiting_eq, ← map_filter_pending]
      · congr 2
        funext i
        exact Bool.and_comm _ _
      · exact fun _ => rfl
      · exact fun _ => rfl
    rw [hns] at h
    have hleaves := detach_leaves (hlooks.valid hs) h
    exact
      { kept := hlooks.kept.trans hleaves.kept
        waiting_eq := by rw [hleaves.waiting_eq, hlooks.waiting_eq]
        added_eq := hleaves.added_eq.trans hlooks.added_eq
        rest_eq := by rw [hleaves.rest_eq, hlooks.rest_eq] }

end TensorTyping.Inference
