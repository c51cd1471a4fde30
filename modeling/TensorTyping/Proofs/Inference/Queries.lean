import TensorTyping.Inference.Group
import TensorTyping.Proofs.Engine.Moves

/-!
# Looking things up

To look something up in a store shortens paths, and so changes no more than where cells are linked
to. Most of what is done to generalise is of this sort: however it ends, no cell has been bound and
no symbol made.
-/
namespace TensorTyping

namespace Store

/-- All that cells are bound to they were bound to before. -/
def Relinks (s s' : Store) : Prop :=
  ∀ (i : Nat) (t : Ty), s'.slots[i]? = some (.bound t) → s.slots[i]? = some (.bound t)

instance : Std.Refl Relinks := ⟨fun _ _ _ h => h⟩

theorem Relinks.trans {s s' s'' : Store} (h : s.Relinks s') (h' : s'.Relinks s'') :
    s.Relinks s'' := fun i t hi => h i t (h' i t hi)

instance : Trans Relinks Relinks Relinks := ⟨.trans⟩

theorem shortenWithin_relinks (r fuel i : Nat) (s : Store) :
    s.Relinks { s with slots := shortenWithin r fuel i s.slots } := by
  induction fuel generalizing i s with
  | zero => exact Std.Refl.refl s
  | succ fuel ih =>
    intro k t hk
    unfold shortenWithin at hk
    split at hk
    · split at hk
      · exact hk
      · have hset := ih _ { s with slots := s.slots.setIfInBounds i (.link r) } k t hk
        rw [Array.getElem?_setIfInBounds] at hset
        split at hset
        · split at hset <;> cases hset
        · exact hset
    · exact hk

theorem shorten_relinks (s : Store) (i : Nat) : s.Relinks (s.shorten i) :=
  shortenWithin_relinks _ _ i s

theorem shortenAll_relinks (fuel : Nat) (cs : List Cell) (s : Store) :
    s.Relinks (shortenAll fuel cs s) := by
  induction fuel generalizing cs s with
  | zero => exact Std.Refl.refl s
  | succ fuel ih =>
    unfold shortenAll
    induction cs generalizing s with
    | nil => exact Std.Refl.refl s
    | cons c cs ihcs =>
      refine Relinks.trans ?_ (ihcs _)
      dsimp only
      split
      · exact shorten_relinks s _
      · exact (shorten_relinks s _).trans (ih _ _)

end Store

namespace StoreM

open Store

theorem find_relinks (t : Ty) : Leads Relinks (find t) := by
  cases t with
  | cell c =>
    intro s
    unfold endState find
    by_cases hc : s.owns c = true
    · simpa only [if_pos hc] using shorten_relinks s c.index
    · simpa only [if_neg hc] using Std.Refl.refl s
  | _ => exact .pure _

theorem resolve_relinks (t : Ty) : Leads Relinks (resolve t) := by
  intro s
  unfold endState resolve
  cases s.resolve? t <;> exact shortenAll_relinks _ _ s

end StoreM

namespace Engine

/-- No cell has been bound. -/
def Relinks (e e' : Engine) : Prop := e.store.Relinks e'.store

instance : Std.Refl Relinks := ⟨fun e => Std.Refl.refl e.store⟩

instance : Trans Relinks Relinks Relinks := ⟨Store.Relinks.trans⟩

end Engine

namespace EngineM

variable {α : Type}

open Engine

theorem onStore_relinks {act : StoreM α} (h : Leads Store.Relinks act) :
    Leads Relinks (onStore act) := by
  intro e
  rw [Relinks, endState_onStore, store_moved]
  exact h e.store

theorem resolveAll_relinks (ts : List Ty) : Leads Relinks (resolveAll ts) := by
  induction ts with
  | nil => exact .pure []
  | cons t ts ih =>
    exact (onStore_relinks (StoreM.resolve_relinks t)).bind fun _ => ih.bind fun _ => .pure _

theorem detach_relinks (ns : List Nat) : Leads Relinks (detach ns) := by
  induction ns with
  | nil => exact .pure ()
  | cons n ns ih =>
    unfold detach
    refine Leads.get.bind fun e => ?_
    split
    · exact .bind (.modify fun e => Std.Refl.refl e.store) fun _ => ih
    · exact (Leads.throw _).bind fun _ => ih

end EngineM

def Instance.inUse (i : Instance) : TypeRelation := { i.relation with attrs := i.attrs }

namespace Inference

variable {α : Type} {Γ : Context}

/-- No symbol has been made, and no cell bound. -/
structure Looked (s s' : State) : Prop where
  session_eq : s'.session = s.session
  relinks : s.engine.Relinks s'.engine

instance : Std.Refl Looked := ⟨fun _ => ⟨rfl, Std.Refl.refl _⟩⟩

instance : Trans Looked Looked Looked :=
  ⟨fun h h' => ⟨h'.session_eq.trans h.session_eq, Trans.trans h.relinks h'.relinks⟩⟩

/-- A computation that only looks things up, however it ends. -/
abbrev Queries (act : InferM α) : Prop := Leads Looked act

theorem endState_onEngine (act : EngineM α) (s : State) :
    endState (onEngine act) s = { s with engine := endState act s.engine } := by
  unfold endState onEngine
  cases act s.engine <;> rfl

theorem queries_of_engine {act : EngineM α} (h : Leads Engine.Relinks act) :
    Queries (onEngine act) := by
  intro s
  rw [endState_onEngine]
  exact ⟨rfl, h s.engine⟩

theorem queries_of_modify {f : State → State} (hf : ∀ s, (f s).session = s.session)
    (hf' : ∀ s, (f s).engine = s.engine) : Queries (modify f) :=
  fun s => ⟨hf s, by change s.engine.Relinks (f s).engine; rw [hf']; exact Std.Refl.refl _⟩

theorem resolve_queries (t : Ty) : Queries (resolve t) :=
  queries_of_engine (EngineM.onStore_relinks (StoreM.resolve_relinks t))

theorem resolvedRelation_queries (i : Instance) : Queries (resolvedRelation i) :=
  (queries_of_engine (EngineM.resolveAll_relinks _)).bind fun _ => .pure _

/-- The relations of instances are resolved like others, with the attributes of their uses. -/
theorem resolvedRelations_eq (is : List Instance) :
    resolvedRelations is = resolveRelations (is.map Instance.inUse) := by
  induction is with
  | nil => rfl
  | cons i is ih =>
    rw [resolvedRelations, ih, resolvedRelation, bind_assoc]
    rfl

/-- What is promised can be told when all relations are resolved. -/
theorem entailed_eq (promised : List TypeRelation) (is : List Instance) :
    entailed promised is = do
      let rs ← resolvedRelations is
      return ((is.zip rs).filter fun x => isPromised promised x.2).map fun x => x.1.seq := by
  induction is with
  | nil => rfl
  | cons i is ih =>
    simp only [entailed, resolvedRelations, ih, bind_assoc, pure_bind, List.zip_cons_cons,
      List.filter_cons]
    congr! 5
    split <;> rfl

theorem resolveRelations_queries (rs : List TypeRelation) : Queries (resolveRelations rs) := by
  induction rs with
  | nil => exact .pure []
  | cons r rs ih =>
    unfold resolveRelations
    exact (queries_of_engine (EngineM.resolveAll_relinks _)).bind fun _ => ih.bind fun _ => .pure _

theorem resolvedRelations_queries (is : List Instance) : Queries (resolvedRelations is) :=
  resolvedRelations_eq is ▸ resolveRelations_queries _

theorem entailed_queries (promised : List TypeRelation) (is : List Instance) :
    Queries (entailed promised is) := by
  rw [entailed_eq]
  exact (resolvedRelations_queries is).bind fun _ => .pure _

theorem checkOwned_queries (spans : List Span) (is : List Instance) :
    Queries (checkOwned spans is) := by
  induction is with
  | nil => exact .pure ()
  | cons i is ih =>
    unfold checkOwned
    exact .ite ih ((resolvedRelation_queries i).bind fun _ => .throw _)

theorem takeProvisional_queries (gs : List Global) : Queries (takeProvisional gs) := by
  induction gs with
  | nil => exact .pure []
  | cons g gs ih =>
    unfold takeProvisional
    refine Leads.get.bind fun s => ?_
    split
    · exact .throw _
    · refine .bind (queries_of_modify (fun _ => rfl) fun _ => rfl) fun _ => ?_
      exact (resolve_queries _).bind fun _ => ih.bind fun _ => .pure _

theorem relationsOf_queries (spans : List Span) (pending : List Instance) (some : List Span) :
    Queries (relationsOf spans pending some) := by
  induction some with
  | nil => exact .pure []
  | cons s rest ih =>
    unfold relationsOf
    exact (resolvedRelations_queries _).bind fun _ => ih.bind fun _ => .pure _

theorem recordScheme_queries (g : Global) (t : Ty) (rs : List TypeRelation) :
    Queries (recordScheme Γ g t rs) := by
  unfold recordScheme
  split
  · exact .throw _
  · refine (resolve_queries t).bind fun mono => (resolveRelations_queries rs).bind fun rels => ?_
    dsimp only
    split
    · exact .throw _
    · exact queries_of_modify (fun _ => rfl) fun _ => rfl

theorem recordSchemes_queries (spans : List Span) (ts : List Ty)
    (rss : List (List TypeRelation)) : Queries (recordSchemes Γ spans ts rss) := by
  fun_induction recordSchemes Γ spans ts rss with
  | case1 s spans t ts rs rss ih => exact (recordScheme_queries _ _ _).bind fun _ => ih
  | case2 => exact .pure ()

end Inference

end TensorTyping
