import TensorTyping.Proofs.Inference.Generalisation
import TensorTyping.Proofs.Inference.Queries
import TensorTyping.Proofs.Issue

/-!
# Names of new type parameters

Generalisation binds cells to type parameters that it makes for them one after the other. The names
are taken from the variable names in their order, without those of the type parameters that the
functions declare. So no two cells get the same name, and none gets a declared one, also where the
step stops with a fault.
-/
namespace TensorTyping

open List

variable {given more : List (Nat × TypeParam)}

namespace Store

variable {s s' s'' : Store}

/-- All that cells are bound to they were bound to before, or it is a parameter listed for them. -/
def Gains (given : List (Nat × TypeParam)) (s s' : Store) : Prop :=
  ∀ (i : Nat) (t : Ty), s'.slots[i]? = some (.bound t) →
    s.slots[i]? = some (.bound t) ∨ ∃ p, (i, p) ∈ given ∧ t = .param p

theorem Relinks.gains (h : s.Relinks s') : s.Gains given s' := fun i t hi => .inl (h i t hi)

theorem Gains.mono (h : s.Gains given s') (hsub : given ⊆ more) : s.Gains more s' := by
  intro i t hi
  refine (h i t hi).imp_right ?_
  rintro ⟨p, hp, ht⟩
  exact ⟨p, hsub hp, ht⟩

theorem Gains.trans (h : s.Gains given s') (h' : s'.Gains given s'') : s.Gains given s'' :=
  fun i t hi => (h' i t hi).elim (h i t) .inr

/-- One cell at most is bound, at the end of the links from the one given. -/
theorem bind_param_gains (c : Cell) (p : TypeParam) (s : Store) : ∃ i,
    s.Gains [(i, p)] (endState (StoreM.bind (.cell c) (.param p) none) s) := by
  refine ⟨((s.peek c).cell?.getD c).index, ?_⟩
  refine endState_bind .trans (StoreM.find_relinks _ s).gains fun u s₁ hu => ?_
  cases u with
  | cell v =>
    have hv : s.peek c = .cell v := by
      rw [StoreM.find_cell] at hu
      split at hu
      · exact (EStateM.Result.ok.inj hu).1
      · cases hu
    rw [hv]
    refine endState_bind .trans (StoreM.find_relinks _ s₁).gains fun u s₂ hu => ?_
    cases hu
    refine endState_bind .trans ?_ fun cells s₂ _ => ?_
    · rw [StoreM.freeCells, endState_bind_pure]
      exact (StoreM.resolve_relinks _ s₁).gains
    · split
      · exact fun i t hi => .inl hi
      · intro i t hi
        have hset : (s₂.slots.setIfInBounds v.index (.bound (.param p)))[i]? = some (.bound t) := hi
        rw [Array.getElem?_setIfInBounds] at hset
        split at hset
        · next heq =>
          split at hset <;> cases hset
          exact .inr ⟨p, mem_singleton.2 (by rw [← heq]; rfl), rfl⟩
        · exact .inl hset
  | _ => exact fun i t hi => .inl hi

end Store

namespace Inference

variable {s s' s'' : State} {names others : List String} {Γ : Context}

/-- Every cell that has been bound is listed with its parameter, which was made in between. The
names of these parameters are among the given ones, in their order. -/
structure Labels (names : List String) (given : List (Nat × TypeParam)) (s s' : State) : Prop where
  gains : s.engine.store.Gains given s'.engine.store
  names : (given.map fun g => g.2.name).Sublist names
  made : ∀ g ∈ given, s.session.supply.last < g.2.serial ∧ g.2.serial ≤ s'.session.supply.last
  supply_le : s.session.supply.last ≤ s'.session.supply.last

theorem Looked.labels (h : Looked s s') (names : List String) : Labels names [] s s' :=
  ⟨h.relinks.gains, nil_sublist _, by simp, by rw [h.session_eq]⟩

theorem Labels.append (h : Labels names given s s') (h' : Labels others more s' s'') :
    Labels (names ++ others) (given ++ more) s s'' where
  gains := (h.gains.mono (subset_append_left _ _)).trans
    (h'.gains.mono (subset_append_right _ _))
  names := by
    rw [map_append]
    exact h.names.append h'.names
  made g hg := by
    rcases mem_append.1 hg with hg | hg
    · exact (h.made g hg).imp_right (Nat.le_trans · h'.supply_le)
    · exact (h'.made g hg).imp_left h.supply_le.trans_lt
  supply_le := h.supply_le.trans h'.supply_le

/-- Each turn makes one parameter and binds at most one cell, and any turn may be the last. -/
theorem bindParams_labels (cells : List Cell) (names : List String) (s : State) :
    ∃ given, Labels names given s (endState (bindParams cells names) s) := by
  induction cells generalizing names s with
  | nil => exact ⟨[], (Std.Refl.refl s : Looked s s).labels _⟩
  | cons c cells ih =>
    cases names with
    | nil => exact ⟨[], (Std.Refl.refl s : Looked s s).labels _⟩
    | cons name names =>
      let p : TypeParam := ⟨⟨s.session.supply.last + 1, name⟩, .type⟩
      let s₁ : State := { s with session := ⟨⟨s.session.supply.last + 1⟩, s.session.marks⟩ }
      let act : InferM Unit := onEngine (EngineM.onStore (StoreM.bind (.cell c) (.param p) none))
      have hturn : bindParams (c :: cells) (name :: names) s =
          (act >>= fun _ => bindParams cells names) s₁ := rfl
      obtain ⟨i, hi⟩ := Store.bind_param_gains c p s.engine.store
      have hfirst : Labels [name] [(i, p)] s (endState act s₁) := by
        rw [endState_onEngine, EngineM.endState_onStore]
        refine ⟨?_, List.Sublist.refl _, ?_, Nat.le_succ _⟩
        · rw [Engine.store_moved]
          exact hi
        · exact forall_mem_singleton.2 ⟨Nat.lt_succ_self _, Nat.le_refl _⟩
      cases hact : act s₁ with
      | ok u s₂ =>
        have hrest : endState (bindParams (c :: cells) (name :: names)) s =
            endState (bindParams cells names) s₂ := endState_bind_of_ok hact
        rw [endState_of_ok hact] at hfirst
        obtain ⟨given, hgiven⟩ := ih names s₂
        exact ⟨_, hrest ▸ hfirst.append hgiven⟩
      | error e s₂ =>
        rw [endState_of_error hact] at hfirst
        rw [endState_of_error (hturn.trans (bind_of_error hact))]
        exact ⟨_, { hfirst with names := by simp [p] }⟩

/-- The names of the parameters that functions declare. -/
def declaredNames (Γ : Context) (spans : List Span) : List String :=
  ((spans.map fun s => s.function).filterMap Γ.module.functions.get?).flatMap fun f =>
    f.typeParams.map fun p => p.name

/-- Cells have been given parameters, with names that are not taken. -/
def Named (taken : List String) (s s' : State) : Prop :=
  ∃ n given, Labels (freshNames taken n) given s s'

instance (taken : List String) : Std.Refl (Named taken) :=
  ⟨fun s => ⟨0, [], (Std.Refl.refl s : Looked s s).labels _⟩⟩

instance (taken : List String) : Trans Looked (Named taken) (Named taken) where
  trans := by
    rintro s s' s'' h ⟨n, given, h'⟩
    exact ⟨n, given, (h.labels []).append h'⟩

instance (taken : List String) : Trans (Named taken) Looked (Named taken) where
  trans := by
    rintro s s' s'' ⟨n, given, h⟩ h'
    have hboth := h.append (h'.labels [])
    rw [append_nil] at hboth
    exact ⟨n, _, hboth⟩

theorem Queries.named {α β : Type} {taken : List String} {x : InferM α} {f : α → InferM β}
    (hx : Queries x) (hf : ∀ a, Leads (Named taken) (f a)) : Leads (Named taken) (x >>= f) :=
  hx.seq hf

theorem generalise_named (Γ : Context) (spans : List Span) (mark : Nat) :
    Leads (Named (declaredNames Γ spans)) (generalise Γ spans mark) := by
  unfold generalise
  refine Queries.named .get fun s => Queries.named (checkOwned_queries _ _) fun _ => ?_
  refine Queries.named (queries_of_engine (EngineM.detach_relinks _)) fun _ => ?_
  refine Queries.named (takeProvisional_queries _) fun monos => ?_
  refine Queries.named (relationsOf_queries _ _ _) fun relations => ?_
  dsimp only
  split
  · exact .throw _
  · next free _ =>
    have hbind : Leads (Named (declaredNames Γ spans))
        (bindParams free (freshNames (declaredNames Γ spans) free.length)) :=
      fun s => ⟨_, bindParams_labels _ _ s⟩
    exact hbind.seq fun _ => recordSchemes_queries _ _ _

/-- The cell has been bound to the type in between. -/
def State.Gives (s s' : State) (i : Nat) (t : Ty) : Prop :=
  s'.engine.store.slots[i]? = some (.bound t) ∧ s.engine.store.slots[i]? ≠ some (.bound t)

/-- The names of variables are the non-empty words of letters, each once, and they stand in the
order of the numbers, by length and then by the alphabet. So whatever is printed together, a type, a
relation or the sentence of an issue, shows each cell by a name of its own, wherever it stands.
However a generalisation step ends, all that it has bound are cells to type parameters that it has
made, of which no two have the same name and none has the name of a type parameter that a function
of the step declares. -/
theorem names_distinct :
    Set.BijOn variableName {n | 0 < n} {name | name ≠ "" ∧ ∀ c ∈ name.toList, 'a' ≤ c ∧ c ≤ 'z'} ∧
      (∀ m n, m < n → List.Shortlex (· < ·) (variableName m).toList (variableName n).toList) ∧
      (∀ ts : List Ty,
        Set.InjOn (Ty.cellText (cellsOf ts)) {c | ∃ t ∈ ts, c ∈ t.cellOccurrences}) ∧
      (∀ t : Ty, t.text = (t.labelled (Ty.cellText (cellsOf [t]))).text) ∧
      (∀ r : TypeRelation, r.text = TypeRelation.text
        { r with args := r.args.map (Ty.labelled (Ty.cellText (cellsOf r.args))) }) ∧
      (∀ i : Issue, i.message = (i.mapTypes
        (Ty.labelled (Ty.cellText (cellsOf (Evidence.typesList i.evidence))))).message) ∧
      ∀ (Γ : Context) (spans : List Span) (mark : Nat) (s : State) (i : Nat) (t : Ty),
        s.Gives (endState (generalise Γ spans mark) s) i t → ∃ p : TypeParam, t = .param p ∧
          s.session.supply.last < p.serial ∧
          p.serial ≤ (endState (generalise Γ spans mark) s).session.supply.last ∧
          (∀ span ∈ spans, ∀ f, Γ.module.functions.get? span.function = some f →
            ∀ q ∈ f.typeParams, p.name ≠ q.name) ∧
          ∀ j q, s.Gives (endState (generalise Γ spans mark) s) j (.param q) →
            p.name = q.name → i = j ∧ p = q := by
  refine ⟨variableName_bijOn, fun m n h => ?_, fun ts => ?_, fun t => ?_, fun r => ?_, fun i => ?_,
    fun Γ spans mark s i t ht => ?_⟩
  · rw [toList_variableName, toList_variableName]
    exact shortlex_letters h
  · simpa only [← Ty.mem_cellsOf] using Ty.cellText_injOn (cellsOf ts)
  · exact (Ty.textWith_labelled _ _ t).symm
  · simp only [TypeRelation.text, Ty.textsWith_labelled]
  · simp only [Issue.message, Issue.mapTypes,
      Evidence.textsWith_mapTypesList (Ty.textWith_labelled _ _)]
  · obtain ⟨n, given, hlabels⟩ := generalise_named Γ spans mark s
    obtain ⟨p, hp, rfl⟩ := (hlabels.gains i t ht.1).resolve_left ht.2
    obtain ⟨hlt, hle⟩ := hlabels.made _ hp
    have hname := not_mem_of_mem_freshNames (hlabels.names.subset (mem_map_of_mem hp))
    refine ⟨p, rfl, hlt, hle, fun span hspan f hf q hq heq => hname ?_, ?_⟩
    · refine mem_flatMap.2 ⟨f, mem_filterMap.2 ⟨_, mem_map_of_mem hspan, hf⟩, ?_⟩
      exact heq ▸ mem_map_of_mem hq
    · intro j q hgives heq
      obtain ⟨r, hr, hqr⟩ := (hlabels.gains j _ hgives.1).resolve_left hgives.2
      cases hqr
      have hnodup := (nodup_freshNames _ _).sublist hlabels.names
      exact Prod.mk.inj (inj_on_of_nodup_map hnodup hp hr heq)

namespace Selecting

def x : Var := ⟨⟨2, "x"⟩, none⟩

def y : Var := ⟨⟨3, "y"⟩, none⟩

def f : Global := ⟨⟨4, "f"⟩⟩

/-- A function of `x` and `y` that declares a type parameter `a` and gives `x`. -/
def context : Context where
  module := { functions :=
    ⟨[(f, { node := 5, params := [x, y], body := .var x, typeParams := [⟨⟨1, "a"⟩, .type⟩] })]⟩ }
  operators := {}
  registry := .standard
  groups := [[f]]

/-- The body of the function is typed, and the types of `x` and `y` are open. -/
def typed : State where
  session := { supply := ⟨5⟩ }
  engine := { store := .withCells 0 2 }
  provisional := ⟨[(f, .func [.cell ⟨0, 0⟩, .cell ⟨0, 1⟩] (.cell ⟨0, 0⟩) [] [])]⟩

def generalised : State := endState (generalise context [⟨f, 0, 0⟩] 0) typed

def label? (i : Nat) : Option String :=
  match generalised.engine.store.slots[i]? with
  | some (.bound (.param p)) => some p.name
  | _ => none

theorem gives_of_label {i : Nat} {name : String} (h : label? i = some name) (hi : i < 2) :
    ∃ p, typed.Gives generalised i (.param p) ∧ p.name = name := by
  have hfree : typed.engine.store.slots[i]? = some .free := by simp [typed, Store.withCells, hi]
  unfold label? at h
  split at h
  · next p hp =>
    refine ⟨p, ⟨hp, ?_⟩, Option.some.inj h⟩
    rw [hfree]
    simp
  · cases h

end Selecting

/-- The name of the declared parameter is passed over, and the two cells get the next ones. -/
theorem names_distinct_selecting : ∃ p q : TypeParam,
    Selecting.typed.Gives Selecting.generalised 0 (.param p) ∧ p.name = "b" ∧
      Selecting.typed.Gives Selecting.generalised 1 (.param q) ∧ q.name = "c" ∧
      ∀ i t, Selecting.typed.Gives Selecting.generalised i t →
        ∃ r : TypeParam, t = .param r ∧ r.name ≠ "a" ∧ (r.name = "b" → i = 0) := by
  have hfirst : Selecting.label? 0 = some "b" := by decide +kernel
  have hsecond : Selecting.label? 1 = some "c" := by decide +kernel
  obtain ⟨p, hp, hb⟩ := Selecting.gives_of_label hfirst (by decide)
  obtain ⟨q, hq, hc⟩ := Selecting.gives_of_label hsecond (by decide)
  refine ⟨p, q, hp, hb, hq, hc, fun i t ht => ?_⟩
  obtain ⟨r, rfl, -, -, hdeclared, hsame⟩ := names_distinct.2.2.2.2.2.2 _ _ _ _ i t ht
  refine ⟨r, rfl, ?_, fun hname => (hsame 0 p hp (hname.trans hb.symm)).1⟩
  exact hdeclared _ (.head _) _ rfl _ (.head _)

end Inference

end TensorTyping
