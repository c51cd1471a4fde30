import TensorTyping.Proofs.Engine.Steps
import TensorTyping.Proofs.Inference.Generalisation

/-!
# The beginning and the end of a group

A group is opened by giving provisional types to those of its functions that declare no signature.
When its bodies are typed it is closed: what can be decided is, what a declared signature promises
is dropped, and every function is given its signature. An instance that is left over belongs to the
one function in whose span its number lies.
-/
namespace TensorTyping.Inference

open List

variable {Γ : Context} {s s' : State}
variable {spans own : List Span} {b mark : Nat} {span : Span} {g : Global} {gs group : List Global}
variable {p : Instance → Bool} {e e' : Engine}

theorem ownedBy_eq_filter {a : Nat} (hchained : Chained a spans b)
    (hnodup : (spans.map Span.function).Nodup) (hown : own.Sublist spans) (hspan : span ∈ own)
    (is : List Instance) : ownedBy own span.function is = is.filter span.covers := by
  refine filter_congr fun i _ => ?_
  cases hfind : own.find? fun x => x.covers i with
  | none =>
    have hnone := find?_eq_none.1 hfind span hspan
    simpa using hnone
  | some x =>
    have hx := mem_of_find?_eq_some hfind
    have hxi : x.covers i = true := by simpa using find?_some hfind
    simp only
    rw [Bool.eq_iff_iff, beq_iff_eq]
    constructor
    · intro hsame
      obtain rfl := inj_on_of_nodup_map hnodup (hown.subset hx) (hown.subset hspan) hsame
      exact hxi
    · intro hi
      rw [hchained.eq_of_covers (hown.subset hx) (hown.subset hspan) hxi hi]

/-- The declared signatures of a list of functions have been recorded. -/
structure Announces (Γ : Context) (gs : List Global) (s s' : State) : Prop where
  schemes_eq : ∀ g, s'.schemes.get? g =
    if g ∈ gs then (Γ.declared? g).or (s.schemes.get? g) else s.schemes.get? g
  done : ∀ g ∈ gs, s'.schemes.contains g = true
  rest_eq : s' = { s with schemes := s'.schemes, told := s'.told }

theorem tell_eq_ok {line : String} (h : tell Γ line s = .ok () s') :
    s' = { s with told := s'.told } := by
  unfold tell at h
  split at h
  · cases h
    rfl
  · cases h
    rfl

theorem announce_cons (h : announce Γ (g :: gs) s = .ok () s') :
    ∃ schemes told, (∀ k, schemes.get? k =
        if k = g then (Γ.declared? k).or (s.schemes.get? k) else s.schemes.get? k) ∧
      schemes.contains g = true ∧ announce Γ gs { s with schemes, told } = .ok () s' := by
  unfold announce at h
  have htell : ∀ {s₁ : State} {sig : Signature}, (do
      tell Γ ("  " ++ g.name ++ " : " ++ sig.toTy.text)
      announce Γ gs) s₁ = .ok () s' →
      ∃ told, announce Γ gs { s₁ with told } = .ok () s' := by
    intro s₁ sig h
    obtain ⟨u, s₂, htell, hrest⟩ := bind_eq_ok h
    rw [tell_eq_ok htell] at hrest
    exact ⟨_, hrest⟩
  cases hd : Γ.declared? g with
  | none =>
    simp only [hd] at h
    rw [get_bind] at h
    cases hget : s.schemes.get? g with
    | none =>
      simp only [hget] at h
      cases h
    | some sig =>
      simp only [hget] at h
      obtain ⟨told, hrest⟩ := htell h
      refine ⟨s.schemes, told, fun k => ?_, by simp [Table.contains, hget], hrest⟩
      by_cases hk : k = g
      · simp [hk, hd]
      · simp [hk]
  | some sig =>
    simp only [hd] at h
    rw [modify_bind, get_bind] at h
    simp only [Table.get?_insert, if_true] at h
    obtain ⟨told, hrest⟩ := htell h
    refine ⟨s.schemes.insert g sig, told, fun k => ?_, by simp [Table.contains_insert], hrest⟩
    rw [Table.get?_insert]
    by_cases hk : k = g
    · simp [hk, hd]
    · simp [hk]

theorem announce_announces (h : announce Γ gs s = .ok () s') : Announces Γ gs s s' := by
  induction gs generalizing s with
  | nil =>
    cases h
    exact ⟨fun g => by simp, forall_mem_nil _, rfl⟩
  | cons g gs ih =>
    obtain ⟨schemes, told, hschemes, hcontains, hrest⟩ := announce_cons h
    have hmore := ih hrest
    have hget : ∀ k, s'.schemes.get? k =
        if k ∈ g :: gs then (Γ.declared? k).or (s.schemes.get? k) else s.schemes.get? k := by
      intro k
      rw [hmore.schemes_eq, hschemes]
      by_cases hk : k = g
      · subst hk
        cases Γ.declared? k <;> simp
      · simp [hk]
    refine ⟨hget, forall_mem_cons.2 ⟨?_, hmore.done⟩, ?_⟩
    · -- What is recorded of `g` now is still recorded at the end.
      have hnow := hschemes g
      rw [if_pos rfl] at hnow
      rw [Table.contains, hget, if_pos (.head _), ← hnow]
      exact hcontains
    · rw [hmore.rest_eq]

structure Starts (gs : List Global) (s s' : State) : Prop where
  rests : s.engine.Rests s'.engine
  started : ∀ g ∈ gs, s'.provisional.get? g ≠ none
  others : ∀ g, g ∉ gs → s'.provisional.get? g = s.provisional.get? g
  cells : ∀ {g t}, s'.provisional.get? g = some t →
    s.provisional.get? g = some t ∨ t.isCell = true
  rest_eq : s' = { s with engine := s'.engine, provisional := s'.provisional }

theorem startProvisional_starts (hs : s.engine.store.Valid)
    (h : startProvisional gs s = .ok () s') : Starts gs s s' := by
  induction gs generalizing s with
  | nil =>
    cases h
    exact ⟨.refl hs, forall_mem_nil _, fun _ _ => rfl, .inl, rfl⟩
  | cons g gs ih =>
    unfold startProvisional at h
    obtain ⟨t, s₁, hfresh, h⟩ := bind_eq_ok h
    rw [modify_bind] at h
    obtain ⟨hrests, hstate⟩ := onStore_rests (StoreM.fresh_evolves hs) hfresh
    have hcell : t.isCell = true := by
      have hrun : EStateM.Result.ok (.cell s.engine.store.fresh.1) s.engine.store.fresh.2 =
          .ok t s₁.engine.store := EngineM.onStore_eq_ok (onEngine_eq_ok hfresh).1
      rw [EStateM.Result.ok.injEq] at hrun
      rw [← hrun.1]
      rfl
    have hmore := ih (by exact hrests.evolves.valid) h
    refine
      { rests := hrests.trans hmore.rests
        started := forall_mem_cons.2 ⟨?_, hmore.started⟩
        others := fun k hk => ?_
        cells := fun {k u} hk => ?_
        rest_eq := by rw [hmore.rest_eq, hstate] }
    · by_cases hg : g ∈ gs
      · exact hmore.started g hg
      · rw [hmore.others g hg]
        simp [Table.get?_insert]
    · rw [mem_cons, not_or] at hk
      rw [hmore.others k hk.2]
      simp only [Table.get?_insert, hk.1, if_false]
      rw [hstate]
    · rcases hmore.cells hk with hk | hk
      · simp only [Table.get?_insert] at hk
        split at hk
        · cases hk
          exact .inr hcell
        · rw [hstate] at hk
          exact .inl hk
      · exact .inr hk

/-- The functions of a group are being typed, those that declare no signature at provisional
types. -/
structure Opens (Γ : Context) (group : List Global) (s s' : State) : Prop where
  rests : s.engine.Rests s'.engine
  schemes_eq : s'.schemes = s.schemes
  solving_eq : s'.solving = s.solving ++ group
  started : ∀ g ∈ Γ.undeclared group, s'.provisional.get? g ≠ none
  others : ∀ g, g ∉ Γ.undeclared group → s'.provisional.get? g = s.provisional.get? g
  cells : ∀ {g t}, s'.provisional.get? g = some t →
    s.provisional.get? g = some t ∨ t.isCell = true
  notes_eq : s'.nodeTypes = s.nodeTypes ∧ s'.callArgs = s.callArgs
  scrutinees_eq : s'.scrutinees = s.scrutinees

theorem openGroup_opens (hs : s.engine.store.Valid) (h : openGroup Γ group s = .ok () s') :
    Opens Γ group s s' := by
  unfold openGroup at h
  obtain ⟨_, s₁, htell, h⟩ := bind_eq_ok h
  rw [modify_bind, tell_eq_ok htell] at h
  have hstarts := startProvisional_starts (by exact hs) h
  exact
    { rests := hstarts.rests
      schemes_eq := by rw [hstarts.rest_eq]
      solving_eq := by rw [hstarts.rest_eq]
      started := hstarts.started
      others := hstarts.others
      cells := hstarts.cells
      notes_eq := by rw [hstarts.rest_eq]; exact ⟨rfl, rfl⟩
      scrutinees_eq := by rw [hstarts.rest_eq] }

/-- A group whose bodies are typed has come to its end, by way of the engine `e` in which nothing
more can be decided. -/
structure Closes (Γ : Context) (group : List Global) (spans : List Span) (mark : Nat)
    (s : State) (e : Engine) (s' : State) : Prop where
  propagated : EngineM.propagate Γ.registry s.engine = .ok () e
  evolves : e.store.Evolves s'.engine.store
  names : e.store.Names s.session.supply.last s'.engine.store
  supply_le : s.session.supply.last ≤ s'.session.supply.last
  waiting_eq : s'.engine.waiting = e.waiting.filter fun i => !decide (mark < i.seq)
  added_eq : s'.engine.added = e.added
  solving_eq : s'.solving = s.solving.filter fun g => !group.contains g
  provisional_eq : ∀ g, s'.provisional.get? g =
    if g ∈ Γ.undeclared group then none else s.provisional.get? g
  done : ∀ g ∈ group, s'.schemes.contains g = true
  others : ∀ g, g ∉ group → s'.schemes.get? g = s.schemes.get? g
  recorded : ∀ span ∈ spans, Γ.declared? span.function = none →
    ∃ t, s.provisional.get? span.function = some t ∧
      HasScheme Γ s'.schemes span.function (s'.engine.store.resolve t)
        ((e.waiting.filter fun i => span.covers i && !isEntailed Γ group mark e.store i).map
          (resolvedIn s'.engine.store)) ∧
      (s'.engine.store.resolve t).cellOccurrences = []
  complete : ∀ span ∈ spans, Γ.declared? span.function = none →
    ∀ i ∈ e.waiting, span.covers i = true → isEntailed Γ group mark e.store i = false →
      ∀ t ∈ i.relation.args, (s'.engine.store.resolve t).cellOccurrences = []
  owned : ∀ i ∈ e.waiting, mark < i.seq → isEntailed Γ group mark e.store i = false →
    ∃ span ∈ spans, Γ.declared? span.function = none ∧ span.covers i = true
  declared : ∀ g ∈ group, ∀ sig, Γ.declared? g = some sig → s'.schemes.get? g = some sig
  notes_eq : s'.nodeTypes = s.nodeTypes ∧ s'.callArgs = s.callArgs
  scrutinees_eq : s'.scrutinees = s.scrutinees

theorem mem_undeclared : g ∈ Γ.undeclared group ↔ g ∈ group ∧ Γ.declared? g = none := by
  simp [Context.undeclared]

/-- The functions of the spans that are generalised are those that declare no signature. -/
theorem function_mem_undeclared (hspans : spans.map Span.function = group) :
    g ∈ (spans.filter fun s => (Γ.undeclared group).contains s.function).map Span.function ↔
      g ∈ Γ.undeclared group := by
  constructor
  · intro hg
    obtain ⟨span, hspan, rfl⟩ := mem_map.1 hg
    simpa using (mem_filter.1 hspan).2
  · intro hg
    obtain ⟨span, hspan, rfl⟩ : ∃ span ∈ spans, span.function = g := by
      rw [← mem_map, hspans]
      exact (mem_undeclared.1 hg).1
    exact mem_map_of_mem (mem_filter.2 ⟨hspan, by simpa using hg⟩)

theorem mem_generalised (hspans : spans.map Span.function = group) (hspan : span ∈ spans)
    (hd : Γ.declared? span.function = none) :
    span ∈ spans.filter fun s => (Γ.undeclared group).contains s.function := by
  refine mem_filter.2 ⟨hspan, ?_⟩
  rw [contains_iff_mem, mem_undeclared, ← hspans]
  exact ⟨mem_map_of_mem hspan, hd⟩

section

variable (hchained : Chained mark spans b) (hnodup : (spans.map Span.function).Nodup)
  (hown : own.Sublist spans) (hspan : span ∈ own) (hwaiting : e'.waiting = e.waiting.filter p)

include hchained hnodup hown hspan hwaiting

theorem map_ownedBy {α : Type} {f : Instance → α} (hf : ∀ i, f i.asleep = f i) :
    (ownedBy own span.function (e'.pendingSince mark)).map f =
      (e.waiting.filter fun i => span.covers i && p i).map f := by
  have hmark := (hchained.bounds.2 span (hown.subset hspan)).1
  have hcovers : ∀ i : Instance, (span.covers i && decide (mark < i.seq)) = span.covers i := by
    intro i
    rw [Bool.and_eq_left_iff_imp]
    rw [covers_iff, decide_eq_true_eq]
    omega
  rw [ownedBy_eq_filter hchained hnodup hown hspan, Engine.pendingSince, filter_filter]
  simp only [hcovers]
  rw [map_filter_pending hf fun _ => rfl, hwaiting, filter_filter]

theorem exists_ownedBy {i : Instance} (hi : i ∈ e.waiting) (hcovers : span.covers i = true)
    (hp : p i = true) :
    ∃ j ∈ ownedBy own span.function (e'.pendingSince mark), j.relation = i.relation := by
  have hmem : i ∈ e.waiting.filter fun i => span.covers i && p i :=
    mem_filter.2 ⟨hi, by simp [hcovers, hp]⟩
  have hrelation := mem_map_of_mem hmem (f := Instance.relation)
  rw [← map_ownedBy hchained hnodup hown hspan hwaiting fun _ => rfl] at hrelation
  exact mem_map.1 hrelation

end

theorem closeGroup_closes (hs : s.engine.Valid) (hchained : Chained mark spans b)
    (hspans : spans.map Span.function = group) (hnodup : group.Nodup)
    (h : closeGroup Γ group spans mark s = .ok () s') : ∃ e, Closes Γ group spans mark s e s' := by
  unfold closeGroup at h
  obtain ⟨_, s₁, hpropagate, h⟩ := bind_eq_ok h
  obtain ⟨_, s₂, hdischarge, h⟩ := bind_eq_ok h
  obtain ⟨_, s₃, hgeneralise, h⟩ := bind_eq_ok h
  obtain ⟨_, s₄, hannounce, h⟩ := bind_eq_ok h
  obtain ⟨hrun, hstate⟩ := onEngine_eq_ok hpropagate
  have hvalid := ((EngineM.propagate_eq_ok hrun).advances hs).valid hs
  have hleaves := dischargeDeclared_leaves hvalid hdischarge
  have hall : (spans.map Span.function).Nodup := hspans.symm ▸ hnodup
  have hsub : (spans.filter fun s => (Γ.undeclared group).contains s.function).Sublist spans :=
    filter_sublist
  have hgen := generalise_generalises (hall.sublist (hsub.map _)) (hleaves.valid hvalid) hgeneralise
  have hann := announce_announces hannounce
  cases h
  have hengine : s₄.engine = s₃.engine := by rw [hann.rest_eq]
  have hsession : s₂.session = s.session := by rw [hleaves.rest_eq, hstate]
  refine ⟨s₁.engine,
    { propagated := hrun
      evolves := by
        rw [hengine]
        exact hleaves.kept.evolves.trans hgen.evolves
      names := by
        rw [hengine, ← hsession]
        exact (hleaves.kept.names _).trans hgen.names (Nat.le_refl _)
      supply_le := by
        rw [hann.rest_eq, ← hsession]
        exact hgen.supply_le
      waiting_eq := ?_
      added_eq := by rw [hengine, hgen.added_eq, hleaves.added_eq]
      solving_eq := by
        rw [hann.rest_eq]
        simp only
        rw [hgen.solving_eq, hleaves.rest_eq, hstate]
      provisional_eq := fun g => ?_
      done := hann.done
      others := fun g hg => ?_
      recorded := fun span hspan hd => ?_
      complete := fun span hspan hd i hi hcovers hentailed t ht => ?_
      owned := fun i hi hlt hentailed => ?_
      declared := fun g hg sig hd => by rw [hann.schemes_eq, if_pos hg, hd, Option.some_or]
      notes_eq := ?_
      scrutinees_eq := ?_ }⟩
  · rw [hengine, hgen.waiting_eq, hleaves.waiting_eq, filter_filter]
    refine filter_congr fun i _ => ?_
    unfold isEntailed
    cases decide (mark < i.seq) <;> rfl
  · rw [hann.rest_eq]
    simp only
    rw [hgen.provisional_eq, hleaves.rest_eq, hstate]
    simp only [function_mem_undeclared hspans]
  · rw [hann.schemes_eq, if_neg hg, hgen.others g, hleaves.rest_eq, hstate]
    rintro span hspan rfl
    rw [← hspans] at hg
    exact hg (mem_map_of_mem (hsub.subset hspan))
  · have hown := mem_generalised hspans hspan hd
    obtain ⟨t, ht, ⟨f, sig, hf, hget, hsig⟩, hclosed⟩ := hgen.recorded span hown
    rw [map_ownedBy hchained hall hsub hown hleaves.waiting_eq fun _ => rfl] at hsig
    rw [hengine]
    refine ⟨t, by rwa [hleaves.rest_eq, hstate] at ht, ⟨f, sig, hf, ?_, hsig⟩, hclosed⟩
    rw [hann.schemes_eq, hget, hd, Option.none_or, ite_self]
  · have hown := mem_generalised hspans hspan hd
    obtain ⟨j, hj, hrelation⟩ := exists_ownedBy hchained hall hsub hown hleaves.waiting_eq hi
      hcovers (by rw [hentailed]; rfl)
    rw [hengine]
    exact hgen.complete span hown j hj t (hrelation ▸ ht)
  · -- The instance is among those that generalisation finds, but for the queue.
    have hleft : i ∈ s₂.engine.waiting := by
      rw [hleaves.waiting_eq]
      exact mem_filter.2 ⟨hi, by rw [hentailed]; rfl⟩
    obtain ⟨j, hj, rfl⟩ := mem_map.1 hleft
    obtain ⟨span, hspan, hcovers⟩ :=
      hgen.owned j (mem_filter.2 ⟨hj, decide_eq_true hlt⟩)
    obtain ⟨hspan, hundeclared⟩ := mem_filter.1 hspan
    exact ⟨span, hspan, (mem_undeclared.1 (by simpa using hundeclared)).2, hcovers⟩
  · rw [hann.rest_eq]
    simp only
    rw [hgen.notes_eq.1, hgen.notes_eq.2, hleaves.rest_eq, hstate]
    exact ⟨rfl, rfl⟩
  · rw [hann.rest_eq]
    simp only
    rw [hgen.scrutinees_eq, hleaves.rest_eq, hstate]

end TensorTyping.Inference
