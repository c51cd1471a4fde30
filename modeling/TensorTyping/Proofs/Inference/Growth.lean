import TensorTyping.Inference.Group
import TensorTyping.Proofs.Inference.Changes

/-!
# Typing bodies adds instances

While the bodies of a group are typed, no instance is tried, and so none goes: those added for one
body stand behind all others, under consecutive numbers. This holds as long as no function has to
be typed on demand, because each one mentioned is done or being typed. The spans of the bodies
follow on one another, so that each number lies in one of them.
-/
namespace TensorTyping.Inference

open List

variable {g : Global} {span : Span} {gs : List Global} {spans : List Span}

/-- A function that need not be typed on demand. -/
def Known (Γ : Context) (s : State) (g : Global) : Prop :=
  Γ.module.functions.contains g = true →
    s.provisional.get? g ≠ none ∨ s.schemes.contains g = true ∨
      Γ.declared? g ≠ none ∧ s.solving.contains g = true

/-- Instances have been added, and what is known of functions is the same. -/
structure Grows (s s' : State) : Prop where
  gains : ∃ new, s.engine.Gains new s'.engine
  session_eq : s'.session = s.session
  schemes_eq : s'.schemes = s.schemes
  provisional_eq : s'.provisional = s.provisional
  solving_eq : s'.solving = s.solving

namespace Grows

variable {s s' s'' : State}

theorem refl (h : s.engine.store.Valid) : Grows s s :=
  ⟨⟨[], .of_rests (.refl h)⟩, rfl, rfl, rfl, rfl⟩

theorem trans (h : Grows s s') (h' : Grows s' s'') : Grows s s'' := by
  obtain ⟨new, hnew⟩ := h.gains
  obtain ⟨new', hnew'⟩ := h'.gains
  exact
    { gains := ⟨new ++ new', hnew.trans hnew'⟩
      session_eq := h'.session_eq.trans h.session_eq
      schemes_eq := h'.schemes_eq.trans h.schemes_eq
      provisional_eq := h'.provisional_eq.trans h.provisional_eq
      solving_eq := h'.solving_eq.trans h.solving_eq }

theorem of_engine {e : Engine} {new : List Instance} (h : s.engine.Gains new e) :
    Grows s { s with engine := e } :=
  ⟨⟨new, h⟩, rfl, rfl, rfl, rfl⟩

theorem valid (h : Grows s s') (hs : s.engine.Valid) : s'.engine.Valid := by
  obtain ⟨new, hnew⟩ := h.gains
  exact hnew.valid hs

theorem known {Γ : Context} (h : Grows s s') {g : Global} (hg : Known Γ s g) : Known Γ s' g := by
  unfold Known
  rw [h.provisional_eq, h.schemes_eq, h.solving_eq]
  exact hg

end Grows

variable {Γ : Context} {solve : Global → InferM Unit} {mentioned : Global → Prop} {s s' : State}
variable {α : Type} {e : Expr} {a b : Nat} {i : Instance}

theorem Known.not_wanted (h : Known Γ s g) (hf : Γ.module.functions.contains g = true)
    (hp : s.provisional.get? g = none) (hschemes : s.schemes.contains g = false)
    (hd : Γ.declared? g = none ∨ s.solving.contains g = false) : False := by
  rcases h hf with h | h | ⟨hdeclared, hsolving⟩
  · exact h hp
  · rw [hschemes] at h
    contradiction
  · rcases hd with hd | hd
    · exact hdeclared hd
    · rw [hd] at hsolving
      contradiction

theorem Worked.gains (h : Worked s s') (hs : s.engine.Valid) :
    ∃ new, s.engine.Gains new s'.engine := by
  obtain ⟨e, he, rfl⟩ := h
  induction he with
  | refl => exact ⟨[], .of_rests (.refl hs.store)⟩
  | tail _ hstep ih =>
    obtain ⟨new, hnew⟩ := ih
    have hvalid := hnew.valid hs
    cases hstep with
    | stored op =>
      exact ⟨_, hnew.trans (.of_rests (Engine.moved_rests (hvalid.store.after_evolves op)))⟩
    | added i hi => exact ⟨_, hnew.trans (.enlist hvalid.store hi)⟩

theorem Worked.valid (h : Worked s s') (hs : s.engine.Valid) : s'.engine.Valid := by
  obtain ⟨new, hnew⟩ := h.gains hs
  exact hnew.valid hs

theorem Worked.evolves (h : Worked s s') (hs : s.engine.Valid) :
    s.engine.store.Evolves s'.engine.store := by
  obtain ⟨new, hnew⟩ := h.gains hs
  exact hnew.evolves

theorem Change.grows (h : Change Γ solve mentioned s s') (hs : s.engine.Valid)
    (hsolve : ∀ g, mentioned g → ¬ Known Γ s g → Grows s (endState (solve g) s)) : Grows s s' := by
  cases h with
  | noted nodeTypes callArgs scope scrutinees =>
    exact ⟨⟨[], .of_rests (.refl hs.store)⟩, rfl, rfl, rfl, rfl⟩
  | stored op => exact .of_engine (.of_rests (Engine.moved_rests (hs.store.after_evolves op)))
  | added i hi => exact .of_engine (.enlist hs.store hi)
  | solved g hg hf hp hschemes hd =>
    exact hsolve g hg fun hk => hk.not_wanted hf hp hschemes hd

theorem Changes.grows (h : Changes Γ solve mentioned s s') (hs : s.engine.Valid)
    (hk : ∀ g, mentioned g → Known Γ s g) : Grows s s' := by
  induction h with
  | refl => exact .refl hs.store
  | tail _ hchange ih =>
    refine ih.trans (hchange.grows (ih.valid hs) fun g hg hnot => ?_)
    exact absurd (ih.known (hk g hg)) hnot

theorem infer_grows (hs : s.engine.Valid) (hk : ∀ g ∈ e.mentions, Known Γ s g) (env : Env) :
    Grows s (endState (infer Γ solve e env) s) :=
  (infer_changes e (fun _ hg => hg) env s).grows hs hk

/-- Where the functions that an expression mentions are known, typing it goes the same way whatever
is done on demand, with success or not. -/
theorem infer_coincide {solve' : Global → InferM Unit} (hs : s.engine.Valid)
    (hk : ∀ g ∈ e.mentions, Known Γ s g) (env : Env) :
    infer Γ solve e env s = infer Γ solve' e env s := by
  rcases (Remit.infer_liberal solve' e (fun _ hg => hg) env s).same with heq | ⟨s₁, g, h₁, hg⟩
  · exact heq
  · have hknown := (h₁.changes.grows hs hk).known (hk g hg.mentioned)
    exact (hknown.not_wanted hg.present hg.unprovided hg.undone hg.undeclared).elim

theorem exists_of_mem_forall₂ {β : Type} {R : α → β → Prop} {as : List α} {bs : List β}
    (h : List.Forall₂ R as bs) {a : α} (ha : a ∈ as) : ∃ b ∈ bs, R a b := by
  induction h with
  | nil => cases ha
  | cons hab _ ih =>
    rcases mem_cons.1 ha with rfl | ha
    · exact ⟨_, .head _, hab⟩
    · obtain ⟨b, hb, hab⟩ := ih ha
      exact ⟨b, .tail _ hb, hab⟩

theorem onEngine_eq_ok {act : EngineM α} {a : α} (h : onEngine act s = .ok a s') :
    act s.engine = .ok a s'.engine ∧ s' = { s with engine := s'.engine } := by
  unfold onEngine at h
  cases hact : act s.engine with
  | ok b e =>
    rw [hact] at h
    cases h
    exact ⟨rfl, rfl⟩
  | error f e =>
    rw [hact] at h
    cases h

theorem relate_eq_ok {r : TypeRelation} {site : Phrase} {attrs : Attrs} {u : Unit}
    (h : relate Γ r site attrs s = .ok u s') :
    s' = { s with engine := (s.engine.enlist
      ⟨s.engine.added + 1, r, some site, r.attrs.merge attrs, true⟩) } := by
  obtain ⟨hrun, heq⟩ := onEngine_eq_ok h
  obtain ⟨i, e, hadd, hpure⟩ := bind_ok_iff.1 hrun
  rcases EngineM.add_outcome Γ.registry r (some site) attrs s.engine with ⟨f, hf⟩ | hok
  · rw [hf] at hadd
    cases hadd
  · rw [hok] at hadd
    cases hadd
    rw [heq, (pure_ok_iff.1 hpure).2]

theorem onStore_rests {act : StoreM α} {a : α}
    (hact : s.engine.store.Evolves (endState act s.engine.store))
    (h : onEngine (EngineM.onStore act) s = .ok a s') :
    s.engine.Rests s'.engine ∧ s' = { s with engine := s'.engine } := by
  obtain ⟨hrun, hstate⟩ := onEngine_eq_ok h
  refine ⟨?_, hstate⟩
  rw [← endState_of_ok hrun, EngineM.endState_onStore]
  exact Engine.moved_rests hact

theorem typeBody_eq_ok (h : typeBody Γ solve g s = .ok span s') :
    ∃ f t s₁, Γ.module.functions.get? g = some f ∧ infer Γ solve f.toExpr [] s = .ok t s₁ ∧
      span = ⟨g, s.engine.added, s₁.engine.added⟩ ∧
      (s₁.engine.store.Valid →
        s₁.engine.Rests s'.engine ∧ s' = { s₁ with engine := s'.engine }) := by
  unfold typeBody at h
  cases hf : Γ.module.functions.get? g with
  | none =>
    simp only [hf] at h
    rw [throw_run] at h
    cases h
  | some f =>
    simp only [hf] at h
    rw [get_bind] at h
    obtain ⟨t, s₁, hinfer, h⟩ := bind_eq_ok h
    rw [get_bind, get_bind] at h
    cases hp : s₁.provisional.get? g with
    | none =>
      simp only [hp] at h
      obtain ⟨rfl, rfl⟩ : _ = span ∧ s₁ = s' := by simpa [pure, EStateM.pure] using h
      exact ⟨f, t, s₁, rfl, hinfer, rfl, fun hs => ⟨.refl hs, rfl⟩⟩
    | some u =>
      simp only [hp] at h
      obtain ⟨_, s₂, hunify, h⟩ := bind_eq_ok h
      cases h
      refine ⟨f, t, s₁, rfl, hinfer, rfl, fun hs => ?_⟩
      exact onStore_rests (StoreM.unify_evolves hs _ _ _) hunify

theorem typeBodies_cons (h : typeBodies Γ solve (g :: gs) s = .ok spans s') :
    ∃ span s₁ rest, typeBody Γ solve g s = .ok span s₁ ∧
      typeBodies Γ solve gs s₁ = .ok rest s' ∧ spans = span :: rest := by
  unfold typeBodies at h
  obtain ⟨span, s₁, hbody, h⟩ := bind_eq_ok h
  obtain ⟨rest, s₂, hrest, h⟩ := bind_eq_ok h
  cases h
  exact ⟨span, s₁, rest, hbody, hrest, rfl⟩

theorem typeBodies_append {hs : List Global} (h : typeBodies Γ solve (gs ++ hs) s = .ok spans s') :
    ∃ first s₁ last, typeBodies Γ solve gs s = .ok first s₁ ∧
      typeBodies Γ solve hs s₁ = .ok last s' ∧ spans = first ++ last := by
  induction gs generalizing s spans with
  | nil => exact ⟨[], s, spans, rfl, h, rfl⟩
  | cons g gs ih =>
    obtain ⟨span, s₁, rest, hbody, hrest, rfl⟩ := typeBodies_cons h
    obtain ⟨first, s₂, last, hfirst, hlast, rfl⟩ := ih hrest
    refine ⟨span :: first, s₂, last, ?_, hlast, rfl⟩
    unfold typeBodies
    rw [bind_of_ok hbody, bind_of_ok hfirst]
    rfl

/-- Spans that follow on one another, from the number `a` to the number `b`. -/
def Chained : Nat → List Span → Nat → Prop
  | a, [], b => a = b
  | a, span :: spans, b => span.after = a ∧ a ≤ span.upTo ∧ Chained span.upTo spans b

theorem Chained.bounds (h : Chained a spans b) :
    a ≤ b ∧ ∀ span ∈ spans, a ≤ span.after ∧ span.upTo ≤ b := by
  induction spans generalizing a with
  | nil => exact ⟨Nat.le_of_eq h, forall_mem_nil _⟩
  | cons span spans ih =>
    obtain ⟨hafter, hle, hrest⟩ := h
    obtain ⟨hb, hspans⟩ := ih hrest
    refine ⟨hle.trans hb, fun other hother => ?_⟩
    rcases mem_cons.1 hother with rfl | hother
    · exact ⟨Nat.le_of_eq hafter.symm, hb⟩
    · exact ⟨hle.trans (hspans other hother).1, (hspans other hother).2⟩

theorem covers_iff : span.covers i = true ↔ span.after < i.seq ∧ i.seq ≤ span.upTo := by
  simp [Span.covers]

theorem Chained.eq_of_covers (h : Chained a spans b) {x y : Span} (hx : x ∈ spans) (hy : y ∈ spans)
    (hxi : x.covers i = true) (hyi : y.covers i = true) : x = y := by
  induction spans generalizing a with
  | nil => exact absurd hx not_mem_nil
  | cons span spans ih =>
    obtain ⟨-, -, hrest⟩ := h
    have hlater := hrest.bounds.2
    rw [covers_iff] at hxi hyi
    rcases mem_cons.1 hx with rfl | hx'
    · rcases mem_cons.1 hy with rfl | hy'
      · rfl
      · have := (hlater y hy').1
        omega
    · rcases mem_cons.1 hy with rfl | hy'
      · have := (hlater x hx').1
        omega
      · exact ih hrest hx' hy'

theorem typeBody_grows (hs : s.engine.Valid)
    (hk : ∀ f, Γ.module.functions.get? g = some f → ∀ r ∈ f.body.mentions, Known Γ s r)
    (h : typeBody Γ solve g s = .ok span s') :
    Grows s s' ∧ span = ⟨g, s.engine.added, s'.engine.added⟩ := by
  obtain ⟨f, t, s₁, hf, hinfer, rfl, hjoin⟩ := typeBody_eq_ok h
  have hmentions : ∀ r ∈ f.toExpr.mentions, Known Γ s r := hk f hf
  have hgrows : Grows s (endState (infer Γ solve f.toExpr []) s) := infer_grows hs hmentions []
  rw [endState_of_ok hinfer] at hgrows
  obtain ⟨hrests, hstate⟩ := hjoin (hgrows.valid hs).store
  constructor
  · rw [hstate]
    exact hgrows.trans (.of_engine (.of_rests hrests))
  · rw [hrests.added_eq]

theorem typeBodies_grows (hs : s.engine.Valid)
    (hk : ∀ g ∈ gs, ∀ f, Γ.module.functions.get? g = some f → ∀ r ∈ f.body.mentions, Known Γ s r)
    (h : typeBodies Γ solve gs s = .ok spans s') :
    Grows s s' ∧ spans.map Span.function = gs ∧
      Chained s.engine.added spans s'.engine.added := by
  induction gs generalizing s spans with
  | nil =>
    cases h
    exact ⟨.refl hs.store, rfl, rfl⟩
  | cons g gs ih =>
    obtain ⟨span, s₁, rest, hbody, hrest, rfl⟩ := typeBodies_cons h
    obtain ⟨hgrows, rfl⟩ := typeBody_grows hs (hk g (by simp)) hbody
    obtain ⟨hmore, hfunctions, hchained⟩ := ih (hgrows.valid hs)
      (fun g hg f hf r hr => hgrows.known (hk g (.tail _ hg) f hf r hr)) hrest
    refine ⟨hgrows.trans hmore, ?_, rfl, ?_, hchained⟩
    · rw [map_cons, hfunctions]
    · obtain ⟨new, hnew⟩ := hgrows.gains
      exact hnew.added_eq ▸ Nat.le_add_right _ _

end TensorTyping.Inference
