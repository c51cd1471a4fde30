import TensorTyping.Proofs.Engine.Discipline
import TensorTyping.Proofs.Inference.Completeness
import TensorTyping.Proofs.Inference.Order
import TensorTyping.Proofs.Inference.Soundness

/-!
# Steps that keep to a discipline

The operations that typing an expression is made of keep to a discipline if what they are given
conforms to it: whatever becomes known of types conforms, and if they stop, then with a fault that
the discipline allows. In particular they blame phrases that may be blamed, and show types that
belong to the store.
-/
namespace TensorTyping

open List

variable {ts : List Ty} {i : Issue}

namespace Pattern

mutual
def phrases : Pattern → List Phrase
  | .wildcard n => [.pattern (.wildcard n)]
  | .var n x => [.pattern (.var n x), .expr (.var x)]
  | .ctor n c subs => .pattern (.ctor n c subs) :: phrasesList subs
def phrasesList : List Pattern → List Phrase
  | [] => []
  | p :: ps => p.phrases ++ phrasesList ps
end

theorem self_mem_phrases (p : Pattern) : .pattern p ∈ p.phrases := by
  cases p <;> simp [phrases]

end Pattern

namespace Expr

def ownPhrases : Expr → List Phrase
  | .fn n params body ret ps rs =>
    .expr (.fn n params body ret ps rs) :: params.map fun x => .expr (.var x)
  | .letIn n x value body => [.expr (.letIn n x value body), .expr (.var x)]
  | .matchOn n subject clauses =>
    .expr (.matchOn n subject clauses) :: clauses.flatMap fun c => c.1.phrases
  | e => [.expr e]

def phrases (e : Expr) : List Phrase := e.parts.flatMap ownPhrases

theorem self_mem_ownPhrases (e : Expr) : .expr e ∈ e.ownPhrases := by
  cases e <;> simp [ownPhrases]

def relations : Expr → List TypeRelation
  | .fn _ _ _ _ _ rs => rs
  | _ => []

def settings? : Expr → Option Attrs
  | .call _ _ _ _ attrs => some attrs
  | _ => none

def literal? : Expr → Option Constant
  | .constant _ c => some c
  | _ => none

end Expr

namespace Inference

theorem of_misformedList? {m : Module} {site : Option Phrase} {P : Issue → Prop}
    (h : ∀ t ∈ ts, ∀ scope i, misformed? m scope site t = some i → P i) {scope : List TypeParam}
    (hi : misformedList? m scope site ts = some i) : P i := by
  induction ts with
  | nil => cases hi
  | cons t ts ih =>
    rw [forall_mem_cons] at h
    unfold misformedList? at hi
    rcases Option.or_eq_some_iff.1 hi with hi | ⟨-, hi⟩
    · exact h.1 scope i hi
    · exact ih h.2 hi

/-- A written type that is not well formed is shown at the phrase that it is written in. -/
theorem misformed?_shown (m : Module) {phrase : Phrase → Prop} {site : Phrase} (hsite : phrase site)
    (s : Store) (t : Ty) : ∀ scope i, misformed? m scope (some site) t = some i →
      i.Shown phrase s := by
  induction t using Ty.induction_children with
  | step t ih =>
    intro scope i hi
    unfold misformed? at hi
    cases t with
    | tensor | cell => cases hi
    | tuple ts => exact of_misformedList? ih hi
    | func as r ps rs =>
      rcases Option.or_eq_some_iff.1 hi with hi | ⟨-, hi⟩
      · exact of_misformedList? (fun t ht => ih t (by simp [ht])) hi
      · exact ih r (by simp) _ i hi
    | param p =>
      dsimp only at hi
      split at hi
      · cases hi
        refine ⟨⟨site, rfl, hsite⟩, ?_, Issue.fits_of_holes 1 (by cbv) rfl⟩
        simp [Store.ownsAll_iff, Ty.cellOccurrences]
      · split at hi
        · cases hi
        · cases hi
          refine ⟨⟨site, rfl, hsite⟩, ?_, Issue.fits_of_holes 2 (by cbv) rfl⟩
          simp [Evidence.ofText, Store.ownsAll_iff, Ty.cellOccurrences]
    | handle n =>
      cases hi
      refine ⟨⟨site, rfl, hsite⟩, ?_, Issue.fits_of_holes 1 (by cbv) rfl⟩
      simp [Store.ownsAll_iff, Ty.cellOccurrences]
    | data n as =>
      dsimp only at hi
      split at hi
      · cases hi
        refine ⟨⟨site, rfl, hsite⟩, ?_, Issue.fits_of_holes 1 (by cbv) rfl⟩
        exact forall_mem_nil _
      · split at hi
        · cases hi
          refine ⟨⟨site, rfl, hsite⟩, ?_, Issue.fits_of_holes 2 (by cbv) rfl⟩
          exact forall_mem_nil _
        · exact of_misformedList? ih hi

end Inference

namespace Discipline

open Inference

variable {D : Discipline} {Γ : Context} {mentioned : Global → Prop} {s s' : State} {α β : Type}
variable {e : Expr} {n : Serial} {S : Store} {env : Env} {sig : Signature} {p : Phrase}
  {explicit : Option (List Ty)}

/-- A signature all of whose types are all right, and all of whose relations. -/
structure FairSignature (D : Discipline) (s : Store) (sig : Signature) : Prop where
  args : ∀ a ∈ sig.args, D.Fair s a
  ret : D.Fair s sig.ret
  slots : ∀ r ∈ sig.relations, ∀ a ∈ r.args, D.Fair s a
  settings : ∀ r ∈ sig.relations, D.setting r.name r.attrs

def Allows (D : Discipline) (t : Ty) : Prop := Ty.Everywhere D.part t ∧ t.cellOccurrences = []

structure AllowsSignature (D : Discipline) (sig : Signature) : Prop where
  args : ∀ a ∈ sig.args, D.Allows a
  ret : D.Allows sig.ret
  slots : ∀ r ∈ sig.relations, ∀ a ∈ r.args, D.Allows a
  settings : ∀ r ∈ sig.relations, D.setting r.name r.attrs

theorem Allows.fair {t : Ty} (h : D.Allows t) (s : Store) : D.Fair s t := .of_closed h.1 h.2

theorem AllowsSignature.fair (h : D.AllowsSignature sig) (s : Store) : D.FairSignature s sig where
  args a ha := (h.args a ha).fair s
  ret := h.ret.fair s
  slots r hr a ha := (h.slots r hr a ha).fair s
  settings := h.settings

/-- What a run refers to is all right. -/
structure Fits (D : Discipline) (Γ : Context) (mentioned : Global → Prop) : Prop where
  coherent : D.Coherent Γ.registry
  operators : ∀ name sig, Γ.operators.table.get? name = some sig → D.AllowsSignature sig
  declared : ∀ g sig, mentioned g → Γ.declared? g = some sig → D.AllowsSignature sig

/-- A state in which the engine keeps to the discipline, what is known of the functions that may be
mentioned is all right, and what is noted belongs to the store. -/
structure Proper (D : Discipline) (Γ : Context) (mentioned : Global → Prop) (s : State) : Prop where
  governs : D.Governs Γ.registry s.engine
  provisional : ∀ g t, mentioned g → s.provisional.get? g = some t → D.Fair s.engine.store t
  schemes : ∀ g sig, mentioned g → s.schemes.get? g = some sig → D.AllowsSignature sig
  known : ∀ g, mentioned g → Known Γ s g
  notes : ∀ x ∈ s.nodeTypes.entries, D.phrase x.2.1 ∧ s.engine.store.ownsAll x.2.2 = true
  calls : ∀ x ∈ s.callArgs.entries, ∀ t ∈ x.2, s.engine.store.ownsAll t = true
  subjects : ∀ x ∈ s.scrutinees, D.phrase (.expr x.1) ∧ s.engine.store.ownsAll x.2 = true

namespace Proper

section

variable (h : D.Proper Γ mentioned s)

include h

theorem store_valid : s.engine.store.Valid := h.governs.store_valid

theorem onEngine {e : Engine} (he : D.Governs Γ.registry e)
    (hs : s.engine.store.Proceeds D.part e.store) :
    D.Proper Γ mentioned { s with engine := e } where
  governs := he
  provisional g t hg ht := (h.provisional g t hg ht).proceeds hs
  schemes := h.schemes
  known := h.known
  notes x hx := (h.notes x hx).imp_right hs.evolves.later.ownsAll
  calls x hx t ht := hs.evolves.later.ownsAll (h.calls x hx t ht)
  subjects x hx := (h.subjects x hx).imp_right hs.evolves.later.ownsAll

theorem noteAt {t : Ty} (hp : D.phrase p) (ht : s.engine.store.ownsAll t = true) :
    D.Proper Γ mentioned { s with nodeTypes := s.nodeTypes.insert n (p, t) } :=
  { h with
    notes := by
      intro x hx
      rcases Table.mem_entries_insert hx with rfl | hx
      · exact ⟨hp, ht⟩
      · exact h.notes x hx }

theorem call (hts : ∀ t ∈ ts, s.engine.store.ownsAll t = true) :
    D.Proper Γ mentioned { s with callArgs := s.callArgs.insert n ts } :=
  { h with
    calls := by
      intro x hx
      rcases Table.mem_entries_insert hx with rfl | hx
      · exact hts
      · exact h.calls x hx }

theorem subject {t : Ty} (hp : D.phrase (.expr e)) (ht : s.engine.store.ownsAll t = true) :
    D.Proper Γ mentioned { s with scrutinees := s.scrutinees ++ [(e, t)] } :=
  { h with
    subjects := by
      intro x hx
      rcases mem_append.1 hx with hx | hx
      · exact h.subjects x hx
      · obtain rfl := mem_singleton.1 hx
        exact ⟨hp, ht⟩ }

theorem withScope (scope : List TypeParam) : D.Proper Γ mentioned { s with scope } := { h with }

end

end Proper

/-- However the computation ends, it has kept to the discipline. Of its result `Q` holds in the
store that it leaves, and what is in scope is as it was. -/
def Safe (D : Discipline) (Γ : Context) (mentioned : Global → Prop) (act : InferM α) (s : State)
    (Q : α → Store → Prop) : Prop :=
  Ends act s
    (fun a s' => D.Proper Γ mentioned s' ∧
      s.engine.store.Proceeds D.part s'.engine.store ∧ Q a s'.engine.store ∧ s'.scope = s.scope)
    fun f s' => D.stops f s'.engine.store

namespace Safe

variable {P Q : α → Store → Prop} {R : β → Store → Prop}
variable {x : InferM α} {f : α → InferM β}

protected theorem pure {a : α} (h : D.Proper Γ mentioned s) (ha : Q a s.engine.store) :
    D.Safe Γ mentioned (pure a) s Q :=
  Ends.pure ⟨h, .refl h.store_valid, ha, rfl⟩

/-- The second computation may rely on how the first has gone. -/
theorem bind_run (hx : D.Safe Γ mentioned x s P)
    (hf : ∀ a s', x s = .ok a s' → D.Proper Γ mentioned s' →
      s.engine.store.Proceeds D.part s'.engine.store → P a s'.engine.store →
      D.Safe Γ mentioned (f a) s' R) : D.Safe Γ mentioned (x >>= f) s R := by
  apply Ends.bind_run hx
  rintro a s' hrun ⟨hs', hproceeds, ha, hscope⟩
  apply (hf a s' hrun hs' hproceeds ha).mono
  rintro b s'' ⟨hs'', hmore, hb, hscope'⟩
  exact ⟨hs'', hproceeds.trans hmore, hb, hscope'.trans hscope⟩

protected theorem bind (hx : D.Safe Γ mentioned x s P)
    (hf : ∀ a s', D.Proper Γ mentioned s' → s.engine.store.Proceeds D.part s'.engine.store →
      P a s'.engine.store → D.Safe Γ mentioned (f a) s' R) : D.Safe Γ mentioned (x >>= f) s R :=
  hx.bind_run fun a s' _ => hf a s'

theorem mono (hx : D.Safe Γ mentioned x s P) (h : ∀ a s', P a s' → Q a s') :
    D.Safe Γ mentioned x s Q :=
  Ends.mono hx fun a s' ha => ⟨ha.1, ha.2.1, h a s'.engine.store ha.2.2.1, ha.2.2.2⟩

theorem get_bind {f : State → InferM α} (h : D.Safe Γ mentioned (f s) s Q) :
    D.Safe Γ mentioned (get >>= f) s Q := Ends.get_bind h

theorem modify_bind {g : State → State} {f : PUnit → InferM α}
    (hstore : (g s).engine.store = s.engine.store) (hscope : (g s).scope = s.scope)
    (h : D.Safe Γ mentioned (f ⟨⟩) (g s) Q) : D.Safe Γ mentioned (modify g >>= f) s Q := by
  apply Ends.modify_bind
  unfold Safe at h
  rwa [hstore, hscope] at h

protected theorem ite {p : Prop} [Decidable p] {y : InferM α} (hx : p → D.Safe Γ mentioned x s Q)
    (hy : ¬ p → D.Safe Γ mentioned y s Q) :
    D.Safe Γ mentioned (if p then x else y) s Q := Ends.ite hx hy

end Safe

section

variable (hD : D.Coherent Γ.registry) {P Q : α → Store → Prop}
variable {t : Ty} {site : Phrase} {attrs : Attrs}

include hD

theorem complain_safe (h : i.Shown D.phrase s.engine.store) : D.Safe Γ mentioned (complain i) s Q :=
  Ends.throw (hD.blames ⟨i, rfl, h⟩)

theorem complain_bind_safe {f : β → InferM α} (h : i.Shown D.phrase s.engine.store) :
    D.Safe Γ mentioned (complain i >>= f) s Q :=
  Ends.throw_bind (hD.blames ⟨i, rfl, h⟩)

section

variable (h : D.Proper Γ mentioned s)

include h

omit hD in
theorem onEngine_safe {act : EngineM α}
    (hact : D.Keeps Γ.registry act s.engine fun a e => Q a e.store) :
    D.Safe Γ mentioned (Inference.onEngine act) s Q := by
  cases hrun : act s.engine with
  | ok a e =>
    obtain ⟨hgov, hproceeds, ha⟩ := hact.of_ok hrun
    have hengine : Inference.onEngine act s = .ok a { s with engine := e } := by
      unfold Inference.onEngine
      rw [hrun]
    exact .of_eq_ok hengine ⟨h.onEngine hgov hproceeds, hproceeds, ha, rfl⟩
  | error f e =>
    have hengine : Inference.onEngine act s = .error f { s with engine := e } := by
      unfold Inference.onEngine
      rw [hrun]
    exact .of_eq_error hengine (hact.of_error hrun)

omit hD in
theorem fresh_safe : D.Safe Γ mentioned fresh s fun t S => D.Fair S t :=
  onEngine_safe h (fresh_keeps h.governs)

omit h in
omit hD in
theorem freshFor_safe (as : List β) (h : D.Proper Γ mentioned s) :
    D.Safe Γ mentioned (freshFor as) s fun ts S => ∀ t ∈ ts, D.Fair S t := by
  induction as generalizing s with
  | nil => exact .pure h fun t ht => absurd ht not_mem_nil
  | cons a as ih =>
    apply (fresh_safe h).bind
    intro t s₁ hs₁ _ ht
    apply (ih hs₁).bind
    intro ts s₂ hs₂ hmore hts
    exact .pure hs₂ (forall_mem_cons.2 ⟨ht.proceeds hmore, hts⟩)

omit hD in
theorem find_safe (ht : s.engine.store.ownsAll t = true) :
    D.Safe Γ mentioned (find t) s fun u S => u = s.engine.store.top t ∧ s.engine.store.Kept S :=
  onEngine_safe h (find_keeps h.governs ht)

omit hD in
theorem resolve_safe (ht : s.engine.store.ownsAll t = true) :
    D.Safe Γ mentioned (resolve t) s
      fun u S => u = s.engine.store.resolve t ∧ s.engine.store.Kept S :=
  onEngine_safe h (resolve_keeps h.governs ht)

theorem unify_safe {a b : Ty} (hsite : D.phrase site) (ha : D.Fair s.engine.store a)
    (hb : D.Fair s.engine.store b) :
    D.Safe Γ mentioned (unify a b site) s fun _ S => S.Agrees (a, b) :=
  onEngine_safe h (unify_keeps hD h.governs hsite ha hb)

theorem relate_safe {r : TypeRelation} (hslots : ∀ a ∈ r.args, D.Fair s.engine.store a)
    (hsite : D.phrase site) (hsetting : D.setting r.name r.attrs) (hattrs : D.added attrs) :
    D.Safe Γ mentioned (relate Γ r site attrs) s fun _ _ => True := by
  apply onEngine_safe h
  apply Ends.bind (add_keeps hD h.governs hslots hsite hsetting hattrs)
  exact fun _ _ ha => .pure ⟨ha.1, ha.2.1, trivial⟩

theorem relateAll_safe {rs : List TypeRelation}
    (hslots : ∀ r ∈ rs, ∀ a ∈ r.args, D.Fair s.engine.store a) (hsite : D.phrase site)
    (hsettings : ∀ r ∈ rs, D.setting r.name r.attrs) (hattrs : D.added attrs) :
    D.Safe Γ mentioned (relateAll Γ site attrs rs) s fun _ _ => True := by
  induction rs generalizing s with
  | nil => exact .pure h trivial
  | cons r rs ih =>
    rw [forall_mem_cons] at hslots hsettings
    apply (relate_safe hD h hslots.1 hsite hsettings.1 hattrs).bind
    intro _ s₁ hs₁ hmore _
    exact ih hs₁ (fun r hr a ha => (hslots.2 r hr a ha).proceeds hmore) hsettings.2

omit hD in
theorem noteAt_safe (hp : D.phrase p) (ht : s.engine.store.ownsAll t = true) :
    D.Safe Γ mentioned (noteAt n p t) s fun _ S => S = s.engine.store :=
  .of_eq_ok rfl ⟨h.noteAt hp ht, .refl h.store_valid, rfl, rfl⟩

omit hD in
theorem note_safe (hp : D.phrase (.expr e)) (ht : s.engine.store.ownsAll t = true) :
    D.Safe Γ mentioned (note e t) s fun _ S => S = s.engine.store :=
  .ite (fun _ => .pure h rfl) fun _ => noteAt_safe h hp ht

omit h in
theorem typed_safe {act : InferM Ty} {Q : Ty → Store → Prop} (hp : D.phrase (.expr e))
    (hact : D.Safe Γ mentioned act s Q) (howned : ∀ t S, Q t S → S.ownsAll t = true) :
    D.Safe Γ mentioned (typed e act) s Q := by
  refine typed_ends hact ?_ fun f s₁ hf => hD.blame _ hf
  rintro t s₁ ⟨hs₁, hproceeds, ht, hscope⟩
  have hnote : note e t s₁ = .ok () (s₁.notedExpr e t) := note_ok_iff.2 rfl
  obtain ⟨hs₂, hmore, heq, hscope'⟩ := (note_safe hs₁ hp (howned t _ ht)).of_ok hnote
  exact ⟨hs₂, hproceeds.trans hmore, heq ▸ ht, hscope'.trans hscope⟩

omit h in
omit hD in
theorem withScope_safe {params : List TypeParam} {act : InferM α}
    (h : D.Safe Γ mentioned act { s with scope := s.scope ++ params } Q) :
    D.Safe Γ mentioned (withScope params act) s Q := by
  refine (withScope_ends h).imp ?_ ?_
  · rintro a _ ⟨s₁, ⟨hs₁, hproceeds, ha, -⟩, rfl⟩
    exact ⟨hs₁.withScope s.scope, hproceeds, ha, rfl⟩
  · rintro f _ ⟨s₁, hstops, rfl⟩
    exact hstops

theorem checkWritten_safe (hsite : D.phrase site) :
    D.Safe Γ mentioned (checkWritten Γ ts site) s fun _ S => S = s.engine.store := by
  apply Safe.get_bind
  cases hmis : misformedList? Γ.module s.scope (some site) ts with
  | some i => exact complain_safe hD (of_misformedList? (fun t _ => misformed?_shown _ hsite _ t) hmis)
  | none => exact .pure h rfl

omit h in
theorem allows_ctorSignature (d : DataType) {c : Ctor} (h : ∀ t ∈ c.inputs, D.Allows t) :
    D.AllowsSignature (d.ctorSignature c) where
  args := h
  ret := by
    have hparams : ∀ u ∈ d.selfType.children, ∃ p, u = .param p := by
      intro u hu
      obtain ⟨p, -, rfl⟩ := mem_map.1 hu
      exact ⟨p, rfl⟩
    constructor
    · apply Ty.Everywhere.intro (hD.data _ _)
      intro u hu
      obtain ⟨p, rfl⟩ := hparams u hu
      exact .intro (hD.param p) fun v hv => absurd hv not_mem_nil
    · rw [eq_nil_iff_forall_not_mem]
      intro c hc
      rcases Ty.mem_cellOccurrences.1 hc with heq | ⟨u, hu, hc⟩
      · cases heq
      · obtain ⟨p, rfl⟩ := hparams u hu
        cases hc
  slots r hr := absurd hr not_mem_nil
  settings r hr := absurd hr not_mem_nil

theorem refuseKinds_safe {ps : List TypeParam} (hsite : D.phrase site) :
    D.Safe Γ mentioned (refuseKinds site ps) s fun _ S => S = s.engine.store := by
  induction ps with
  | nil => exact .pure h rfl
  | cons p ps ih =>
    apply Safe.ite
    · exact fun _ => ih
    · intro _
      apply complain_safe hD
      refine ⟨⟨site, rfl, hsite⟩, ?_, Issue.fits_of_holes 2 (by cbv) rfl⟩
      simp [Evidence.ofText, Store.ownsAll_iff, Ty.cellOccurrences]

theorem instantiate_safe (hsig : D.FairSignature s.engine.store sig)
    (hexplicit : ∀ t ∈ explicit.getD [], D.Fair s.engine.store t) (hsite : D.phrase site)
    (hattrs : D.added attrs) :
    D.Safe Γ mentioned (instantiate Γ sig explicit site attrs) s fun r S =>
      (∃ as ret ps rs, r.1 = .func as ret ps rs) ∧ D.Fair S r.1 ∧ ∀ t ∈ r.2, D.Fair S t := by
  -- A signature without parameters is its own instance.
  have hclosed {s₀ : State} (hs₀ : D.Proper Γ mentioned s₀)
      (h₀ : s₀.engine.store = s.engine.store) (hp : sig.params = []) : D.Safe Γ mentioned (do
        relateAll Γ site attrs sig.relations
        return (sig.toTy, [])) s₀ fun r S =>
      (∃ as ret ps rs, r.1 = .func as ret ps rs) ∧ D.Fair S r.1 ∧ ∀ t ∈ r.2, D.Fair S t := by
    rw [← h₀] at hsig
    apply (relateAll_safe hD hs₀ hsig.slots hsite hsig.settings hattrs).bind
    intro _ s₁ hs₁ hmore _
    refine .pure hs₁ ⟨⟨_, _, _, _, rfl⟩, Store.Meets.proceeds ?_ hmore, forall_mem_nil _⟩
    rw [Signature.toTy, hp]
    apply Fair.intro hD rfl (hD.func sig.args sig.ret hsig.settings)
    intro u hu
    simp only [Ty.mem_children_func] at hu
    rcases hu with hu | rfl | ⟨r, hr, hu⟩
    · exact hsig.args u hu
    · exact hsig.ret
    · exact hsig.slots r hr u hu
  have hopen {ts : List Ty} {s₀ : State} (hs₀ : D.Proper Γ mentioned s₀)
      (h₀ : s.engine.store.Proceeds D.part s₀.engine.store)
      (hts : ∀ t ∈ ts, D.Fair s₀.engine.store t) : D.Safe Γ mentioned (do
        relateAll Γ site attrs
          (sig.relations.map (Substitution.ofParams sig.params ts).applyRelation)
        return (.func (sig.args.map (Substitution.ofParams sig.params ts).apply)
          ((Substitution.ofParams sig.params ts).apply sig.ret) [] [], ts)) s₀ fun r S =>
      (∃ as ret ps rs, r.1 = .func as ret ps rs) ∧ D.Fair S r.1 ∧ ∀ t ∈ r.2, D.Fair S t := by
    have happly {t : Ty} (ht : D.Fair s.engine.store t) :
        D.Fair s₀.engine.store ((Substitution.ofParams sig.params ts).apply t) :=
      .apply hD hts (ht.proceeds h₀)
    have hslots : ∀ r ∈ sig.relations.map (Substitution.ofParams sig.params ts).applyRelation,
        ∀ a ∈ r.args, D.Fair s₀.engine.store a := by
      intro r' hr' a' ha'
      obtain ⟨r, hr, rfl⟩ := mem_map.1 hr'
      obtain ⟨a, ha, rfl⟩ := mem_map.1 ha'
      exact happly (hsig.slots r hr a ha)
    have hsettings : ∀ r ∈ sig.relations.map (Substitution.ofParams sig.params ts).applyRelation,
        D.setting r.name r.attrs := by
      intro r' hr'
      obtain ⟨r, hr, rfl⟩ := mem_map.1 hr'
      exact hsig.settings r hr
    apply (relateAll_safe hD hs₀ hslots hsite hsettings hattrs).bind
    intro _ s₁ hs₁ hmore _
    refine .pure hs₁ ⟨⟨_, _, _, _, rfl⟩, Store.Meets.proceeds (Fair.func hD ?_ ?_) hmore, ?_⟩
    · intro t ht
      obtain ⟨a, ha, rfl⟩ := mem_map.1 ht
      exact happly (hsig.args a ha)
    · exact happly hsig.ret
    · exact fun t ht => (hts t ht).proceeds hmore
  unfold instantiate
  cases explicit with
  | none =>
    apply Safe.ite
    · exact fun hp => hclosed h rfl (isEmpty_iff.1 hp)
    · intro _
      apply (freshFor_safe sig.params h).bind
      exact fun ts s₁ hs₁ hmore hts => hopen hs₁ hmore hts
  | some ts =>
    extract_lets withArgs rest refuse
    apply Safe.ite
    · exact fun _ => complain_bind_safe hD (.typeArgumentArity hsite _ _ _)
    · intro _
      apply (refuseKinds_safe hD h hsite).bind
      intro _ s₁ hs₁ hmore hstore
      apply Safe.ite
      · exact fun hp => hclosed hs₁ hstore (isEmpty_iff.1 hp)
      · exact fun _ => hopen hs₁ hmore fun t ht => (hexplicit t ht).proceeds hmore

end

end

section

variable (hfits : D.Fits Γ mentioned) {solve : Global → InferM Unit}

include hfits

theorem signatureOf_safe {g : Global} (h : D.Proper Γ mentioned s) (hg : mentioned g)
    (hp : s.provisional.get? g = none) (hphrase : D.phrase (.expr (.global g))) :
    D.Safe Γ mentioned (signatureOf Γ solve g) s fun sig S =>
      D.AllowsSignature sig ∧ S = s.engine.store := by
  have hknown := h.known g hg
  unfold signatureOf
  extract_lets read ask demand
  cases hf : Γ.module.functions.contains g with
  | false => exact complain_bind_safe hfits.coherent (.unboundName hphrase _ _)
  | true =>
    have hread : s.schemes.contains g = true → D.Safe Γ mentioned (ask ()) s
        fun sig S => D.AllowsSignature sig ∧ S = s.engine.store := by
      intro hc
      apply Safe.get_bind
      rw [hc]
      apply Safe.get_bind
      obtain ⟨sig, hsig⟩ := Option.isSome_iff_exists.1 hc
      rw [hsig]
      exact .pure h ⟨h.schemes g sig hg hsig, rfl⟩
    change D.Safe Γ mentioned (demand ()) s _
    dsimp only [demand]
    cases hd : Γ.declared? g with
    | none =>
      rcases hknown hf with hk | hk | ⟨hk, -⟩
      · exact absurd hp hk
      · exact hread hk
      · exact absurd hd hk
    | some sig =>
      apply Safe.get_bind
      apply Safe.ite
      · exact fun _ => .pure h ⟨hfits.declared g sig hg hd, rfl⟩
      · intro hsolving
        rcases hknown hf with hk | hk | ⟨-, hk⟩
        · exact absurd hp hk
        · exact hread hk
        · exact absurd hk hsolving

theorem reference_safe {site : Phrase} {attrs : Attrs} (h : D.Proper Γ mentioned s)
    (hm : ∀ g ∈ e.mentions, mentioned g) (hphrase : D.phrase (.expr e))
    (hwritten : ∀ t ∈ e.written, D.Allows t) (hexplicit : ∀ t ∈ explicit.getD [], D.Allows t)
    (hsite : D.phrase site) (hattrs : D.added attrs) :
    D.Safe Γ mentioned (reference Γ solve e explicit site attrs) s fun r S =>
      (e.isReference = true → r.isSome = true) ∧
      ∀ t ts, r = some (t, ts) → D.Fair S t ∧ ∀ u ∈ ts, D.Fair S u := by
  have hD := hfits.coherent
  -- An instance of a signature that is all right answers the reference.
  have hinstance {sig : Signature} (hsig : D.AllowsSignature sig) {s₁ : State}
      (hs₁ : D.Proper Γ mentioned s₁) : D.Safe Γ mentioned (do
        let r ← instantiate Γ sig explicit site attrs
        return some r) s₁ fun r S => (e.isReference = true → r.isSome = true) ∧
          ∀ t ts, r = some (t, ts) → D.Fair S t ∧ ∀ u ∈ ts, D.Fair S u := by
    apply (instantiate_safe hD hs₁ (hsig.fair _) (fun t ht => (hexplicit t ht).fair _) hsite
      hattrs).bind
    rintro r s₂ hs₂ - ⟨-, hr, hts⟩
    refine .pure hs₂ ⟨fun _ => rfl, ?_⟩
    intro t ts heq
    cases heq
    exact ⟨hr, hts⟩
  unfold reference
  cases e with
  | global g =>
    apply (checkWritten_safe hD h hsite).bind
    intro _ s₁ hs₁ _ hstore
    apply Safe.get_bind
    have hg : mentioned g := hm g (by simp [Expr.mentions])
    cases hp : s₁.provisional.get? g with
    | some t =>
      have ht := hs₁.provisional g t hg hp
      apply Safe.ite
      · exact fun _ => complain_bind_safe hD (.typeArgumentArity hsite _ _ _)
      · intro _
        refine .pure hs₁ ⟨fun _ => rfl, ?_⟩
        intro u ts heq
        cases heq
        exact ⟨ht, forall_mem_nil _⟩
    | none =>
      apply (signatureOf_safe hfits hs₁ hg hp hphrase).bind
      exact fun sig s₂ hs₂ _ hsig => hinstance hsig.1 hs₂
  | op n name =>
    apply (checkWritten_safe hD h hsite).bind
    intro _ s₁ hs₁ _ _
    cases hop : Γ.operators.table.get? name with
    | none => exact complain_safe hD (.unboundName hphrase _ _)
    | some sig => exact hinstance (hfits.operators name sig hop) hs₁
  | ctor c =>
    apply (checkWritten_safe hD h hsite).bind
    intro _ s₁ hs₁ _ _
    cases hdata : Γ.module.dataTypeOf? c with
    | none => exact complain_safe hD (.unboundName hphrase _ _)
    | some d => exact hinstance (allows_ctorSignature hD d hwritten) hs₁
  | _ =>
    refine .pure h ⟨?_, ?_⟩
    · intro href
      cases href
    · intro t ts heq
      cases heq

end

def FairEnv (D : Discipline) (s : Store) (env : Env) : Prop := ∀ b ∈ env, D.Fair s b.2

theorem FairEnv.proceeds {S' : Store} (h : D.FairEnv S env) (hs : S.Proceeds D.part S') :
    D.FairEnv S' env := fun b hb => (h b hb).proceeds hs

theorem FairEnv.append {more : Env} (hmore : D.FairEnv S more) (h : D.FairEnv S env) :
    D.FairEnv S (more ++ env) := forall_mem_append.2 ⟨hmore, h⟩

theorem FairEnv.cons {t : Ty} (n : Serial) (ht : D.Fair S t) (h : D.FairEnv S env) :
    D.FairEnv S ((n, t) :: env) := forall_mem_cons.2 ⟨ht, h⟩

mutual

theorem checkPattern_safe (hD : D.Coherent Γ.registry) (p : Pattern) {t : Ty} {s : State}
    (h : D.Proper Γ mentioned s) (ht : D.Fair s.engine.store t)
    (hwritten : ∀ u ∈ p.written, D.Allows u) (hphrases : ∀ x ∈ p.phrases, D.phrase x) :
    D.Safe Γ mentioned (checkPattern Γ p t) s fun bound S => D.FairEnv S bound := by
  have hsite : D.phrase (.pattern p) := hphrases _ p.self_mem_phrases
  cases p with
  | wildcard n =>
    unfold checkPattern
    exact .pure h fun b hb => absurd hb not_mem_nil
  | var n x =>
    unfold checkPattern
    extract_lets site rest
    have hrest {s₁ : State} (hs₁ : D.Proper Γ mentioned s₁)
        (h₁ : s.engine.store.Proceeds D.part s₁.engine.store) :
        D.Safe Γ mentioned (rest ()) s₁ fun bound S => D.FairEnv S bound := by
      have ht₁ := ht.proceeds h₁
      apply (note_safe hs₁ (hphrases _ (by simp [Pattern.phrases])) ht₁.1).bind
      intro _ s₂ hs₂ h₂ _
      exact .pure hs₂ (forall_mem_singleton.2 (ht₁.proceeds h₂))
    cases ha : x.ascription with
    | none => exact hrest h (.refl h.store_valid)
    | some a =>
      have hallows := hwritten a (by simp [ha])
      apply (checkWritten_safe hD h hsite).bind
      intro _ s₁ hs₁ h₁ _
      apply (unify_safe hD hs₁ hsite (hallows.fair _) (ht.proceeds h₁)).bind
      intro _ s₂ hs₂ h₂ _
      exact hrest hs₂ (h₁.trans h₂)
  | ctor n c subs =>
    unfold checkPattern
    extract_lets site
    cases hd : Γ.module.dataTypeOf? c with
    | none => exact complain_safe hD (.unboundName hsite _ _)
    | some d =>
      apply (freshFor_safe d.params h).bind
      intro ts s₁ hs₁ h₁ hts
      apply (unify_safe hD hs₁ hsite (ht.proceeds h₁) (.data hD _ hts)).bind
      intro _ s₂ hs₂ h₂ _
      extract_lets γ rest
      apply Safe.ite
      · intro _
        apply complain_bind_safe hD
        exact ⟨⟨_, rfl, hsite⟩, forall_mem_nil _,
          Issue.fits_of_holes 3 (by cbv) rfl⟩
      · intro _
        apply checkPatterns_safe hD subs hs₂
        · intro u hu
          obtain ⟨a, ha, rfl⟩ := mem_map.1 hu
          have hallows := hwritten a (by simp [ha])
          exact .apply hD (fun t ht => (hts t ht).proceeds h₂) (hallows.fair _)
        · exact fun u hu => hwritten u (by simp [hu])
        · exact fun x hx => hphrases x (by simp [Pattern.phrases, hx])

theorem checkPatterns_safe (hD : D.Coherent Γ.registry) (ps : List Pattern) {ts : List Ty}
    {s : State} (h : D.Proper Γ mentioned s) (hts : ∀ t ∈ ts, D.Fair s.engine.store t)
    (hwritten : ∀ u ∈ Pattern.writtenList ps, D.Allows u)
    (hphrases : ∀ x ∈ Pattern.phrasesList ps, D.phrase x) :
    D.Safe Γ mentioned (checkPatterns Γ ps ts) s fun bound S => D.FairEnv S bound := by
  cases ps with
  | nil =>
    unfold checkPatterns
    exact .pure h fun b hb => absurd hb not_mem_nil
  | cons p ps =>
    cases ts with
    | nil =>
      unfold checkPatterns
      exact .pure h fun b hb => absurd hb not_mem_nil
    | cons t ts =>
      rw [forall_mem_cons] at hts
      simp only [Pattern.writtenList, forall_mem_append] at hwritten
      simp only [Pattern.phrasesList, forall_mem_append] at hphrases
      unfold checkPatterns
      apply (checkPattern_safe hD p h hts.1 hwritten.1 hphrases.1).bind
      intro bound s₁ hs₁ h₁ hbound
      apply (noteAt_safe hs₁ (hphrases.1 _ p.self_mem_phrases) (hts.1.proceeds h₁).1).bind
      intro _ s₂ hs₂ h₂ _
      have h₁₂ := h₁.trans h₂
      apply (checkPatterns_safe hD ps hs₂ (fun t ht => (hts.2 t ht).proceeds h₁₂) hwritten.2
        hphrases.2).bind
      intro more s₃ hs₃ h₃ hmore
      exact .pure hs₃ (hmore.append ((hbound.proceeds h₂).proceeds h₃))

end

section

variable (hD : D.Coherent Γ.registry)

include hD

section

variable (h : D.Proper Γ mentioned s)
variable {site : Expr}

include h

theorem checkSubject_safe {final : Bool} {subject : Expr} {t : Ty} (hp : D.phrase (.expr subject))
    (ht : s.engine.store.ownsAll t = true) :
    D.Safe Γ mentioned (checkSubject final subject t) s fun _ S => s.engine.store.Kept S := by
  have hvalid := h.store_valid
  unfold checkSubject
  apply (find_safe h ht).bind
  rintro u s₁ hs₁ h₁ ⟨rfl, hkept⟩
  have htop := hkept.ownsAll (hvalid.ownsAll_top ht)
  split
  · next c hc =>
    apply Safe.ite
    · intro _
      apply complain_safe hD
      refine ⟨⟨_, rfl, hp⟩, ?_, Issue.fits_of_holes 1 (by cbv) rfl⟩
      rw [hc] at htop
      simpa using htop
    · exact fun _ => .pure hs₁ hkept
  · exact .pure hs₁ hkept
  · apply (resolve_safe hs₁ (hkept.ownsAll ht)).bind
    rintro v s₂ hs₂ - ⟨rfl, hkept'⟩
    apply complain_safe hD
    refine ⟨⟨_, rfl, hp⟩, ?_, Issue.fits_of_holes 1 (by cbv) rfl⟩
    simpa using
      hkept'.ownsAll (hkept.valid.ownsAll_resolve (hkept.ownsAll ht))

theorem paramTypes_safe {params : List Var}
    (hwritten : ∀ x ∈ params, ∀ a, x.ascription = some a → D.Allows a)
    (hphrases : ∀ x ∈ params, D.phrase (.expr (.var x))) :
    D.Safe Γ mentioned (paramTypes Γ params) s fun ts S => ∀ t ∈ ts, D.Fair S t := by
  induction params generalizing s with
  | nil => exact .pure h fun t ht => absurd ht not_mem_nil
  | cons x xs ih =>
    rw [forall_mem_cons] at hwritten hphrases
    unfold paramTypes
    extract_lets rest
    have hrest {t : Ty} {s₁ : State} (hs₁ : D.Proper Γ mentioned s₁)
        (ht : D.Fair s₁.engine.store t) :
        D.Safe Γ mentioned (rest t) s₁ fun ts S => ∀ t ∈ ts, D.Fair S t := by
      apply (note_safe hs₁ hphrases.1 ht.1).bind
      intro _ s₂ hs₂ h₂ _
      apply (ih hs₂ hwritten.2 hphrases.2).bind
      intro ts s₃ hs₃ h₃ hts
      exact .pure hs₃ (forall_mem_cons.2 ⟨(ht.proceeds h₂).proceeds h₃, hts⟩)
    cases ha : x.ascription with
    | none =>
      apply (fresh_safe h).bind
      exact fun t s₁ hs₁ _ ht => hrest hs₁ ht
    | some a =>
      apply (checkWritten_safe hD h hphrases.1).bind
      exact fun _ s₁ hs₁ _ _ => hrest hs₁ ((hwritten.1 a ha).fair _)

theorem unifyArgs_safe {as : List Ty} {es : List Expr} (has : ∀ a ∈ as, D.Fair s.engine.store a)
    (hts : ∀ t ∈ ts, D.Fair s.engine.store t) (hes : ∀ e ∈ es, D.phrase (.expr e)) :
    D.Safe Γ mentioned (unifyArgs as ts es) s fun _ _ => True := by
  induction as generalizing s ts es with
  | nil => exact .pure h trivial
  | cons a as ih =>
    cases ts with
    | nil => exact .pure h trivial
    | cons t ts =>
      cases es with
      | nil => exact .pure h trivial
      | cons e es =>
        rw [forall_mem_cons] at has hts hes
        apply (unify_safe hD h hes.1 has.1 hts.1).bind
        intro _ s₁ hs₁ h₁ _
        exact ih hs₁ (fun a ha => (has.2 a ha).proceeds h₁) (fun t ht => (hts.2 t ht).proceeds h₁)
          hes.2

theorem unifyBranches_safe {result : Ty} {branches : List (Expr × Ty)}
    (hresult : D.Fair s.engine.store result)
    (hbranches : ∀ b ∈ branches, D.phrase (.expr b.1) ∧ D.Fair s.engine.store b.2) :
    D.Safe Γ mentioned (unifyBranches result branches) s fun _ _ => True := by
  induction branches generalizing s with
  | nil => exact .pure h trivial
  | cons b branches ih =>
    rw [forall_mem_cons] at hbranches
    apply (unify_safe hD h hbranches.1.1 hresult hbranches.1.2).bind
    intro _ s₁ hs₁ h₁ _
    exact ih hs₁ (hresult.proceeds h₁) fun b hb => (hbranches.2 b hb).imp_right
      fun hfair => hfair.proceeds h₁

theorem applyTo_safe {fnType : Ty} {direct : Option (List Ty)} {args : List Expr}
    {argTypes : List Ty} {attrs : Attrs} (hsite : D.phrase (.expr site))
    (hfn : D.Fair s.engine.store fnType) (hdirect : ∀ t ∈ direct.getD [], D.Fair s.engine.store t)
    (hargs : ∀ e ∈ args, D.phrase (.expr e)) (htypes : ∀ t ∈ argTypes, D.Fair s.engine.store t)
    (hattrs : D.added attrs) :
    D.Safe Γ mentioned (applyTo Γ site fnType direct args argTypes attrs) s fun r S =>
      D.Fair S r.1 ∧ ∀ t ∈ r.2, D.Fair S t := by
  have hvalid := h.store_valid
  unfold applyTo
  extract_lets typeArgs call
  -- What is called has been found to be a function type, and the arguments join its parameters.
  have hcall {as : List Ty} {r : Ty} {ps : List TypeParam} {rs : List TypeRelation}
      {given : List Ty} {s₁ : State} (hs₁ : D.Proper Γ mentioned s₁)
      (h₁ : s.engine.store.Proceeds D.part s₁.engine.store)
      (hfound : D.Fair s₁.engine.store (.func as r ps rs))
      (hgiven : ∀ t ∈ given, D.Fair s₁.engine.store t) :
      D.Safe Γ mentioned (call (.func as r ps rs, given)) s₁ fun r S =>
        D.Fair S r.1 ∧ ∀ t ∈ r.2, D.Fair S t := by
    apply Safe.ite
    · intro _
      apply complain_bind_safe hD
      exact ⟨⟨_, rfl, hsite⟩, forall_mem_nil _,
        Issue.fits_of_holes 2 (by cbv) rfl⟩
    · intro _
      have has : ∀ a ∈ as, D.Fair s₁.engine.store a := fun a ha =>
        hfound.child (by simp [ha])
      have hr : D.Fair s₁.engine.store r := hfound.child (by simp)
      apply (unifyArgs_safe hD hs₁ has (fun t ht => (htypes t ht).proceeds h₁) hargs).bind
      intro _ s₂ hs₂ h₂ _
      exact .pure hs₂ ⟨hr.proceeds h₂, fun t ht => (hgiven t ht).proceeds h₂⟩
  apply (find_safe h hfn.1).bind
  rintro u s₁ hs₁ h₁ ⟨rfl, -⟩
  have htop := (hfn.top hvalid).proceeds h₁
  split
  · next c hc =>
    rw [hc] at htop
    apply (fresh_safe hs₁).bind
    intro ret s₂ hs₂ h₂ hret
    have h₁₂ := h₁.trans h₂
    have hfunc := Fair.func hD (fun t ht => (htypes t ht).proceeds h₁₂) hret
    apply (unify_safe hD hs₂ hsite (htop.proceeds h₂) hfunc).bind
    intro _ s₃ hs₃ h₃ _
    exact .pure hs₃ ⟨hret.proceeds h₃, fun t ht => (hdirect t ht).proceeds (h₁₂.trans h₃)⟩
  · next as r ps rs hfunc =>
    rw [hfunc] at htop
    apply Safe.ite
    · intro _
      have hsig : D.FairSignature s₁.engine.store ⟨as, r, ps, rs⟩ := by
        refine ⟨fun a ha => ?_, ?_, fun x hx a ha => ?_, ?_⟩
        · exact htop.child (by simp [show a ∈ as from ha])
        · exact htop.child (by simp)
        · apply htop.child
          simp only [Ty.mem_children_func]
          exact .inr (.inr ⟨x, hx, ha⟩)
        · exact hD.relations (htop.part hD.mapChildren_iff rfl)
      apply (instantiate_safe hD hs₁ hsig (forall_mem_nil _) hsite
        hattrs).bind
      rintro ⟨found, given⟩ s₂ hs₂ h₂ ⟨⟨as', r', ps', rs', heq⟩, hfound, hgiven⟩
      obtain rfl : found = .func as' r' ps' rs' := heq
      exact hcall hs₂ (h₁.trans h₂) hfound hgiven
    · exact fun _ => hcall hs₁ h₁ htop fun t ht => (hdirect t ht).proceeds h₁
  · have hfound := (hfn.top hvalid).proceeds h₁
    apply (resolve_safe hs₁ hfound.1).bind
    rintro v s₂ hs₂ - ⟨rfl, hkept⟩
    apply complain_safe hD
    refine ⟨⟨_, rfl, hsite⟩, ?_, Issue.fits_of_holes 1 (by cbv) rfl⟩
    simpa using
      hkept.ownsAll (hs₁.store_valid.ownsAll_resolve hfound.1)

theorem projectFrom_safe {t : Ty} {index : Index} (hsite : D.phrase (.expr site))
    (ht : D.Fair s.engine.store t) :
    D.Safe Γ mentioned (projectFrom Γ site t index) s fun u S => D.Fair S u := by
  have hvalid := h.store_valid
  unfold projectFrom
  extract_lets outOfRange
  have hshown {shown : Ty} {S : Store} (howned : S.ownsAll shown = true) :
      (outOfRange shown).Shown D.phrase S := by
    refine ⟨⟨_, rfl, hsite⟩, ?_, Issue.fits_of_holes 2 (by cbv) rfl⟩
    simpa [outOfRange] using howned
  apply (find_safe h ht.1).bind
  rintro found s₁ hs₁ h₁ ⟨rfl, -⟩
  have htop := (ht.top hvalid).proceeds h₁
  split
  · next ts hts =>
    rw [hts] at htop
    apply Safe.ite
    · exact fun _ => complain_safe hD (hshown htop.1)
    · intro _
      cases hu : ts[index.toInt.toNat]? with
      | some u => exact .pure hs₁ (htop.child (mem_of_getElem? hu))
      | none => exact complain_safe hD (hshown htop.1)
  · extract_lets rest
    apply Safe.ite
    · exact fun _ => complain_bind_safe hD (hshown (ht.proceeds h₁).1)
    · intro _
      dsimp only [rest]
      split
      · next c hc =>
        apply (fresh_safe hs₁).bind
        intro out s₂ hs₂ h₂ hout
        have hslots : ∀ a ∈ [t, out], D.Fair s₂.engine.store a := by
          intro a ha
          rcases mem_pair.1 ha with rfl | rfl
          · exact (ht.proceeds h₁).proceeds h₂
          · exact hout
        apply (relate_safe hD hs₂ hslots hsite (hD.index index) hD.plain).bind
        intro _ s₃ hs₃ h₃ _
        exact .pure hs₃ (hout.proceeds h₃)
      · apply complain_safe hD
        refine ⟨⟨_, rfl, hsite⟩, ?_, Issue.fits_of_holes 1 (by cbv) rfl⟩
        simpa using htop.1

end

end

end Discipline

end TensorTyping
