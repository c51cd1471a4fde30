import TensorTyping.Proofs.Engine.Instances
import TensorTyping.Proofs.Expr.Children
import TensorTyping.Proofs.Expr.Parts
import TensorTyping.Proofs.Inference.Inversion
import TensorTyping.Proofs.Inference.Queries
import TensorTyping.Proofs.Outcomes
import TensorTyping.Proofs.Store.Reachable

/-!
# What typing an expression changes

Typing an expression notes types, works on the store and adds relation instances. All else happens
in the step that types a function on demand, and this step is taken only for a function that the
expression mentions and that is neither done nor being typed. `Change` lists these four ways to
change a state; whatever typing does, with success or not, is a sequence of them.

The same is said with more detail of the notes in `Remit.Change`. When typing succeeds, it has gone
through all of the expression (`Remit.Passage`). How functions are typed on demand makes no
difference unless one is.
-/
namespace TensorTyping.Inference

open List

variable {α β : Type}
variable {t : Ty} {solve : Global → InferM Unit} {mentioned : Global → Prop}

/-- One change on the way to the type of an expression. The functions in `mentioned` are those
that the expression may refer to, and `solve` types one of them on demand. -/
inductive Change (Γ : Context) (solve : Global → InferM Unit) (mentioned : Global → Prop) :
    State → State → Prop
  | noted (s : State) (nodeTypes : Table Serial (Phrase × Ty)) (callArgs : Table Serial (List Ty))
      (scope : List TypeParam) (scrutinees : List (Expr × Ty)) :
      Change Γ solve mentioned s { s with nodeTypes, callArgs, scope, scrutinees }
  | stored (s : State) (op : Store.Operation) :
      Change Γ solve mentioned s
        { s with engine := s.engine.moved (s.engine.store.after op) }
  | added (s : State) (i : Instance) : i.seq = s.engine.added + 1 →
      Change Γ solve mentioned s { s with engine := s.engine.enlist i }
  | solved (s : State) (g : Global) : mentioned g → Γ.module.functions.contains g = true →
      s.provisional.get? g = none → s.schemes.contains g = false →
      (Γ.declared? g = none ∨ s.solving.contains g = false) →
      Change Γ solve mentioned s (endState (solve g) s)

def Changes (Γ : Context) (solve : Global → InferM Unit) (mentioned : Global → Prop) :
    State → State → Prop :=
  Relation.ReflTransGen (Change Γ solve mentioned)

inductive EngineStep : Engine → Engine → Prop
  | stored (e : Engine) (op : Store.Operation) : EngineStep e (e.moved (e.store.after op))
  | added (e : Engine) (i : Instance) : i.seq = e.added + 1 → EngineStep e (e.enlist i)

/-- The engine has moved on, perhaps with more instances, and nothing else has changed. -/
def Worked (s s' : State) : Prop :=
  ∃ e, Relation.ReflTransGen EngineStep s.engine e ∧ s' = { s with engine := e }

theorem Worked.refl (s : State) : Worked s s := ⟨s.engine, .refl, rfl⟩

theorem Worked.trans {s s' s'' : State} (h : Worked s s') (h' : Worked s' s'') : Worked s s'' := by
  obtain ⟨e, he, rfl⟩ := h
  obtain ⟨e', he', rfl⟩ := h'
  exact ⟨e', he.trans he', rfl⟩

theorem Worked.changes {Γ : Context} {s s' : State} (h : Worked s s') :
    Changes Γ solve mentioned s s' := by
  obtain ⟨e, he, rfl⟩ := h
  induction he with
  | refl => exact .refl
  | tail _ hstep ih =>
    cases hstep with
    | stored op => exact ih.tail (.stored _ op)
    | added i hi => exact ih.tail (.added _ i hi)

instance : Std.Refl Worked := ⟨.refl⟩

instance : Trans Worked Worked Worked := ⟨.trans⟩

/-- However a computation ends, it has worked on the engine only. -/
abbrev Works (act : InferM α) : Prop := Leads Worked act

namespace Works

theorem of_stored {act : StoreM α} (op : Store.Operation)
    (hop : ∀ s, endState act s = s.after op) : Works (onEngine (EngineM.onStore act)) := by
  intro s
  refine ⟨_, .single (.stored s.engine op), ?_⟩
  rw [endState_onEngine, EngineM.endState_onStore, hop]

theorem worked {act : InferM α} (h : Works act) {s s' : State} {a : α} (hrun : act s = .ok a s') :
    Worked s s' := endState_of_ok hrun ▸ h s

end Works

section

variable {Γ : Context}

theorem fresh_works : Works fresh :=
  .of_stored .fresh fun _ => (endState_bind_pure _ (fun _ => ()) _).symm

theorem find_works (t : Ty) : Works (find t) :=
  .of_stored (.find t) fun _ => (endState_bind_pure _ (fun _ => ()) _).symm

theorem resolve_works (t : Ty) : Works (resolve t) :=
  .of_stored (.resolve t) fun _ => (endState_bind_pure _ (fun _ => ()) _).symm

theorem unify_works (a b : Ty) (site : Phrase) : Works (unify a b site) :=
  .of_stored (.unify a b (some site)) fun _ => rfl

theorem Ascribed.worked {ascription : Option Ty} {site : Phrase} {s s' : State}
    (h : Ascribed Γ ascription t site s s') : Worked s s' := by
  cases ascription with
  | none => exact h ▸ .refl s
  | some a => exact (unify_works _ _ _).worked h.2

theorem freshFor_works (as : List α) : Works (freshFor as) := by
  induction as with
  | nil => exact .pure []
  | cons a as ih =>
    unfold freshFor
    exact fresh_works.bind fun t => ih.bind fun ts => .pure _

theorem relate_works (r : TypeRelation) (site : Phrase) (attrs : Attrs) :
    Works (relate Γ r site attrs) := by
  intro s
  unfold endState relate onEngine
  rcases EngineM.add_outcome Γ.registry r (some site) attrs s.engine with ⟨f, hadd⟩ | hadd
  · rw [bind_of_error hadd]
    exact .refl s
  · rw [bind_of_ok hadd]
    exact ⟨_, .single (.added s.engine _ rfl), rfl⟩

theorem relateAll_works (site : Phrase) (attrs : Attrs) (rs : List TypeRelation) :
    Works (relateAll Γ site attrs rs) := by
  induction rs with
  | nil => exact .pure ()
  | cons r rs ih =>
    unfold relateAll
    exact (relate_works r site attrs).bind fun _ => ih

theorem checkWritten_works (ts : List Ty) (site : Phrase) : Works (checkWritten Γ ts site) := by
  unfold checkWritten
  refine Leads.get.bind fun s => ?_
  split
  · exact .throw _
  · exact .pure ()

theorem checkSubject_works (final : Bool) (subject : Expr) (t : Ty) :
    Works (checkSubject final subject t) := by
  unfold checkSubject
  refine (find_works t).bind fun u => ?_
  split
  · exact .ite (.throw _) (.pure ())
  · exact .pure ()
  · exact (resolve_works t).bind fun _ => .throw _

theorem refuseKinds_works (site : Phrase) (ps : List TypeParam) : Works (refuseKinds site ps) := by
  induction ps with
  | nil => exact .pure ()
  | cons p ps ih =>
    unfold refuseKinds
    exact .ite ih (.throw _)

theorem instantiate_works (sig : Signature) (explicit : Option (List Ty)) (site : Phrase)
    (attrs : Attrs) : Works (instantiate Γ sig explicit site attrs) := by
  unfold instantiate
  cases explicit with
  | none =>
    refine .ite ((relateAll_works site attrs _).bind fun _ => .pure _) ?_
    refine (freshFor_works sig.params).bind fun typeArgs => ?_
    exact (relateAll_works site attrs _).bind fun _ => .pure _
  | some ts =>
    extract_lets withArgs rest refuse
    have hwith : ∀ typeArgs, Works (withArgs typeArgs) := fun _ =>
      (relateAll_works site attrs _).bind fun _ => .pure _
    have hrest : ∀ u, Works (rest u) := fun _ =>
      .ite ((relateAll_works site attrs _).bind fun _ => .pure _) ((Leads.pure ts).bind hwith)
    have hrefuse : ∀ u, Works (refuse u) := fun _ =>
      (refuseKinds_works site sig.params).bind hrest
    exact .ite ((Leads.throw _).bind hrefuse) (hrefuse ())

theorem unifyArgs_works (ps ts : List Ty) (es : List Expr) : Works (unifyArgs ps ts es) := by
  induction ps generalizing ts es with
  | nil => exact .pure ()
  | cons p ps ih =>
    cases ts with
    | nil => exact .pure ()
    | cons t ts =>
      cases es with
      | nil => exact .pure ()
      | cons e es =>
        unfold unifyArgs
        exact (unify_works p t _).bind fun _ => ih ts es

theorem applyTo_works (site : Expr) (fnType : Ty) (direct : Option (List Ty)) (args : List Expr)
    (argTypes : List Ty) (attrs : Attrs) :
    Works (applyTo Γ site fnType direct args argTypes attrs) := by
  unfold applyTo
  extract_lets typeArgs
  refine (find_works fnType).bind fun found => ?_
  split
  · refine fresh_works.bind fun ret => ?_
    exact (unify_works _ _ _).bind fun _ => .pure _
  · rename_i apply found as r ps rs
    have happly : ∀ x, Works (apply x) := by
      intro x
      dsimp only [apply]
      split
      · rename_i found as r _ _ _
        have hargs : Works (do
            unifyArgs as argTypes args
            return (r, x.2)) :=
          (unifyArgs_works as argTypes args).bind fun _ => .pure _
        exact .ite ((Leads.throw _).bind fun _ => hargs) hargs
      · exact .throw _
    exact .ite ((instantiate_works _ _ _ _).bind happly) ((Leads.pure _).bind happly)
  · exact (resolve_works _).bind fun _ => .throw _

theorem projectFrom_works (site : Expr) (t : Ty) (index : Index) :
    Works (projectFrom Γ site t index) := by
  unfold projectFrom
  extract_lets outOfRange
  refine (find_works t).bind fun found => ?_
  split
  · refine .ite (.throw _) ?_
    split
    · exact .pure _
    · exact .throw _
  · extract_lets rest
    have hrest : ∀ u, Works (rest u) := by
      intro u
      dsimp only [rest]
      split
      · exact fresh_works.bind fun _ => (relate_works _ _ _).bind fun _ => .pure _
      · exact .throw _
    exact .ite ((Leads.throw _).bind hrest) (hrest ())

theorem unifyBranches_works (result : Ty) (branches : List (Expr × Ty)) :
    Works (unifyBranches result branches) := by
  induction branches with
  | nil => exact .pure ()
  | cons b rest ih =>
    unfold unifyBranches
    exact (unify_works _ _ _).bind fun _ => ih

end

/-- What may be done to type an expression: functions in `mentioned` may be referred to, of which
`solve` types one on demand, and notes may be taken of the numbers in `own`, and of the variables in
`env` at the types they have there. -/
structure Remit where
  context : Context
  solve : Global → InferM Unit
  mentioned : Global → Prop
  own : Serial → Prop
  env : Env

namespace Remit

section

variable (R : Remit)

structure Demands (s : State) (g : Global) : Prop where
  mentioned : R.mentioned g
  present : R.context.module.functions.contains g = true
  unprovided : s.provisional.get? g = none
  undone : s.schemes.contains g = false
  undeclared : R.context.declared? g = none ∨ s.solving.contains g = false

/-- One change on the way to the type of an expression. -/
inductive Change : State → State → Prop
  | worked {s s' : State} : Worked s s' → Change s s'
  | noted (s : State) {n : Serial} (p : Phrase) {t : Ty} :
      R.own n ∨ R.env.lookup n = some t → Change s (s.noted n p t)
  | called (s : State) {n : Serial} (ts : List Ty) :
      R.own n → Change s { s with callArgs := s.callArgs.insert n ts }
  | rescoped (s : State) (scope : List TypeParam) : Change s { s with scope }
  | matched (s : State) (subject : Expr) (t : Ty) :
      Change s { s with scrutinees := s.scrutinees ++ [(subject, t)] }
  | solved {s s' : State} {g : Global} :
      R.Demands s g → R.solve g s = .ok () s' → Change s s'

def Changes : State → State → Prop := Relation.ReflTransGen R.Change

/-- Changes on the way of which the numbers `ns` were noted and the functions `gs` were there to
refer to. A symbol that was matched on had a provisional type, unless that was done on demand. -/
structure Passage (ns : List Serial) (gs : List Global) (s s' : State) : Prop where
  changes : R.Changes s s'
  noted : ∀ n ∈ ns, ∃ s₁ p t, R.Changes s s₁ ∧ R.Changes (s₁.noted n p t) s'
  referred : ∀ g ∈ gs, R.context.module.functions.contains g = true ∨
    ∃ s₁, R.Changes s s₁ ∧ s₁.provisional.get? g ≠ none
  matched : ∀ x ∈ s'.scrutinees, x ∈ s.scrutinees ∨
    (x.1.isShared = true → ∃ s₁ g, R.Changes s₁ s' ∧ s₁.provisional.get? g = some x.2) ∨
    ∃ s₁ s₂ g, R.solve g s₁ = .ok () s₂

/-- Changes that were made before a computation stopped, perhaps where a function was typed on
demand. -/
def Halts (s s' : State) : Prop :=
  R.Changes s s' ∨ ∃ s₁ s₂ g f, R.Changes s s₁ ∧ R.Demands s₁ g ∧
    R.solve g s₁ = .error f s₂ ∧ R.Changes s₂ s'

/-- However `x` ends from the state `s`, it has made such changes only, and if it succeeds, then by
way of the numbers `ns` and the functions `gs`. Unless a function is to be typed on demand, `y` does
the same. -/
structure ConfinedAt (s : State) (ns : List Serial) (gs : List Global) (x y : InferM α) : Prop where
  ends : Ends x s (fun _ s' => R.Passage ns gs s s') fun _ s' => R.Halts s s'
  same : x s = y s ∨ ∃ s₁ g, R.Changes s s₁ ∧ R.Demands s₁ g

def Confined (ns : List Serial) (gs : List Global) (x y : InferM α) : Prop :=
  ∀ s, R.ConfinedAt s ns gs x y

end

variable {R : Remit} {s s' s'' : State} {ns ns' : List Serial} {gs gs' : List Global}
  {x y : InferM α} {f f' : α → InferM β}
variable {e : Expr} {n : Serial} {g : Global} {act act' : InferM Ty}

namespace Passage

theorem of_changes (h : R.Changes s s') (hscrutinees : s'.scrutinees = s.scrutinees) :
    R.Passage [] [] s s' :=
  ⟨h, by simp, by simp, fun _ hx => .inl (hscrutinees ▸ hx)⟩

theorem refl (s : State) : R.Passage [] [] s s := of_changes .refl rfl

theorem trans (h : R.Passage ns gs s s') (h' : R.Passage ns' gs' s' s'') :
    R.Passage (ns ++ ns') (gs ++ gs') s s'' where
  changes := h.changes.trans h'.changes
  noted n hn := by
    rcases mem_append.1 hn with hn | hn
    · obtain ⟨s₁, p, t, h₁, h₂⟩ := h.noted n hn
      exact ⟨s₁, p, t, h₁, h₂.trans h'.changes⟩
    · obtain ⟨s₁, p, t, h₁, h₂⟩ := h'.noted n hn
      exact ⟨s₁, p, t, h.changes.trans h₁, h₂⟩
  referred g hg := by
    rcases mem_append.1 hg with hg | hg
    · exact h.referred g hg
    · refine (h'.referred g hg).imp_right ?_
      rintro ⟨s₁, h₁, hp⟩
      exact ⟨s₁, h.changes.trans h₁, hp⟩
  matched x hx := by
    rcases h'.matched x hx with hx | hx
    · refine (h.matched x hx).imp_right (Or.imp_left fun hx hshared => ?_)
      obtain ⟨s₁, g, h₁, hp⟩ := hx hshared
      exact ⟨s₁, g, h₁.trans h'.changes, hp⟩
    · exact .inr hx

theorem mono (h : R.Passage ns gs s s') (hns : ns' ⊆ ns) (hgs : gs' ⊆ gs) :
    R.Passage ns' gs' s s' :=
  ⟨h.changes, fun n hn => h.noted n (hns hn), fun g hg => h.referred g (hgs hg), h.matched⟩

end Passage

theorem Halts.after (h : R.Halts s' s'') (hs : R.Changes s s') : R.Halts s s'' := by
  rcases h with h | ⟨s₁, s₂, g, f, h₁, hrest⟩
  · exact .inl (hs.trans h)
  · exact .inr ⟨s₁, s₂, g, f, hs.trans h₁, hrest⟩

theorem Halts.before (h : R.Halts s s') (hs : R.Changes s' s'') : R.Halts s s'' := by
  rcases h with h | ⟨s₁, s₂, g, f, h₁, hg, hsolve, h₂⟩
  · exact .inl (h.trans hs)
  · exact .inr ⟨s₁, s₂, g, f, h₁, hg, hsolve, h₂.trans hs⟩

/-- What is done under a remit are changes as listed before. -/
theorem Changes.changes (h : R.Changes s s') :
    Inference.Changes R.context R.solve R.mentioned s s' := by
  refine Relation.reflTransGen_closed (fun s s' hchange => ?_) _ _ h
  cases hchange with
  | worked h => exact h.changes
  | noted p _ => exact .single (.noted s _ s.callArgs s.scope s.scrutinees)
  | called ts _ => exact .single (.noted s s.nodeTypes _ s.scope s.scrutinees)
  | rescoped scope => exact .single (.noted s s.nodeTypes s.callArgs scope s.scrutinees)
  | matched subject t => exact .single (.noted s s.nodeTypes s.callArgs s.scope _)
  | solved hg hrun =>
    rw [← endState_of_ok hrun]
    exact .single (.solved s _ hg.mentioned hg.present hg.unprovided hg.undone hg.undeclared)

theorem Halts.changes (h : R.Halts s s') :
    Inference.Changes R.context R.solve R.mentioned s s' := by
  rcases h with h | ⟨s₁, s₂, g, f, h₁, hg, hsolve, h₂⟩
  · exact h.changes
  · refine (h₁.changes.tail ?_).trans h₂.changes
    rw [← endState_of_error hsolve]
    exact .solved s₁ g hg.mentioned hg.present hg.unprovided hg.undone hg.undeclared

namespace ConfinedAt

protected theorem pure {a : α} (h : R.Passage ns gs s s) :
    R.ConfinedAt s ns gs (pure a) (pure a) := ⟨.pure h, .inl rfl⟩

protected theorem bind (hx : R.ConfinedAt s ns gs x y)
    (hf : ∀ a s', x s = .ok a s' → R.ConfinedAt s' ns' gs' (f a) (f' a)) :
    R.ConfinedAt s (ns ++ ns') (gs ++ gs') (x >>= f) (y >>= f') where
  ends := hx.ends.bind_run fun a s' hrun h =>
    (hf a s' hrun).ends.imp (fun _ _ h' => h.trans h') fun _ _ h' => h'.after h.changes
  same := by
    rcases hx.same with heq | hdemands
    · cases hrun : x s with
      | error f s' => exact .inl (by rw [bind_of_error hrun, bind_of_error (heq ▸ hrun)])
      | ok a s' =>
        rw [bind_of_ok hrun, bind_of_ok (heq ▸ hrun)]
        refine (hf a s' hrun).same.imp_right ?_
        rintro ⟨s₁, g, h₁, hg⟩
        exact ⟨s₁, g, (hx.ends.of_ok hrun).changes.trans h₁, hg⟩
    · exact .inr hdemands

theorem get_bind {f f' : State → InferM β} (h : R.ConfinedAt s ns gs (f s) (f' s)) :
    R.ConfinedAt s ns gs (get >>= f) (get >>= f') := ⟨.get_bind h.ends, h.same⟩

theorem mono (h : R.ConfinedAt s ns gs x y) (hns : ns' ⊆ ns) (hgs : gs' ⊆ gs) :
    R.ConfinedAt s ns' gs' x y :=
  ⟨h.ends.mono fun _ _ hp => hp.mono hns hgs, h.same⟩

/-- What comes next goes through nothing. -/
theorem bind_nil (hx : R.ConfinedAt s ns gs x y)
    (hf : ∀ a s', x s = .ok a s' → R.ConfinedAt s' [] [] (f a) (f' a)) :
    R.ConfinedAt s ns gs (x >>= f) (y >>= f') := (hx.bind hf).mono (by simp) (by simp)

theorem of_works (h : Works x) (s : State) : R.ConfinedAt s [] [] x x := by
  refine ⟨⟨fun hrun => ?_, fun hrun => ?_⟩, .inl rfl⟩
  · have hw := h.worked hrun
    obtain ⟨e, -, rfl⟩ := id hw
    exact .of_changes (.single (.worked hw)) rfl
  · exact .inl (.single (.worked (endState_of_error hrun ▸ h s)))

theorem after_works (hx : Works x)
    (hf : ∀ a s', x s = .ok a s' → R.ConfinedAt s' ns gs (f a) (f' a)) :
    R.ConfinedAt s ns gs (x >>= f) (x >>= f') := (of_works hx s).bind hf

end ConfinedAt

namespace Confined

protected theorem pure (a : α) : R.Confined [] [] (pure a) (pure a) := fun s => .pure (.refl s)

protected theorem throw (f : Fault) : R.Confined ns gs (throw f : InferM α) (throw f) :=
  fun _ => ⟨.throw (.inl .refl), .inl rfl⟩

protected theorem complain (i : Issue) :
    R.Confined ns gs (complain i : InferM α) (complain i) := .throw _

theorem complain_bind (i : Issue) : R.Confined ns gs (complain i >>= f) (complain i >>= f') :=
  fun _ => ⟨.throw_bind (.inl .refl), .inl rfl⟩

theorem bind_run (hx : R.Confined ns gs x y)
    (hf : ∀ a s s', x s = .ok a s' → R.Confined ns' gs' (f a) (f' a)) :
    R.Confined (ns ++ ns') (gs ++ gs') (x >>= f) (y >>= f') :=
  fun s => (hx s).bind fun a s' hrun => hf a s s' hrun s'

protected theorem bind (hx : R.Confined ns gs x y) (hf : ∀ a, R.Confined ns' gs' (f a) (f' a)) :
    R.Confined (ns ++ ns') (gs ++ gs') (x >>= f) (y >>= f') :=
  hx.bind_run fun a _ _ _ => hf a

protected theorem ite {p : Prop} [Decidable p] {x' y' : InferM α}
    (hx : p → R.Confined ns gs x y) (hx' : ¬ p → R.Confined ns gs x' y') :
    R.Confined ns gs (if p then x else x') (if p then y else y') := by
  by_cases hp : p
  · simp only [if_pos hp]
    exact hx hp
  · simp only [if_neg hp]
    exact hx' hp

theorem mono (h : R.Confined ns gs x y) (hns : ns' ⊆ ns) (hgs : gs' ⊆ gs) :
    R.Confined ns' gs' x y := fun s => (h s).mono hns hgs

theorem of_works (h : Works x) : R.Confined [] [] x x := fun s => .of_works h s

theorem after_works (hx : Works x) (hf : ∀ a, R.Confined ns gs (f a) (f' a)) :
    R.Confined ns gs (x >>= f) (x >>= f') := (of_works hx).bind hf

theorem bind_nil (hx : R.Confined ns gs x y) (hf : ∀ a, R.Confined [] [] (f a) (f' a)) :
    R.Confined ns gs (x >>= f) (y >>= f') := fun s => (hx s).bind_nil fun a s' _ => hf a s'

theorem then_works (hx : R.Confined ns gs x y) (hf : ∀ a, Works (f a)) :
    R.Confined ns gs (x >>= f) (y >>= f) := hx.bind_nil fun a => of_works (hf a)

theorem modify {g : State → State} (hg : ∀ s, R.Change s (g s))
    (hscrutinees : ∀ s, (g s).scrutinees = s.scrutinees) : R.Confined [] [] (modify g) (modify g) :=
  fun s => ⟨.modify (.of_changes (.single (hg s)) (hscrutinees s)), .inl rfl⟩

end Confined

theorem noteAt_confined {p : Phrase} (hn : R.own n ∨ R.env.lookup n = some t) :
    R.Confined [n] [] (noteAt n p t) (noteAt n p t) := by
  intro s
  have hnoted : R.Changes s (s.noted n p t) := .single (.noted s p hn)
  refine ⟨.modify ⟨hnoted, fun m hm => ?_, by simp, fun _ => .inl⟩, .inl rfl⟩
  obtain rfl : m = n := by simpa using hm
  exact ⟨s, p, t, .refl, .refl⟩

theorem note_confined (hshared : e.isShared = false)
    (hn : R.own e.serial ∨ R.env.lookup e.serial = some t) :
    R.Confined [e.serial] [] (note e t) (note e t) := by
  simp only [note, hshared, Bool.false_eq_true, if_false]
  exact noteAt_confined hn

theorem note_symbol_confined (he : e.isReference = true) (hown : ∀ n ∈ e.serials, R.own n) :
    R.Confined e.serials [] (note e t) (note e t) := by
  cases e with
  | global | ctor => exact .pure ()
  | op n name => exact note_confined (e := .op n name) rfl (.inl (hown n (.head _)))
  | _ => cases he

theorem typed_confined (hact : R.Confined ns gs act act')
    (hnote : ∀ s t s', act s = .ok t s' → R.Confined ns' [] (note e t) (note e t)) :
    R.Confined (ns ++ ns') gs (typed e act) (typed e act') := by
  intro s
  have hends : Ends act s (fun t s₁ => act s = .ok t s₁ ∧ R.Passage ns gs s s₁) fun _ s' =>
      R.Halts s s' := (hact s).ends.mono_run fun t s₁ hrun hp => ⟨hrun, hp⟩
  refine ⟨typed_ends hends ?_ fun _ _ h => h, (hact s).same.imp_left fun heq => ?_⟩
  · rintro t s₁ ⟨hrun, hp⟩
    have hrun' : note e t s₁ = .ok () (s₁.notedExpr e t) := note_ok_iff.2 rfl
    exact (hp.trans ((hnote s t s₁ hrun s₁).ends.of_ok hrun')).mono (List.Subset.refl _) (by simp)
  · unfold typed
    rw [heq]

theorem withScope_confined (params : List TypeParam) (hx : R.Confined ns gs x y) :
    R.Confined ns gs (withScope params x) (withScope params y) := by
  intro s
  have hscope : ∀ (s : State) (scope : List TypeParam), R.Changes s { s with scope } :=
    fun s scope => .single (.rescoped s scope)
  have hinner := hx { s with scope := s.scope ++ params }
  refine ⟨(withScope_ends hinner.ends).imp ?_ ?_, ?_⟩
  · rintro a _ ⟨s₁, h₁, rfl⟩
    have h₀ : R.Passage [] [] s { s with scope := s.scope ++ params } :=
      .of_changes (hscope _ _) rfl
    have h₂ : R.Passage [] [] s₁ { s₁ with scope := s.scope } := .of_changes (hscope _ _) rfl
    exact ((h₀.trans h₁).trans h₂).mono (by simp) (by simp)
  · rintro f _ ⟨s₁, h₁, rfl⟩
    exact (h₁.after (hscope s _)).before (hscope _ _)
  · rcases hinner.same with heq | ⟨s₁, g, h₁, hg⟩
    · left
      unfold withScope
      rw [heq]
    · exact .inr ⟨s₁, g, (hscope s _).trans h₁, hg⟩

theorem ConfinedAt.referring (h : R.ConfinedAt s ns gs x y)
    (hg : R.context.module.functions.contains g = true ∨ s.provisional.get? g ≠ none) :
    R.ConfinedAt s ns (g :: gs) x y := by
  refine ⟨h.ends.mono fun a s' hp => { hp with referred := ?_ }, h.same⟩
  exact forall_mem_cons.2 ⟨hg.imp_right fun hne => ⟨s, .refl, hne⟩, hp.referred⟩

theorem solve_confined (hg : R.Demands s g) (solve' : Global → InferM Unit) :
    R.ConfinedAt s [] [] (R.solve g) (solve' g) := by
  refine ⟨⟨fun hrun => ?_, fun hrun => ?_⟩, .inr ⟨s, g, .refl, hg⟩⟩
  · exact ⟨.single (.solved hg hrun), by simp, by simp, fun _ _ => .inr (.inr ⟨s, _, g, hrun⟩)⟩
  · exact .inr ⟨s, _, g, _, .refl, hg, hrun, .refl⟩

variable (solve' : Global → InferM Unit)

/-- A function that is not referred to at a provisional type is typed on demand only if it is not
done and not used at its declared signature. -/
theorem signatureOf_confined (hg : R.mentioned g) (hp : s.provisional.get? g = none) :
    R.ConfinedAt s [] [g] (signatureOf R.context R.solve g) (signatureOf R.context solve' g) := by
  unfold signatureOf
  extract_lets last demand rest demand' rest'
  have hlast : Works (last ()) := by
    refine Leads.get.bind fun s => ?_
    split
    · exact .pure _
    · exact .throw _
  cases hf : R.context.module.functions.contains g with
  | false => exact Confined.complain_bind _ s
  | true =>
    refine ConfinedAt.referring ?_ (.inl hf)
    -- What was tested on the way to the demand is what the change asks for.
    have hdemand : (R.context.declared? g = none ∨ s.solving.contains g = false) →
        R.ConfinedAt s [] [] (demand ()) (demand' ()) := by
      intro hundeclared
      refine ConfinedAt.get_bind ?_
      cases hs : s.schemes.contains g with
      | true => exact Confined.of_works hlast s
      | false =>
        have hsolve := solve_confined ⟨hg, hf, hp, hs, hundeclared⟩ solve'
        exact hsolve.bind fun _ s' _ => Confined.of_works hlast s'
    change R.ConfinedAt s [] [] (rest ()) (rest' ())
    dsimp only [rest, rest']
    cases hd : R.context.declared? g with
    | none => exact hdemand (.inl hd)
    | some sig =>
      refine ConfinedAt.get_bind ?_
      cases hs : s.solving.contains g with
      | true => exact .pure (.refl s)
      | false => exact hdemand (.inr hs)

theorem reference_confined (hm : ∀ g ∈ e.mentions, R.mentioned g) (explicit : Option (List Ty))
    (site : Phrase) (attrs : Attrs) :
    R.Confined [] (if e.isReference then e.mentions else [])
      (reference R.context R.solve e explicit site attrs)
      (reference R.context solve' e explicit site attrs) := by
  cases e with
  | global g =>
    unfold reference
    refine Confined.after_works (checkWritten_works _ _) fun _ s => ConfinedAt.get_bind ?_
    -- The state is fixed here, since a demand needs that it has no provisional type for `g`.
    cases hp : s.provisional.get? g with
    | some t =>
      refine ConfinedAt.referring ?_ (.inr (by simp [hp]))
      exact Confined.ite (fun _ => .complain_bind _) (fun _ => .pure _) s
    | none =>
      have hsig := signatureOf_confined solve' (hm g (by simp [Expr.mentions])) hp
      refine hsig.bind fun sig s' _ => ?_
      exact Confined.of_works ((instantiate_works sig explicit site attrs).bind fun _ => .pure _) s'
  | op n name =>
    refine .of_works ((checkWritten_works _ _).bind fun _ => ?_)
    split
    · exact .throw _
    · exact (instantiate_works _ explicit site attrs).bind fun _ => .pure _
  | ctor c =>
    refine .of_works ((checkWritten_works _ _).bind fun _ => ?_)
    split
    · exact .throw _
    · exact (instantiate_works _ explicit site attrs).bind fun _ => .pure _
  | _ => exact .pure none

theorem paramTypes_confined {xs : List Var} (hown : ∀ x ∈ xs, R.own x.serial) :
    R.Confined (xs.map fun x => x.serial) [] (paramTypes R.context xs)
      (paramTypes R.context xs) := by
  induction xs with
  | nil => exact .pure []
  | cons x xs ih =>
    obtain ⟨hx, hxs⟩ := forall_mem_cons.1 hown
    unfold paramTypes
    extract_lets rest
    have hrest : ∀ t, R.Confined ([x.serial] ++ xs.map fun x => x.serial) [] (rest t) (rest t) :=
      fun t => (note_confined (e := .var x) rfl (.inl hx)).bind fun _ =>
        (ih hxs).then_works fun _ => .pure _
    cases x.ascription with
    | none => exact .after_works fresh_works hrest
    | some a => exact .after_works (checkWritten_works _ _) fun _ => hrest a

mutual
theorem checkPattern_confined {p : Pattern} (hown : ∀ n ∈ p.inner, R.own n) (t : Ty) :
    R.Confined p.inner [] (checkPattern R.context p t) (checkPattern R.context p t) := by
  cases p with
  | wildcard n => exact .pure []
  | var n x =>
    unfold checkPattern
    extract_lets site rest
    have hrest : ∀ u, R.Confined [x.serial] [] (rest u) (rest u) := fun _ =>
      (note_confined (e := .var x) rfl (.inl (hown _ (.head _)))).then_works fun _ => .pure _
    cases x.ascription with
    | none => exact hrest ()
    | some a =>
      exact .after_works (checkWritten_works _ _) fun _ => .after_works (unify_works _ _ _) hrest
  | ctor n c subs =>
    unfold checkPattern
    extract_lets site
    cases R.context.module.dataTypeOf? c with
    | none => exact .complain _
    | some d =>
      refine .after_works (freshFor_works _) fun typeArgs => ?_
      refine .after_works (unify_works _ _ _) fun _ => ?_
      refine .ite (fun _ => .complain_bind _) fun hlen => ?_
      exact checkPatterns_confined hown (by simpa [Ctor.arity] using hlen)
theorem checkPatterns_confined {ps : List Pattern} {ts : List Ty}
    (hown : ∀ n ∈ Pattern.serialsList ps, R.own n) (hlen : ps.length = ts.length) :
    R.Confined (Pattern.serialsList ps) [] (checkPatterns R.context ps ts)
      (checkPatterns R.context ps ts) := by
  match ps, ts with
  | [], _ => exact .pure []
  | p :: ps, t :: ts =>
    simp only [Pattern.serialsList, forall_mem_append, forall_mem_cons] at hown
    obtain ⟨hp, hserial, hps⟩ := hown
    unfold checkPatterns
    refine (checkPattern_confined hp t).bind fun bound => ?_
    refine (noteAt_confined (.inl hserial)).bind fun _ => ?_
    exact (checkPatterns_confined hps (by simpa using hlen)).then_works fun more => .pure _
end

/-- The variables of the environment may be noted at their types. -/
def Covers (R : Remit) (env : Env) : Prop :=
  ∀ n t, env.lookup n = some t → R.own n ∨ R.env.lookup n = some t

theorem Covers.append {env bound : Env} (h : R.Covers env) (hbound : ∀ b ∈ bound, R.own b.1) :
    R.Covers (bound ++ env) := by
  intro n t hn
  rcases Option.or_eq_some_iff.1 ((lookup_append ..).symm.trans hn) with hn | ⟨-, hn⟩
  · obtain ⟨l₁, l₂, rfl, -⟩ := lookup_eq_some_iff.1 hn
    exact .inl (hbound (n, t) (by simp))
  · exact h n t hn

theorem Covers.cons {env : Env} (h : R.Covers env) (hn : R.own n) (t : Ty) :
    R.Covers ((n, t) :: env) := by
  have happend : R.Covers ([(n, t)] ++ env) := h.append (by simpa using hn)
  exact happend

theorem Covers.extend {env : Env} (h : R.Covers env) {xs : List Var}
    (hxs : ∀ x ∈ xs, R.own x.serial) (ts : List Ty) : R.Covers (extend env xs ts) := by
  apply h.append
  intro b hb
  obtain ⟨⟨x, t⟩, hx, rfl⟩ := mem_map.1 (mem_reverse.1 hb)
  exact hxs x (of_mem_zip hx).1

/-- The expression mentions functions that may be referred to, and has numbers that may be noted. -/
structure Admits (R : Remit) (e : Expr) : Prop where
  mentions : ∀ g ∈ e.mentions, R.mentioned g
  own : ∀ n ∈ e.serials, R.own n

theorem Admits.child {c : Expr} (h : R.Admits e) (hc : c ∈ e.children) : R.Admits c where
  mentions g hg := h.mentions g (Expr.mentions_of_child hc hg)
  own n hn := h.own n (Expr.mem_serials_iff.2 (.inr ⟨c, hc, hn⟩))

/-- Typing the expression is confined, and goes through all of it. -/
def Types (R : Remit) (e : Expr) : Prop :=
  ∀ env, R.Covers env →
    R.Confined e.serials e.mentions (infer R.context R.solve e env) (infer R.context solve' e env)

variable {solve'} {env : Env}
variable {clauses : List (Pattern × Expr)} {body subject : Expr}

theorem inferList_confined {es : List Expr} (h : ∀ e ∈ es, R.Types solve' e)
    (henv : R.Covers env) :
    R.Confined (Expr.serialsList es) (Expr.mentionsList es)
      (inferList R.context R.solve es env) (inferList R.context solve' es env) := by
  induction es with
  | nil => exact .pure []
  | cons e es ih =>
    obtain ⟨he, hes⟩ := forall_mem_cons.1 h
    unfold inferList
    exact (he env henv).bind fun t => (ih hes).then_works fun ts => .pure _

theorem inferClauses_confined (h : ∀ e ∈ clauses.map Prod.snd, R.Types solve' e)
    (hown : ∀ n ∈ Expr.clauseSerials clauses, R.own n) (subject : Ty) (henv : R.Covers env) :
    R.Confined (Expr.clauseSerials clauses) (Expr.mentionsClauses clauses)
      (inferClauses R.context R.solve subject clauses env)
      (inferClauses R.context solve' subject clauses env) := by
  induction clauses with
  | nil => exact .pure []
  | cons c rest ih =>
    obtain ⟨p, body⟩ := c
    obtain ⟨hbody, hrest⟩ := forall_mem_cons.1 h
    simp only [Expr.clauseSerials, forall_mem_append, forall_mem_cons] at hown
    obtain ⟨hp, hserial, -, hmore⟩ := hown
    unfold inferClauses
    refine (checkPattern_confined hp subject).bind_run fun bound s s' hrun => ?_
    refine (noteAt_confined (.inl hserial)).bind fun _ => ?_
    have hbound : R.Covers (bound ++ env) :=
      henv.append fun b hb => hp _ (checkPattern_bound hrun b hb)
    exact (hbody _ hbound).bind fun t => (ih hrest hmore).then_works fun ts => .pure _

theorem infer_reference_confined (hR : R.Admits e) (he : e.isReference = true) :
    R.Confined e.serials e.mentions
      (typed e do
        match ← reference R.context R.solve e none (.expr e) .empty with
        | some (t, _) => return t
        | none => throw .notAFunctionType)
      (typed e do
        match ← reference R.context solve' e none (.expr e) .empty with
        | some (t, _) => return t
        | none => throw .notAFunctionType) := by
  have href := reference_confined solve' hR.mentions none (.expr e) .empty
  rw [if_pos he] at href
  refine typed_confined (href.then_works fun found => ?_) fun s t s' _ =>
    note_symbol_confined he hR.own
  cases found with
  | some r => exact .pure _
  | none => exact .throw _

/-- A node is typed by way of its parts, and its type is noted. -/
theorem node_confined (hR : R.Admits e) (ns : List Serial)
    (hact : R.Confined ns e.mentions act act') (hns : ∀ n, n ∈ e.serials ↔ n ∈ ns ∨ n = e.serial) :
    R.Confined e.serials e.mentions (typed e act) (typed e act') := by
  have hmem : e.serial ∈ e.serials := (hns _).2 (.inr rfl)
  have hshared : e.isShared = false := by
    cases e with
    | global | ctor => cases hmem
    | _ => rfl
  have hnode := typed_confined hact fun _ t _ _ =>
    note_confined (t := t) hshared (.inl (hR.own _ hmem))
  refine hnode.mono (fun n hn => ?_) (List.Subset.refl _)
  simpa using (hns n).1 hn

theorem infer_fn_confined {params : List Var} {ret : Option Ty} {typeParams : List TypeParam}
    {relations : List TypeRelation} (hR : R.Admits (.fn n params body ret typeParams relations))
    (h : R.Types solve' body) : R.Types solve' (.fn n params body ret typeParams relations) := by
  intro env henv
  have hparams : ∀ x ∈ params, R.own x.serial := fun x hx =>
    hR.own _ (mem_append_left _ (mem_map.2 ⟨x, hx, rfl⟩))
  unfold infer
  refine node_confined hR (params.map (fun x => x.serial) ++ body.serials)
    (withScope_confined _ ?_) (by simp [Expr.serials, Expr.serial, or_assoc])
  refine (paramTypes_confined hparams).bind fun ts => ?_
  refine (h _ (henv.extend hparams ts)).then_works fun bodyType => ?_
  extract_lets rest
  have hrest : ∀ result, Works (rest result) := fun _ =>
    (checkWritten_works _ _).bind fun _ =>
      .ite ((relateAll_works _ _ _).bind fun _ => .pure _) (.pure _)
  cases ret with
  | none => exact hrest bodyType
  | some r =>
    exact (checkWritten_works _ _).bind fun _ => (unify_works _ _ _).bind fun _ => hrest r

theorem infer_call_confined {callee : Expr} {args : List Expr} {typeArgs : Option (List Ty)}
    {attrs : Attrs} (hR : R.Admits (.call n callee args typeArgs attrs))
    (h : ∀ c ∈ callee :: args, R.Types solve' c) :
    R.Types solve' (.call n callee args typeArgs attrs) := by
  intro env henv
  have hcallee : R.Admits callee := hR.child (.head _)
  obtain ⟨hfirst, hargs⟩ := forall_mem_cons.1 h
  have happly : ∀ x : Ty × Option (List Ty),
      R.Confined (Expr.serialsList args) (Expr.mentionsList args)
      (do
        let argTypes ← inferList R.context R.solve args env
        let r ← applyTo R.context (.call n callee args typeArgs attrs) x.1 x.2 args argTypes attrs
        modify fun s => { s with callArgs := s.callArgs.insert n r.2 }
        return r.1)
      (do
        let argTypes ← inferList R.context solve' args env
        let r ← applyTo R.context (.call n callee args typeArgs attrs) x.1 x.2 args argTypes attrs
        modify fun s => { s with callArgs := s.callArgs.insert n r.2 }
        return r.1) := by
    intro x
    refine (inferList_confined hargs henv).bind_nil fun ts => ?_
    refine .after_works (applyTo_works _ _ _ _ _ _) fun r => ?_
    have hn : R.own n := hR.own n (by simp [Expr.serials])
    exact (Confined.modify (fun s => .called s r.2 hn) fun _ => rfl).then_works fun _ => .pure _
  unfold infer
  refine node_confined hR (callee.serials ++ Expr.serialsList args) ?_
    (by simp [Expr.serials, Expr.serial, or_assoc])
  have href := reference_confined solve' hcallee.mentions typeArgs
    (.expr (.call n callee args typeArgs attrs)) attrs
  cases he : callee.isReference with
  | true =>
    rw [if_pos he] at href
    refine href.bind_run fun found s s' hrun => ?_
    obtain ⟨hno, -⟩ | ⟨-, r, rfl, -⟩ := reference_ok_iff.1 hrun
    · rw [he] at hno
      cases hno
    · exact (note_symbol_confined he hcallee.own).bind fun _ => happly (r.1, some r.2)
  | false =>
    rw [if_neg (by simp [he])] at href
    refine href.bind_run fun found s s' hrun => ?_
    obtain ⟨-, rfl, -⟩ | ⟨hyes, -⟩ := reference_ok_iff.1 hrun
    · refine .ite (fun _ => .complain_bind _) fun _ => ?_
      exact (hfirst env henv).bind fun t => happly (t, none)
    · rw [he] at hyes
      cases hyes

theorem infer_letIn_confined {x : Var} {value : Expr} (hR : R.Admits (.letIn n x value body))
    (hvalue : R.Types solve' value) (hbody : R.Types solve' body) :
    R.Types solve' (.letIn n x value body) := by
  intro env henv
  have hx : R.own x.serial := hR.own _ (.head _)
  unfold infer
  refine node_confined hR (value.serials ++ (x.serial :: body.serials)) ?_ ?_
  · extract_lets rest rest'
    have hrest : ∀ t, R.Confined (x.serial :: body.serials) body.mentions (rest t) (rest' t) := by
      intro t
      have hlast : R.Confined (x.serial :: body.serials) body.mentions
          (do note (.var x) t; infer R.context R.solve body ((x.serial, t) :: env))
          (do note (.var x) t; infer R.context solve' body ((x.serial, t) :: env)) :=
        (note_confined (e := .var x) rfl (.inl hx)).bind fun _ => hbody _ (henv.cons hx t)
      dsimp only [rest, rest']
      cases x.ascription with
      | none => exact hlast
      | some a =>
        exact .after_works (checkWritten_works _ _) fun _ =>
          .after_works (unify_works _ _ _) fun _ => hlast
    cases value.function? with
    | none => exact (hvalue env henv).bind hrest
    | some f =>
      refine .after_works fresh_works fun t => ?_
      refine (hvalue _ (henv.cons hx t)).bind fun u => ?_
      exact .after_works (unify_works _ _ _) fun _ => hrest t
  · simp only [Expr.serials, Expr.serial, mem_cons, mem_append]
    tauto

theorem ConfinedAt.matching {s₀ : State} (h : R.Changes s₀ s)
    (hsubject : subject.isShared = true → ∃ g, s₀.provisional.get? g = some t) :
    R.ConfinedAt s [] []
      (modify fun s => { s with scrutinees := s.scrutinees ++ [(subject, t)] })
      (modify fun s => { s with scrutinees := s.scrutinees ++ [(subject, t)] }) := by
  have hchange : R.Changes s { s with scrutinees := s.scrutinees ++ [(subject, t)] } :=
    .single (.matched s subject t)
  refine ⟨.modify ⟨hchange, by simp, by simp, fun x hx => ?_⟩, .inl rfl⟩
  rcases mem_append.1 hx with hx | hx
  · exact .inl hx
  · obtain rfl : x = (subject, t) := by simpa using hx
    refine .inr (.inl fun hshared => ?_)
    obtain ⟨g, hg⟩ := hsubject hshared
    exact ⟨s₀, g, h.trans hchange, hg⟩

theorem infer_matchOn_confined (hR : R.Admits (.matchOn n subject clauses))
    (hsubject : R.Types solve' subject) (h : ∀ c ∈ clauses.map Prod.snd, R.Types solve' c) :
    R.Types solve' (.matchOn n subject clauses) := by
  intro env henv
  have hclauses := fun t => inferClauses_confined h
    (fun n hn => hR.own n (by simp [Expr.serials, hn])) t henv
  unfold infer
  refine node_confined hR (subject.serials ++ Expr.clauseSerials clauses) (fun s => ?_)
    (by simp [Expr.serials, Expr.serial, or_assoc])
  -- The states are named, since what is matched on had its type before the clauses were typed.
  refine (hsubject env henv s).bind fun t s₁ ht => ?_
  have h₁ := ((hsubject env henv s).ends.of_ok ht).changes
  have hcheck := checkSubject_works false subject t
  refine ConfinedAt.after_works hcheck fun _ s₂ hrun => ?_
  have h₂ := h₁.tail (.worked (hcheck.worked hrun))
  refine (hclauses t s₂).bind_nil fun branches s₃ hbranches => ?_
  have h₃ := h₂.trans ((hclauses t s₂).ends.of_ok hbranches).changes
  cases branches with
  | nil => exact .of_works fresh_works s₃
  | cons b rest =>
    have hunify := unifyBranches_works b.2 rest
    refine ConfinedAt.after_works hunify fun _ s₄ hrun' => ?_
    have h₄ := h₃.tail (.worked (hunify.worked hrun'))
    refine (ConfinedAt.matching h₄ fun hshared => ?_).bind fun _ s₅ _ => .pure (.refl s₅)
    exact infer_shared hshared ht hrun

/-- Typing an expression makes these changes only, whether it succeeds or stops. When it succeeds,
all of the expression has been gone through. -/
theorem infer_confined (e : Expr) (hR : R.Admits e) : R.Types solve' e := by
  induction e using Expr.induction_children with
  | step e ih =>
    have h : ∀ c ∈ e.children, R.Types solve' c := fun c hc => ih c hc (hR.child hc)
    intro env henv
    cases e with
    | var x =>
      have hnote : ∀ t, env.lookup x.serial = some t →
          R.Confined [x.serial] [] (note (.var x) t) (note (.var x) t) := fun t ht =>
        note_confined (e := .var x) rfl (henv _ _ ht)
      unfold infer
      cases hx : env.lookup x.serial with
      | none =>
        exact (typed_confined (.of_works (.throw _)) fun _ t _ ht =>
          hnote t (complain_ok_iff.1 ht).elim).mono (by simp [Expr.serials]) (by simp [Expr.mentions])
      | some t =>
        exact (typed_confined (.pure t) fun _ u _ hu =>
          hnote u (by rw [(pure_ok_iff.1 hu).1, hx])).mono (by simp [Expr.serials])
            (by simp [Expr.mentions])
    | global | op | ctor =>
      unfold infer
      exact infer_reference_confined hR rfl
    | constant n c =>
      unfold infer
      refine node_confined hR [] (.of_works ?_) (by simp [Expr.serials, Expr.serial])
      split
      · exact .pure _
      · exact .throw _
    | fn n params body ret typeParams relations =>
      exact infer_fn_confined hR (h body (.head _)) env henv
    | call n callee args typeArgs attrs => exact infer_call_confined hR h env henv
    | letIn n x value body =>
      exact infer_letIn_confined hR (h value (.head _)) (h body (by simp))
        env henv
    | tuple n fields =>
      unfold infer
      exact node_confined hR _ ((inferList_confined h henv).then_works fun _ => .pure _)
        (by simp [Expr.serials, Expr.serial])
    | proj n t index =>
      unfold infer
      exact node_confined hR _ ((h t (.head _) env henv).then_works fun _ =>
        projectFrom_works _ _ _) (by simp [Expr.serials, Expr.serial])
    | cond n test whenTrue whenFalse =>
      unfold infer
      apply node_confined hR (test.serials ++ (whenTrue.serials ++ whenFalse.serials))
      · apply Confined.mono
        · exact (h test (by simp) env henv).bind fun c =>
            .after_works (unify_works _ _ _) fun _ =>
              (h whenTrue (by simp) env henv).bind fun t =>
                (h whenFalse (by simp) env henv).then_works fun u =>
                  (unify_works _ _ _).bind fun _ => .pure _
        · exact List.Subset.refl _
        · simp [Expr.mentions]
      · simp [Expr.serials, Expr.serial, or_assoc]
    | matchOn n subject clauses =>
      exact infer_matchOn_confined hR (h subject (.head _))
        (fun c hc => h c (.tail _ hc)) env henv

/-- A remit under which notes may be taken of everything. -/
def liberal (Γ : Context) (solve : Global → InferM Unit) (mentioned : Global → Prop) : Remit :=
  ⟨Γ, solve, mentioned, fun _ => True, []⟩

theorem infer_liberal {Γ : Context} (solve' : Global → InferM Unit) (e : Expr)
    (hm : ∀ g ∈ e.mentions, mentioned g) (env : Env) :
    (liberal Γ solve mentioned).Confined e.serials e.mentions (infer Γ solve e env)
      (infer Γ solve' e env) :=
  infer_confined e ⟨hm, fun _ _ => trivial⟩ env fun _ _ _ => .inl trivial

end Remit

/-- Typing an expression makes the changes listed first, whether it succeeds or stops. -/
theorem infer_changes {Γ : Context} (e : Expr) (hm : ∀ g ∈ e.mentions, mentioned g) (env : Env)
    (s : State) : Changes Γ solve mentioned s (endState (infer Γ solve e env) s) :=
  (Remit.infer_liberal solve e hm env s).ends.endState (fun _ _ h => h.changes.changes)
    fun _ _ h => h.changes

end TensorTyping.Inference
