import TensorTyping.Proofs.Engine.Queue
import TensorTyping.Proofs.Inference.Runs
import TensorTyping.Proofs.Inference.SimpleTyping

/-!
# Typing the core loses no solutions

Fix types `τ` for the nodes and variables of a core expression. While the expression is typed, each
type that is met stands for a node or a variable, so that `τ` says which type is expected of it
(`OnTrack`). If `τ` is a typing, there is at every moment a substitution for the cells that respects
the store and makes each type met the one expected: a new cell can be given what is expected of it,
and unification keeps all substitutions that make its two sides equal. So typing does not stop, and
where it stops no `τ` is a typing.

The statements keep the assumption that `τ` is a typing apart, as a proposition `H` (`Decides`), since
what is known of the state does not depend on it.
-/
namespace TensorTyping

open List

variable {α : Type}

namespace Store

variable {s : Store} {expected : List (Ty × Ty)}

/-- Some substitution respects the store and makes every type the one that is expected. -/
def Possible (expected : List (Ty × Ty)) (s : Store) : Prop :=
  ∃ f, s.Models f ∧ ∀ p ∈ expected, p.1.mapCells f = p.2

theorem Possible.fresh (h : Possible expected s) (hs : s.Valid)
    (howned : ∀ p ∈ expected, s.ownsAll p.1 = true) (t : Ty) :
    Possible ((.cell s.fresh.1, t) :: expected) s.fresh.2 := by
  obtain ⟨f, hf, hfits⟩ := h
  have hne {c : Cell} (hc : s.owns c = true) : c ≠ s.fresh.1 := by
    rintro rfl
    rw [s.owns_new] at hc
    cases hc
  refine ⟨Function.update f s.fresh.1 t, fun c => ?_, forall_mem_cons.2 ⟨?_, fun p hp => ?_⟩⟩
  · rw [hs.value_fresh]
    cases hc : s.owns c with
    | false => rw [hs.value_foreign hc, Ty.mapCells_cell]
    | true =>
      rw [Function.update_of_ne (hne hc), ← hf c]
      refine Ty.mapCells_congr fun d hd => Function.update_of_ne (hne ?_) t f
      exact (hs.free_of_mem_value hc hd).1
  · rw [Ty.mapCells_cell, Function.update_self]
  · rw [← hfits p hp]
    exact Ty.mapCells_congr fun d hd =>
      Function.update_of_ne (hne (ownsAll_iff.1 (howned p hp) d hd)) t f

end Store

namespace Engine

variable {e : Engine}

structure Idle (e : Engine) : Prop where
  pending_eq : e.pending = []
  queue_eq : e.queue = []

namespace Idle

theorem foldl {f : Engine → α → Engine} (hf : ∀ {e : Engine} a, e.Idle → (f e a).Idle) (as : List α)
    (h : e.Idle) : (as.foldl f e).Idle := by
  induction as generalizing e with
  | nil => exact h
  | cons a as ih => exact ih (hf a h)

theorem wake (h : e.Idle) (n : Nat) : (e.wake n).Idle := by
  rw [wake_of_none (by simp [instance?, h.pending_eq])]
  exact h

theorem hear (h : e.Idle) (root : Nat) : (e.hear root).Idle :=
  foldl (fun n hn => hn.wake n) _ ⟨h.pending_eq, h.queue_eq⟩

theorem moved (h : e.Idle) (s : Store) : (e.moved s).Idle :=
  foldl (fun n hn => hn.hear n) _ ⟨h.pending_eq, h.queue_eq⟩

theorem step (h : e.Idle) (registry : Registry) : EngineM.step registry e = .ok false e := by
  unfold EngineM.step
  rw [get_bind, h.queue_eq]
  rfl

theorem finish (h : e.Idle) (registry : Registry) : EngineM.finish registry e = .ok () e := by
  have hpropagate : EngineM.propagate registry e = .ok () e := by
    unfold EngineM.propagate
    rw [get_bind, attempts, EngineM.propagateWithin, bind_of_ok (h.step registry)]
    rfl
  unfold EngineM.finish
  rw [bind_of_ok hpropagate, get_bind, h.pending_eq]
  rfl

end Idle

end Engine

theorem Fault.Refuses.blame {fault : Fault} (h : fault.Refuses) (site : Option Phrase) :
    (fault.blame site).Refuses := by
  obtain ⟨i, rfl, hkind⟩ := h
  refine ⟨i.blame site, rfl, ?_⟩
  unfold Issue.blame
  split <;> exact hkind

theorem Table.mem_entries_insert {κ : Type} [DecidableEq κ] {t : Table κ α} {k : κ} {a : α}
    {x : κ × α} (h : x ∈ (t.insert k a).entries) : x = (k, a) ∨ x ∈ t.entries := by
  have hput (es : List (κ × α)) (hx : x ∈ Table.put k a es) : x = (k, a) ∨ x ∈ es := by
    induction es with
    | nil => exact .inl (by simpa [Table.put] using hx)
    | cons e es ih =>
      obtain ⟨k', a'⟩ := e
      unfold Table.put at hx
      split at hx
      · next hk =>
        rw [← hk, mem_cons] at hx
        exact hx.imp_right (mem_cons_of_mem _)
      · rcases mem_cons.1 hx with hx | hx
        · exact .inr (mem_cons.2 (.inl hx))
        · exact (ih hx).imp_right (mem_cons_of_mem _)
  exact hput t.entries h

namespace Inference

/-- A state in the course of typing a core expression for which the types `τ` are expected: `expected`
pairs the types met so far with what is expected of them. If `H` holds, all of it can come true. -/
structure OnTrack (τ : Serial → Ty) (H : Prop) (expected : List (Ty × Ty)) (s : State) : Prop where
  valid : s.engine.store.Valid
  values : ∀ c, Ty.Everywhere Ty.isPlain (s.engine.store.value c)
  owned : ∀ p ∈ expected, s.engine.store.ownsAll p.1 = true
  plain : ∀ p ∈ expected, Ty.Everywhere Ty.isPlain p.1
  noted : ∀ x ∈ s.nodeTypes.entries, (x.2.2, τ x.1) ∈ expected
  calls : ∀ x ∈ s.callArgs.entries, x.2 = []
  scrutinees : s.scrutinees = []
  idle : s.engine.Idle
  possible : H → s.engine.store.Possible expected

/-- However a computation ends, it is as stated: its result is, if there is one, and if it stops
then with a type error and only where `H` does not hold. -/
abbrev Decides {α : Type} (H : Prop) (act : InferM α) (s : State) (Q : α → State → Prop) : Prop :=
  Ends act s Q fun fault _ => fault.Refuses ∧ ¬ H

/-- A complaint is in place where `H` does not hold. -/
protected theorem Decides.complain {α : Type} {H : Prop} {s : State} {P : α → State → Prop}
    {i : Issue} (hkind : i.kind ≠ .ambiguousType) (h : ¬ H) : Decides H (complain i) s P :=
  .throw ⟨⟨i, rfl, hkind⟩, h⟩

section

variable {e : Expr} {n : Serial}

variable {Γ : Context} {solve : Global → InferM Unit} {τ : Serial → Ty} {H : Prop}
  {expected : List (Ty × Ty)} {s : State} {t u : Ty}
variable {ts us : List Ty} {es : List Expr} {params : List Var}
variable {body test value callee whenTrue whenFalse : Expr} {v : Ty} {args fields : List Expr}
  {attrs : Attrs} {x : Var}

namespace OnTrack

section

variable (h : OnTrack τ H expected s)
variable {σ : Store}

include h

/-- A type is expected that has to come out if the others do. -/
theorem expect (howned : s.engine.store.ownsAll t = true) (hplain : Ty.Everywhere Ty.isPlain t)
    (hu : H → ∀ f, s.engine.store.Models f → (∀ p ∈ expected, p.1.mapCells f = p.2) →
      t.mapCells f = u) : OnTrack τ H ((t, u) :: expected) s :=
  { h with
    owned := forall_mem_cons.2 ⟨howned, h.owned⟩
    plain := forall_mem_cons.2 ⟨hplain, h.plain⟩
    noted := fun x hx => .tail _ (h.noted x hx)
    possible := fun hH => by
      obtain ⟨f, hf, hfits⟩ := h.possible hH
      exact ⟨f, hf, forall_mem_cons.2 ⟨hu hH f hf hfits, hfits⟩⟩ }

theorem expect_basic (ht : t.basic = true) (hu : H → u = t) :
    OnTrack τ H ((t, u) :: expected) s := by
  have hclosed := Ty.closed_of_basic ht
  refine h.expect (Store.ownsAll_iff.2 fun c hc => ?_) (Ty.everywhere_of_basic ht) fun hH f _ _ => ?_
  · rw [hclosed] at hc
    exact absurd hc not_mem_nil
  · rw [hu hH, Ty.mapCells_closed hclosed]

theorem again (ht : (t, u) ∈ expected) (hv : H → v = u) : OnTrack τ H ((t, v) :: expected) s :=
  h.expect (h.owned _ ht) (h.plain _ ht) fun hH _ _ hfits => (hfits _ ht).trans (hv hH).symm

theorem moved (new : List (Ty × Ty)) (hσ : s.engine.store.Evolves σ)
    (hvalues : ∀ c, Ty.Everywhere Ty.isPlain (σ.value c))
    (hnew : ∀ p ∈ new, σ.ownsAll p.1 = true ∧ Ty.Everywhere Ty.isPlain p.1)
    (hpossible : H → σ.Possible (new ++ expected)) :
    OnTrack τ H (new ++ expected) { s with engine := s.engine.moved σ } := by
  have hstore := Engine.store_moved s.engine σ
  refine { h with
    valid := ?_
    values := ?_
    owned := forall_mem_append.2 ⟨fun p hp => ?_, fun p hp => ?_⟩
    plain := forall_mem_append.2 ⟨fun p hp => (hnew p hp).2, h.plain⟩
    noted := fun x hx => mem_append_right _ (h.noted x hx)
    idle := h.idle.moved σ
    possible := ?_ }
  · rw [hstore]
    exact hσ.valid
  · rw [hstore]
    exact hvalues
  · rw [hstore]
    exact (hnew p hp).1
  · rw [hstore]
    exact hσ.later.ownsAll (h.owned p hp)
  · rw [hstore]
    exact hpossible

theorem kept (hσ : s.engine.store.Kept σ) :
    OnTrack τ H expected { s with engine := s.engine.moved σ } := by
  refine h.moved [] hσ.evolves (fun c => ?_) (by simp) fun hH => ?_
  · rw [hσ.view.value_eq]
    exact h.values c
  · obtain ⟨f, hf, hfits⟩ := h.possible hH
    exact ⟨f, hf.kept hσ, hfits⟩

theorem note {n : Serial} (ht : (t, τ n) ∈ expected) (p : Phrase) :
    OnTrack τ H expected { s with nodeTypes := s.nodeTypes.insert n (p, t) } := by
  refine { h with noted := fun x hx => ?_ }
  rcases Table.mem_entries_insert hx with rfl | hx
  · exact ht
  · exact h.noted x hx

end

end OnTrack

theorem onStore_decides {act : StoreM α} {Q : α → State → Prop}
    (hok : ∀ a σ, act s.engine.store = .ok a σ → Q a { s with engine := s.engine.moved σ })
    (herror : ∀ fault σ, act s.engine.store = .error fault σ → fault.Refuses ∧ ¬ H) :
    Decides H (onEngine (EngineM.onStore act)) s Q := by
  cases hact : act s.engine.store with
  | ok a σ =>
    have hrun : onEngine (EngineM.onStore act) s =
        .ok a { s with engine := s.engine.moved σ } := by
      simp only [onEngine, EngineM.onStore_of_ok hact]
    exact .of_eq_ok hrun (hok a σ hact)
  | error f σ =>
    have hrun : onEngine (EngineM.onStore act) s =
        .error f { s with engine := s.engine.moved σ } := by
      simp only [onEngine, EngineM.onStore_of_error hact]
    exact .of_eq_error hrun (herror f σ hact)

section

variable (h : OnTrack τ H expected s)

include h

theorem fresh_decides (u : Ty) :
    Decides H fresh s fun t s' => OnTrack τ H ((t, u) :: expected) s' := by
  refine onStore_decides (fun t σ hrun => ?_) fun fault σ hrun => by cases hrun
  obtain ⟨rfl, rfl⟩ : t = .cell s.engine.store.fresh.1 ∧ σ = s.engine.store.fresh.2 := by
    cases hrun
    exact ⟨rfl, rfl⟩
  have hnew : s.engine.store.fresh.2.ownsAll (.cell s.engine.store.fresh.1) = true := by
    rw [Store.ownsAll_iff]
    simpa using Store.owns_new_fresh s.engine.store
  refine h.moved [_] ⟨h.valid.fresh, h.valid.extends_fresh⟩ (fun c => ?_)
    (forall_mem_singleton.2 ⟨hnew, .cell Ty.shallow_isPlain _⟩) fun hH => ?_
  · rw [h.valid.value_fresh]
    exact h.values c
  · exact (h.possible hH).fresh h.valid h.owned u

theorem find_decides (ht : (t, u) ∈ expected) :
    Decides H (find t) s fun r s' => OnTrack τ H ((r, u) :: expected) s' := by
  have howned := h.owned _ ht
  obtain ⟨σ, hfind, hk⟩ := StoreM.find_ok h.valid (Store.ownsTop_of_ownsAll howned)
  refine onStore_decides (fun r σ' hrun => ?_) fun fault σ' hrun => ?_
  · rw [hfind] at hrun
    cases hrun
    refine (h.kept hk).expect ?_ ?_ fun hH f hf hfits => ?_
    · rw [Engine.store_moved, hk.view.ownsAll_eq]
      exact h.valid.ownsAll_top howned
    · exact h.valid.everywhere_top Ty.shallow_isPlain h.values (h.plain _ ht)
    · rw [Engine.store_moved] at hf
      rw [(hf.earlier hk.later).top h.valid]
      exact hfits _ ht
  · rw [hfind] at hrun
    cases hrun

theorem resolve_decides (ht : (t, u) ∈ expected) :
    Decides H (resolve t) s fun _ s' => OnTrack τ H expected s' := by
  obtain ⟨σ, hresolve, hk⟩ := StoreM.resolve_ok h.valid (h.owned _ ht)
  refine onStore_decides (fun r σ' hrun => ?_) fun fault σ' hrun => ?_
  · rw [hresolve] at hrun
    cases hrun
    exact h.kept hk
  · rw [hresolve] at hrun
    cases hrun

/-- Types of which the same is expected can be unified. -/
theorem unify_decides {a b : Ty} (ha : (a, u) ∈ expected) (hb : (b, v) ∈ expected) (huv : H → u = v)
    (site : Phrase) : Decides H (unify a b site) s fun _ s' => OnTrack τ H expected s' := by
  have hcomplete (hH : H) : ∃ σ f, StoreM.unify a b (some site) s.engine.store = .ok () σ ∧
      σ.Models f ∧ ∀ p ∈ expected, p.1.mapCells f = p.2 := by
    obtain ⟨f, hf, hfits⟩ := h.possible hH
    have hsolves : s.engine.store.Solves f [(a, b)] := by
      refine forall_mem_singleton.2 ⟨h.owned (a, u) ha, h.owned (b, v) hb, ?_⟩
      calc a.mapCells f = u := hfits _ ha
        _ = v := huv hH
        _ = b.mapCells f := (hfits _ hb).symm
    obtain ⟨σ, hrun, hσ⟩ := StoreM.unify_complete h.valid hf hsolves
    exact ⟨σ, f, hrun, hσ, hfits⟩
  refine onStore_decides (fun _ σ hrun => ?_) fun fault σ hrun => ⟨?_, fun hH => ?_⟩
  · have hevolves := StoreM.unify_evolves h.valid a b (some site)
    rw [endState_of_ok hrun] at hevolves
    refine h.moved [] hevolves (fun c => ?_) (by simp) fun hH => ?_
    · have hholds {t : Ty} (ht : Ty.Everywhere Ty.isPlain t) :
          s.engine.store.Holds Ty.isPlain t := Store.holds_of_values Ty.shallow_isPlain h.values ht
      exact StoreM.unify_holds Ty.shallow_isPlain h.valid (hholds (h.plain _ ha))
        (hholds (h.plain _ hb)) hrun (hholds (.cell Ty.shallow_isPlain c))
    · obtain ⟨σ', f, hrun', hf, hfits⟩ := hcomplete hH
      rw [hrun] at hrun'
      cases hrun'
      exact ⟨f, hf, hfits⟩
  · exact StoreM.unify_refuses h.valid (h.owned _ ha) (h.owned _ hb) hrun
  · obtain ⟨σ', f, hrun', -⟩ := hcomplete hH
    rw [hrun] at hrun'
    cases hrun'

end

theorem checkWritten_decides (Γ : Context) (hts : ∀ t ∈ ts, t.basic = true) (site : Phrase) :
    Decides H (checkWritten Γ ts site) s fun _ s' => s' = s := by
  unfold checkWritten
  apply Ends.get_bind
  rw [misformedList?_eq_none_iff.2 fun t ht => misformed?_of_basic _ _ _ (hts t ht)]
  exact .pure rfl

/-- The state is on track with more types met than before, among them `t`, of which `u` is
expected. -/
def Meets (τ : Serial → Ty) (H : Prop) (expected : List (Ty × Ty)) (t u : Ty) (s : State) : Prop :=
  ∃ expected', expected ⊆ expected' ∧ (t, u) ∈ expected' ∧ OnTrack τ H expected' s

/-- The state is on track with more types met than before, among them those of a list. -/
def MeetsAll (τ : Serial → Ty) (H : Prop) (expected : List (Ty × Ty)) (ts us : List Ty)
    (s : State) : Prop :=
  ∃ expected', expected ⊆ expected' ∧ List.Forall₂ (fun t u => (t, u) ∈ expected') ts us ∧
    OnTrack τ H expected' s

theorem OnTrack.meets (h : OnTrack τ H ((t, u) :: expected) s) : Meets τ H expected t u s :=
  ⟨_, subset_cons_self _ _, .head _, h⟩

theorem Meets.more {expected' : List (Ty × Ty)} (h : Meets τ H expected' t u s)
    (hsub : expected ⊆ expected') : Meets τ H expected t u s := by
  obtain ⟨expected'', hsub', ht, h⟩ := h
  exact ⟨expected'', fun p hp => hsub' (hsub hp), ht, h⟩

theorem map_eq_of_expected {f : Cell → Ty} (hfits : ∀ p ∈ expected, p.1.mapCells f = p.2)
    (h : List.Forall₂ (fun t u => (t, u) ∈ expected) ts us) : ts.map (Ty.mapCells f) = us := by
  induction h with
  | nil => rfl
  | cons ht _ ih => rw [map_cons, hfits _ ht, ih]

theorem forall_of_expected {P : Ty → Prop} (hP : ∀ p ∈ expected, P p.1)
    (h : List.Forall₂ (fun t u => (t, u) ∈ expected) ts us) : ∀ t ∈ ts, P t := by
  induction h with
  | nil => exact forall_mem_nil _
  | cons ht _ ih => exact forall_mem_cons.2 ⟨hP _ ht, ih⟩

section

variable (h : OnTrack τ H expected s)
variable {w : Ty} {vs : List Ty}

include h

theorem OnTrack.func {r : Ty} (hts : List.Forall₂ (fun t u => (t, u) ∈ expected) ts us)
    (hr : (r, w) ∈ expected) (hu : H → u = .func us w [] []) :
    OnTrack τ H ((.func ts r [] [], u) :: expected) s := by
  refine h.expect (Store.ownsAll_of_children rfl fun x hx => ?_) ?_ fun hH f _ hfits => ?_
  · simp only [Ty.children, flatMap_nil, mem_append, mem_singleton] at hx
    rcases hx with hx | rfl
    · exact forall_of_expected (P := fun t => s.engine.store.ownsAll t = true) h.owned hts x hx
    · exact h.owned _ hr
  · exact .func Ty.shallow_isPlain (forall_of_expected h.plain hts) (h.plain _ hr)
  · rw [hu hH, Ty.mapCells_func, map_eq_of_expected hfits hts, hfits _ hr, map_nil]

theorem OnTrack.tuple (hts : List.Forall₂ (fun t u => (t, u) ∈ expected) ts us)
    (hu : H → u = .tuple us) : OnTrack τ H ((.tuple ts, u) :: expected) s := by
  refine h.expect (Store.ownsAll_of_children rfl fun x hx => ?_) ?_ fun hH f _ hfits => ?_
  · exact forall_of_expected (P := fun t => s.engine.store.ownsAll t = true) h.owned hts x hx
  · exact .tuple Ty.shallow_isPlain (forall_of_expected h.plain hts)
  · rw [hu hH, Ty.mapCells_tuple, map_eq_of_expected hfits hts]

theorem OnTrack.expectAll (hlen : ts.length = us.length)
    (howned : ∀ t ∈ ts, s.engine.store.ownsAll t = true)
    (hplain : ∀ t ∈ ts, Ty.Everywhere Ty.isPlain t)
    (hu : H → ∀ f, s.engine.store.Models f → (∀ p ∈ expected, p.1.mapCells f = p.2) →
      ts.map (Ty.mapCells f) = us) : MeetsAll τ H expected ts us s := by
  induction ts generalizing us expected with
  | nil =>
    obtain rfl : us = [] := length_eq_zero_iff.1 hlen.symm
    exact ⟨expected, fun _ hp => hp, .nil, h⟩
  | cons t ts ih =>
    obtain ⟨u, us, rfl⟩ := exists_cons_of_length_eq_add_one hlen.symm
    rw [forall_mem_cons] at howned hplain
    have h₁ : OnTrack τ H ((t, u) :: expected) s :=
      h.expect howned.1 hplain.1 fun hH f hf hfits => (List.cons.inj (hu hH f hf hfits)).1
    obtain ⟨expected', hsub, hts, h₂⟩ := ih h₁ (by simpa using hlen) howned.2 hplain.2
      fun hH f hf hfits => (List.cons.inj (hu hH f hf fun p hp =>
        hfits p (.tail _ hp))).2
    exact ⟨expected', fun p hp => hsub (.tail _ hp),
      .cons (hsub (.head _)) hts, h₂⟩

theorem unifyArgs_decides {as : List Ty} (has : List.Forall₂ (fun t u => (t, u) ∈ expected) as us)
    (hts : List.Forall₂ (fun t u => (t, u) ∈ expected) ts vs) (huv : H → us = vs) :
    Decides H (unifyArgs as ts es) s fun _ s' => OnTrack τ H expected s' := by
  induction has generalizing ts vs es s with
  | nil => exact .pure h
  | cons ha _ ih =>
    cases hts with
    | nil => exact .pure h
    | cons ht hts =>
      cases es with
      | nil => exact .pure h
      | cons e es =>
        unfold unifyArgs
        refine (unify_decides h ha ht (fun hH => ?_) (.expr e)).bind fun _ s₁ h₁ => ?_
        · exact (List.cons.inj (huv hH)).1
        · exact ih h₁ hts fun hH => (List.cons.inj (huv hH)).2

/-- A call of something that has a function type, or can be given one. -/
theorem applyTo_decides {fnType : Ty} {argTypes : List Ty} (hfn : (fnType, u) ∈ expected)
    (hargs : List.Forall₂ (fun t u => (t, u) ∈ expected) argTypes vs)
    (hu : H → u = .func vs w [] []) (site : Expr) (args : List Expr) (attrs : Attrs) :
    Decides H (applyTo Γ site fnType none args argTypes attrs) s fun r s' =>
      r.2 = [] ∧ Meets τ H expected r.1 w s' := by
  unfold applyTo
  extract_lets typeArgs call
  refine (find_decides h hfn).bind fun found s₁ h₁ => ?_
  have hsub : expected ⊆ (found, u) :: expected := subset_cons_self _ _
  have hargs₁ := hargs.imp fun _ _ ht => hsub ht
  split
  · next c =>
    refine (fresh_decides h₁ w).bind fun ret s₂ h₂ => ?_
    have hargs₂ := hargs₁.imp fun _ _ ht => mem_cons_of_mem (ret, w) ht
    have h₃ := h₂.func hargs₂ (.head _) (fun _ => rfl)
    refine (unify_decides h₃ (by simp) (.head _) hu _).bind fun _ s₃ h₄ => ?_
    refine .pure ⟨rfl, _, fun p hp => ?_, ?_, h₄⟩
    · simp [hp]
    · simp
  · next as r ps rs =>
    have hmem : (Ty.func as r ps rs, u) ∈ (Ty.func as r ps rs, u) :: expected := .head _
    obtain ⟨rfl, rfl⟩ : ps = [] ∧ rs = [] := (h₁.plain _ hmem).top
    refine .ite (fun hps => absurd hps (by simp)) fun _ => ?_
    change Decides H (call (.func as r [] [], typeArgs)) s₁ _
    -- What is expected of the function type is expected of its parts.
    have hparts (hH : H) {f : Cell → Ty}
        (hfits : ∀ p ∈ (Ty.func as r [] [], u) :: expected, p.1.mapCells f = p.2) :
        as.map (Ty.mapCells f) = vs ∧ r.mapCells f = w := by
      have hfunc : (Ty.func as r [] []).mapCells f = .func vs w [] [] :=
        (hfits _ hmem).trans (hu hH)
      rw [Ty.mapCells_func, Ty.func.injEq] at hfunc
      exact ⟨hfunc.1, hfunc.2.1⟩
    refine .ite (fun harity => ?_) fun harity => ?_
    · refine (Decides.complain (P := fun _ _ => False) (by simp) fun hH => harity ?_).bind
        fun _ _ hfalse => hfalse.elim
      obtain ⟨f, -, hfits⟩ := h₁.possible hH
      rw [hargs.length_eq, ← (hparts hH hfits).1, length_map]
    · have hchild {x : Ty} (hx : x ∈ (Ty.func as r [] []).children) :
          s₁.engine.store.ownsAll x = true ∧ Ty.Everywhere Ty.isPlain x :=
        ⟨Store.ownsAll_of_child (h₁.owned _ hmem) hx, (h₁.plain _ hmem).child hx⟩
      have hr := hchild (x := r) (by simp)
      have has : ∀ a ∈ as, s₁.engine.store.ownsAll a = true ∧ Ty.Everywhere Ty.isPlain a :=
        fun a ha => hchild (by simp [ha])
      have h₂ : OnTrack τ H ((r, w) :: (.func as r [] [], u) :: expected) s₁ :=
        h₁.expect hr.1 hr.2 fun hH f _ hfits => (hparts hH hfits).2
      have hlen : as.length = vs.length := (Decidable.not_not.1 harity).trans hargs.length_eq
      obtain ⟨expected', hsub', has', h₃⟩ := h₂.expectAll hlen (fun a ha => (has a ha).1)
        (fun a ha => (has a ha).2) fun hH f _ hfits =>
          (hparts hH fun p hp => hfits p (.tail _ hp)).1
      refine (unifyArgs_decides h₃ has' (hargs₁.imp fun _ _ ht => hsub' (.tail _ ht))
        fun _ => rfl).bind fun _ s₂ h₄ => ?_
      exact .pure ⟨rfl, expected', fun p hp => hsub' (by simp [hp]), hsub' (.head _), h₄⟩
  · next hcell hfunc =>
    refine (resolve_decides h₁ (.head _)).bind fun _ _ _ => ?_
    refine Decides.complain (by simp) fun hH => ?_
    -- Only a cell or a function type can come out as a function type.
    obtain ⟨f, -, hfits⟩ := h₁.possible hH
    have hfound : found.mapCells f = .func vs w [] [] :=
      (hfits _ (.head _)).trans (hu hH)
    cases found with
    | cell c => exact hcell c rfl
    | func as r ps rs => exact hfunc as r ps rs rfl
    | _ => simp at hfound

omit h in
theorem typed_decides {act : InferM Ty} {p : Prop} (hshared : e.isShared = false)
    (h : Decides H act s fun t s' => p ∧ Meets τ H expected t (τ e.serial) s') :
    Decides H (typed e act) s fun t s' => p ∧ Meets τ H expected t (τ e.serial) s' := by
  refine typed_ends h ?_ fun fault s₁ hfault => ⟨hfault.1.blame _, hfault.2⟩
  rintro t s₁ ⟨hp, expected', hsub, ht, h'⟩
  rw [State.notedExpr, hshared]
  exact ⟨hp, expected', hsub, ht, h'.note ht _⟩

/-- The parameters of a function are as expected if the typing gives them their written types. -/
theorem paramTypes_decides (hbasic : ∀ x ∈ params, ∀ a, x.ascription = some a → a.basic = true)
    (hτ : H → ∀ x ∈ params, ∀ a, x.ascription = some a → τ x.serial = a) :
    Decides H (paramTypes Γ params) s
      (MeetsAll τ H expected · (params.map fun x => τ x.serial) ·) := by
  induction params generalizing s expected with
  | nil => exact .pure ⟨expected, fun _ hp => hp, .nil, h⟩
  | cons x xs ih =>
    rw [forall_mem_cons] at hbasic
    have hτx (hH : H) := (forall_mem_cons.1 (hτ hH)).1
    have hτxs (hH : H) := (forall_mem_cons.1 (hτ hH)).2
    unfold paramTypes
    extract_lets rest
    have hrest {t : Ty} {s₁ : State} (h₁ : OnTrack τ H ((t, τ x.serial) :: expected) s₁) :
        Decides H (rest t) s₁
          (MeetsAll τ H expected · ((x :: xs).map fun x => τ x.serial) ·) := by
      apply Ends.modify_bind
      refine (ih (h₁.note (.head _) _) hbasic.2 hτxs).bind fun ts s₂ hstep => ?_
      obtain ⟨expected', hsub, hts, h₂⟩ := hstep
      exact .pure ⟨expected', fun p hp => hsub (.tail _ hp),
        .cons (hsub (.head _)) hts, h₂⟩
    split
    · exact (fresh_decides h (τ x.serial)).bind fun t s₁ h₁ => hrest h₁
    · next a ha =>
      have hba := hbasic.1 a ha
      refine (checkWritten_decides Γ (forall_mem_singleton.2 hba) _).bind fun _ s₁ hs₁ => ?_
      rw [hs₁]
      exact hrest (h.expect_basic hba fun hH => hτx hH a ha)

end

/-- Whether the types `τ` obey the rules at every node of an expression, in which the variables
`bound` may be used. -/
structure Fulfils (τ : Serial → Ty) (bound : List Serial) (e : Expr) : Prop where
  wellScoped : e.wellScoped bound = true
  rules : ∀ d ∈ e.parts, d.SimplyTyped τ

theorem Fulfils.self {bound : List Serial} (h : Fulfils τ bound e) : e.SimplyTyped τ :=
  h.rules e e.self_mem_parts

theorem wellScopedList_iff {bound : List Serial} :
    Expr.wellScopedList bound es = true ↔ ∀ e ∈ es, e.wellScoped bound = true := by
  induction es with
  | nil => simp [Expr.wellScopedList]
  | cons e es ih => simp [Expr.wellScopedList, ih]

namespace Fulfils

variable {bound : List Serial} {n : Serial}

theorem child {bound' : List Serial} {e c : Expr} (h : Fulfils τ bound e) (hc : c ∈ e.children)
    (hscope : c.wellScoped bound' = true) : Fulfils τ bound' c :=
  ⟨hscope, fun d hd => h.rules d (Expr.parts_of_child hc hd)⟩

theorem tuple (h : Fulfils τ bound (.tuple n fields)) :
    ∀ e ∈ fields, Fulfils τ bound e := fun e he =>
  h.child he (wellScopedList_iff.1 h.wellScoped e he)

theorem call {ts : Option (List Ty)} (h : Fulfils τ bound (.call n callee args ts attrs)) :
    Fulfils τ bound callee ∧ ∀ e ∈ args, Fulfils τ bound e := by
  have hscope := h.wellScoped
  simp only [Expr.wellScoped, Bool.and_eq_true, wellScopedList_iff] at hscope
  exact ⟨h.child (.head _) hscope.1, fun e he =>
    h.child (.tail _ he) (hscope.2 e he)⟩

theorem cond (h : Fulfils τ bound (.cond n test whenTrue whenFalse)) :
    Fulfils τ bound test ∧ Fulfils τ bound whenTrue ∧ Fulfils τ bound whenFalse := by
  have hscope := h.wellScoped
  simp only [Expr.wellScoped, Bool.and_eq_true] at hscope
  exact ⟨h.child (by simp) hscope.1.1,
    h.child (by simp) hscope.1.2, h.child (by simp) hscope.2⟩

theorem letIn (h : Fulfils τ bound (.letIn n x value body)) :
    Fulfils τ (if value.function?.isSome then x.serial :: bound else bound) value ∧
      Fulfils τ (x.serial :: bound) body := by
  have hscope := h.wellScoped
  rw [Expr.wellScoped, Bool.and_eq_true] at hscope
  exact ⟨h.child (by simp) hscope.1, h.child (by simp) hscope.2⟩

end Fulfils

/-- Typing the expression loses no solution, wherever it stands. -/
def InfersFully (Γ : Context) (solve : Global → InferM Unit) (e : Expr) : Prop :=
  ∀ τ H expected env s, OnTrack τ H expected s → (∀ p ∈ env, (p.2, τ p.1) ∈ expected) →
    (H → Fulfils τ (env.map Prod.fst) e) →
    Decides H (infer Γ solve e env) s fun t s' =>
      e.wellScoped (env.map Prod.fst) = true ∧ Meets τ H expected t (τ e.serial) s'

variable {env : Env}

theorem infer_var_decides (x : Var) : InfersFully Γ solve (.var x) := by
  intro τ H expected env s h henv hτ
  unfold infer
  refine typed_decides rfl ?_
  split
  · next t ht =>
    have hmem : (x.serial, t) ∈ env := by
      obtain ⟨before, after, rfl, -⟩ := lookup_eq_some_iff.1 ht
      simp
    refine .pure ⟨?_, expected, fun _ hp => hp, henv _ hmem, h⟩
    simp only [Expr.wellScoped, contains_iff_mem]
    exact mem_map_of_mem hmem
  · next hnone =>
    refine Decides.complain (by simp [Issue.unboundName]) fun hH => ?_
    have hbound := (hτ hH).wellScoped
    simp only [Expr.wellScoped, contains_iff_mem, mem_map] at hbound
    obtain ⟨p, hp, hpx⟩ := hbound
    have hne := lookup_eq_none_iff.1 hnone p hp
    simp [hpx] at hne

theorem infer_constant_decides {c : Constant} (hcore : (Expr.constant n c).isCore = true) :
    InfersFully Γ solve (.constant n c) := by
  intro τ H expected env s h henv hτ
  obtain ⟨t, ht, hbasic⟩ := Expr.constant_of_core hcore
  unfold infer
  refine typed_decides rfl ?_
  rw [ht]
  refine .pure ⟨rfl, (h.expect_basic hbasic fun hH => ?_).meets⟩
  have hrule : Ty.ofEntries c.shape c.dtype = .ok (τ n) := (hτ hH).self
  rw [ht, Except.ok.injEq] at hrule
  exact hrule.symm

theorem inferList_decides (hes : ∀ e ∈ es, InfersFully Γ solve e) (h : OnTrack τ H expected s)
    (henv : ∀ p ∈ env, (p.2, τ p.1) ∈ expected)
    (hτ : H → ∀ e ∈ es, Fulfils τ (env.map Prod.fst) e) :
    Decides H (inferList Γ solve es env) s fun ts s' =>
      Expr.wellScopedList (env.map Prod.fst) es = true ∧
        MeetsAll τ H expected ts (es.map fun e => τ e.serial) s' := by
  induction es generalizing s expected with
  | nil => exact .pure ⟨rfl, expected, fun _ hp => hp, .nil, h⟩
  | cons e es ih =>
    rw [forall_mem_cons] at hes
    have hτe (hH : H) := (forall_mem_cons.1 (hτ hH)).1
    have hτes (hH : H) := (forall_mem_cons.1 (hτ hH)).2
    unfold inferList
    refine (hes.1 τ H expected env s h henv hτe).bind fun t s₁ hstep => ?_
    obtain ⟨hscope, expected₁, hsub₁, ht, h₁⟩ := hstep
    refine (ih hes.2 h₁ (fun p hp => hsub₁ (henv p hp)) hτes).bind fun ts s₂ hstep => ?_
    obtain ⟨hscopes, expected₂, hsub₂, hts, h₂⟩ := hstep
    refine .pure ⟨?_, expected₂, fun p hp => hsub₂ (hsub₁ hp), .cons (hsub₂ ht) hts, h₂⟩
    rw [Expr.wellScopedList, hscope, hscopes]
    rfl

theorem infer_tuple_decides (hfields : ∀ e ∈ fields, InfersFully Γ solve e) :
    InfersFully Γ solve (.tuple n fields) := by
  intro τ H expected env s h henv hτ
  unfold infer
  refine typed_decides rfl ?_
  refine (inferList_decides hfields h henv fun hH => (hτ hH).tuple).bind fun ts s₁ hstep => ?_
  obtain ⟨hscopes, expected₁, hsub, hts, h₁⟩ := hstep
  refine .pure ⟨hscopes, (h₁.tuple hts fun hH => ?_).meets.more hsub⟩
  exact (hτ hH).self

theorem infer_cond_decides (htest : InfersFully Γ solve test)
    (hwhenTrue : InfersFully Γ solve whenTrue) (hwhenFalse : InfersFully Γ solve whenFalse) :
    InfersFully Γ solve (.cond n test whenTrue whenFalse) := by
  intro τ H expected env s h henv hτ
  unfold infer
  refine typed_decides rfl ?_
  refine (htest τ H expected env s h henv fun hH => (hτ hH).cond.1).bind fun c s₁ hstep => ?_
  obtain ⟨hscope₁, expected₁, hsub₁, hc, h₁⟩ := hstep
  have h₁ := h₁.expect_basic (t := .bool) (u := .bool) (by decide) fun _ => rfl
  refine (unify_decides h₁ (.head _) (.tail _ hc)
    (fun hH => (hτ hH).self.1.symm) _).bind fun _ s₂ h₂ => ?_
  refine (hwhenTrue τ H _ env s₂ h₂ (fun p hp => .tail _ (hsub₁ (henv p hp)))
    fun hH => (hτ hH).cond.2.1).bind fun t s₃ hstep => ?_
  obtain ⟨hscope₃, expected₃, hsub₃, ht, h₃⟩ := hstep
  have hsub₃ : expected ⊆ expected₃ := fun p hp => hsub₃ (.tail _ (hsub₁ hp))
  refine (hwhenFalse τ H _ env s₃ h₃ (fun p hp => hsub₃ (henv p hp))
    fun hH => (hτ hH).cond.2.2).bind fun u s₄ hstep => ?_
  obtain ⟨hscope₄, expected₄, hsub₄, hu, h₄⟩ := hstep
  refine (unify_decides h₄ (hsub₄ ht) hu (fun hH => (hτ hH).self.2.1) _).bind fun _ s₅ h₅ => ?_
  refine .pure ⟨?_, ?_⟩
  · rw [Expr.wellScoped, hscope₁, hscope₃, hscope₄]
    rfl
  · have hagain := h₅.again (hsub₄ ht) fun hH => (hτ hH).self.2.2
    exact hagain.meets.more fun p hp => hsub₄ (hsub₃ hp)

theorem extend_expected
    (hts : List.Forall₂ (fun t u => (t, u) ∈ expected) ts (params.map fun x => τ x.serial))
    (henv : ∀ p ∈ env, (p.2, τ p.1) ∈ expected) :
    (extend env params ts).map Prod.fst =
        (params.map fun x => x.serial).reverse ++ env.map Prod.fst ∧
      ∀ p ∈ extend env params ts, (p.2, τ p.1) ∈ expected := by
  induction params generalizing ts env with
  | nil => exact ⟨rfl, henv⟩
  | cons x xs ih =>
    cases hts with
    | @cons t _ ts _ ht hts =>
      have henv' : ∀ p ∈ (x.serial, t) :: env, (p.2, τ p.1) ∈ expected :=
        forall_mem_cons.2 ⟨ht, henv⟩
      obtain ⟨hkeys, hall⟩ := ih hts henv'
      rw [extend_cons]
      exact ⟨by simpa using hkeys, hall⟩

theorem infer_fn_decides {ret : Option Ty} {typeParams : List TypeParam}
    {relations : List TypeRelation}
    (hcore : (Expr.fn n params body ret typeParams relations).isCore = true)
    (hbody : InfersFully Γ solve body) :
    InfersFully Γ solve (.fn n params body ret typeParams relations) := by
  intro τ H expected env s h henv hτ
  obtain ⟨rfl, rfl⟩ := Expr.fn_of_core hcore
  have hparams : ∀ x ∈ params, ∀ a, x.ascription = some a → a.basic = true := fun x hx a ha =>
    Expr.basic_of_core hcore (by
      simp only [Expr.written, mem_append, mem_filterMap]
      exact .inl (.inl ⟨x, hx, ha⟩))
  have hret : ∀ r, ret = some r → r.basic = true := fun r hr =>
    Expr.basic_of_core hcore (by simp [hr])
  unfold infer
  extract_lets site
  refine typed_decides rfl ?_
  have h₀ : OnTrack τ H expected { s with scope := s.scope ++ [] } := { h with }
  refine (withScope_ends (P := fun t s' =>
    site.wellScoped (env.map Prod.fst) = true ∧ Meets τ H expected t (τ n) s')
    (E := fun fault _ => fault.Refuses ∧ ¬ H) ?_).imp ?_ ?_
  · refine (paramTypes_decides h₀ hparams fun hH => (hτ hH).self.1).bind fun ts s₁ hstep => ?_
    obtain ⟨expected₁, hsub₁, hts, h₁⟩ := hstep
    obtain ⟨hkeys, hall⟩ := extend_expected hts fun p hp => hsub₁ (henv p hp)
    refine (hbody τ H expected₁ _ s₁ h₁ hall fun hH => ?_).bind fun b s₂ hstep => ?_
    · rw [hkeys]
      exact (hτ hH).child (mem_singleton_self body) (hτ hH).wellScoped
    obtain ⟨hscope, expected₂, hsub₂, hb, h₂⟩ := hstep
    rw [hkeys] at hscope
    extract_lets finish
    have hfinish {r : Ty} {s₃ : State} {expected₃ : List (Ty × Ty)} (hsub₃ : expected₂ ⊆ expected₃)
        (hr : (r, τ body.serial) ∈ expected₃) (h₃ : OnTrack τ H expected₃ s₃) :
        Decides H (finish r) s₃ fun t s' =>
          site.wellScoped (env.map Prod.fst) = true ∧ Meets τ H expected t (τ n) s' := by
      refine (checkWritten_decides Γ (by simp) _).bind fun _ s₄ hs₄ => ?_
      rw [hs₄]
      have hts₃ := hts.imp fun _ _ ht => hsub₃ (hsub₂ ht)
      have hfunc := h₃.func hts₃ hr fun hH => (hτ hH).self.2.2
      exact .pure ⟨hscope, hfunc.meets.more fun p hp => hsub₃ (hsub₂ (hsub₁ hp))⟩
    split
    · exact hfinish (fun _ hp => hp) hb h₂
    · next r =>
      have hbr := hret r rfl
      refine (checkWritten_decides Γ (forall_mem_singleton.2 hbr) _).bind fun _ s₃ hs₃ => ?_
      rw [hs₃]
      have h₃ := h₂.expect_basic (u := τ body.serial) hbr fun hH => (hτ hH).self.2.1 r rfl
      refine (unify_decides h₃ (.head _) (.tail _ hb) (fun _ => rfl)
        _).bind fun _ s₄ h₄ => ?_
      exact hfinish (fun p hp => .tail _ hp) (.head _) h₄
  · rintro t _ ⟨s₁, ⟨hscope, expected₁, hsub₁, ht, h₁⟩, rfl⟩
    exact ⟨hscope, expected₁, hsub₁, ht, { h₁ with }⟩
  · rintro fault _ ⟨s₁, hfault, rfl⟩
    exact hfault

theorem reference_of_not_reference (he : e.isReference = false) (explicit : Option (List Ty))
    (site : Phrase) (attrs : Attrs) : reference Γ solve e explicit site attrs = pure none := by
  cases e <;> first | rfl | cases he

theorem infer_call_decides {typeArgs : Option (List Ty)}
    (hcore : (Expr.call n callee args typeArgs attrs).isCore = true)
    (hcallee : InfersFully Γ solve callee) (hargs : ∀ e ∈ args, InfersFully Γ solve e) :
    InfersFully Γ solve (.call n callee args typeArgs attrs) := by
  intro τ H expected env s h henv hτ
  have href : callee.isReference = false :=
    Expr.isReference_of_core (Expr.isCore_child hcore (.head _))
  unfold infer
  extract_lets site apply given byType
  have hgiven : given = [] := Expr.call_of_core hcore
  refine typed_decides rfl ?_
  rw [reference_of_not_reference href]
  have hnone : Decides H (byType ()) s fun t s' =>
      site.wellScoped (env.map Prod.fst) = true ∧ Meets τ H expected t (τ n) s' := by
    refine (hcallee τ H expected env s h henv fun hH => (hτ hH).call.1).bind fun f s₁ hstep => ?_
    obtain ⟨hscope₁, expected₁, hsub₁, hf, h₁⟩ := hstep
    refine (inferList_decides hargs h₁ (fun p hp => hsub₁ (henv p hp))
      fun hH => (hτ hH).call.2).bind fun ts s₂ hstep => ?_
    obtain ⟨hscope₂, expected₂, hsub₂, hts, h₂⟩ := hstep
    refine (applyTo_decides h₂ (hsub₂ hf) hts (fun hH => (hτ hH).self) _ _ _).bind
      fun r s₃ hstep => ?_
    obtain ⟨hempty, expected₃, hsub₃, hr, h₃⟩ := hstep
    obtain ⟨r, given'⟩ := r
    apply Ends.modify_bind
    refine .pure ⟨?_, expected₃, fun p hp => hsub₃ (hsub₂ (hsub₁ hp)), hr, ?_⟩
    · rw [Expr.wellScoped, hscope₁, hscope₂]
      rfl
    · refine { h₃ with calls := fun x hx => ?_ }
      rcases Table.mem_entries_insert hx with rfl | hx
      · exact hempty
      · exact h₃.calls x hx
  refine Ends.bind (P := fun r s' => r = none ∧ s' = s) (.pure ⟨rfl, rfl⟩) fun r s' hr => ?_
  obtain ⟨rfl, rfl⟩ := hr
  exact .ite (fun hgiven' => absurd hgiven' (by simp [hgiven])) fun _ => hnone

theorem infer_letIn_decides (hcore : (Expr.letIn n x value body).isCore = true)
    (hvalue : InfersFully Γ solve value) (hbody : InfersFully Γ solve body) :
    InfersFully Γ solve (.letIn n x value body) := by
  intro τ H expected env s h henv hτ
  have hwritten : ∀ a, x.ascription = some a → a.basic = true := fun a ha =>
    Expr.basic_of_core hcore (by simp [ha])
  unfold infer
  refine typed_decides rfl ?_
  extract_lets finish
  -- Once the value has its type, the rest is the same for all values.
  have hfinish {t : Ty} {s₁ : State} {expected₁ : List (Ty × Ty)} (hsub₁ : expected ⊆ expected₁)
      (hscope : value.wellScoped (if value.function?.isSome then x.serial :: env.map Prod.fst
        else env.map Prod.fst) = true)
      (ht : (t, τ x.serial) ∈ expected₁) (h₁ : OnTrack τ H expected₁ s₁) :
      Decides H (finish t) s₁ fun u s' =>
        (Expr.letIn n x value body).wellScoped (env.map Prod.fst) = true ∧
          Meets τ H expected u (τ n) s' := by
    have hrest {s₂ : State} {expected₂ : List (Ty × Ty)} (hsub₂ : expected₁ ⊆ expected₂)
        (h₂ : OnTrack τ H expected₂ s₂) :
        Decides H (do
          note (.var x) t
          infer Γ solve body ((x.serial, t) :: env)) s₂ fun u s' =>
            (Expr.letIn n x value body).wellScoped (env.map Prod.fst) = true ∧
              Meets τ H expected u (τ n) s' := by
      have ht₂ := hsub₂ ht
      have henv' : ∀ p ∈ (x.serial, t) :: env, (p.2, τ p.1) ∈ expected₂ :=
        forall_mem_cons.2 ⟨ht₂, fun p hp => hsub₂ (hsub₁ (henv p hp))⟩
      apply Ends.modify_bind
      refine (hbody τ H expected₂ _ _ (h₂.note ht₂ _) henv' fun hH =>
        (hτ hH).letIn.2).mono fun u s₃ hstep => ?_
      obtain ⟨hscope', expected₃, hsub₃, hu, h₃⟩ := hstep
      refine ⟨?_, ?_⟩
      · rw [Expr.wellScoped, hscope]
        exact hscope'
      · have hagain := h₃.again hu fun hH => (hτ hH).self.2.2
        exact hagain.meets.more fun p hp => hsub₃ (hsub₂ (hsub₁ hp))
    dsimp only [finish]
    split
    · next a ha =>
      have hba := hwritten a ha
      refine (checkWritten_decides Γ (forall_mem_singleton.2 hba) _).bind fun _ s₂ hs₂ => ?_
      rw [hs₂]
      have h₂ := h₁.expect_basic (u := τ x.serial) hba fun hH => (hτ hH).self.2.1 a ha
      refine (unify_decides h₂ (.head _) (.tail _ ht) (fun _ => rfl)
        _).bind fun _ s₃ h₃ => ?_
      exact hrest (fun p hp => .tail _ hp) h₃
    · exact hrest (fun _ hp => hp) h₁
  split
  · next fn hfn =>
    have hself (hH : H) := (hτ hH).letIn.1
    rw [hfn] at hfinish hself
    refine (fresh_decides h (τ x.serial)).bind fun t s₁ h₁ => ?_
    have henv' : ∀ p ∈ (x.serial, t) :: env, (p.2, τ p.1) ∈ (t, τ x.serial) :: expected :=
      forall_mem_cons.2 ⟨.head _, fun p hp => .tail _ (henv p hp)⟩
    refine (hvalue τ H _ _ s₁ h₁ henv' hself).bind fun u s₂ hstep => ?_
    obtain ⟨hscope, expected₂, hsub₂, hu, h₂⟩ := hstep
    have ht := hsub₂ (.head _)
    refine (unify_decides h₂ ht hu (fun hH => (hτ hH).self.1.symm) _).bind fun _ s₃ h₃ => ?_
    exact hfinish (fun p hp => hsub₂ (.tail _ hp)) hscope ht h₃
  · next hfn =>
    have hself (hH : H) := (hτ hH).letIn.1
    rw [hfn] at hfinish hself
    refine (hvalue τ H expected env s h henv hself).bind fun t s₁ hstep => ?_
    obtain ⟨hscope, expected₁, hsub₁, ht, h₁⟩ := hstep
    have hagain := h₁.again ht fun hH => (hτ hH).self.1.symm
    exact hfinish (fun p hp => .tail _ (hsub₁ hp)) hscope (.head _) hagain

theorem infer_decides (e : Expr) (hcore : e.isCore = true) : InfersFully Γ solve e := by
  induction e using Expr.induction_children with
  | step e ih =>
    have h : ∀ c ∈ e.children, InfersFully Γ solve c := fun c hc =>
      ih c hc (Expr.isCore_child hcore hc)
    have hsimple := Expr.isSimple_of_core hcore e.self_mem_parts
    cases e with
    | var x => exact infer_var_decides x
    | constant n c => exact infer_constant_decides hcore
    | fn n params body ret typeParams relations =>
      exact infer_fn_decides hcore (h body (by simp))
    | call n callee args typeArgs attrs =>
      exact infer_call_decides hcore (h callee (.head _)) fun e he =>
        h e (.tail _ he)
    | letIn n x value body =>
      exact infer_letIn_decides hcore (h value (by simp))
        (h body (by simp))
    | tuple n fields => exact infer_tuple_decides h
    | cond n test whenTrue whenFalse =>
      exact infer_cond_decides (h test (by simp))
        (h whenTrue (by simp)) (h whenFalse (by simp))
    | global | op | ctor | proj | matchOn => cases hsimple

end

end Inference

end TensorTyping
