import TensorTyping.Proofs.Engine.Queue
import TensorTyping.Proofs.Engine.Steps
import TensorTyping.Proofs.Relation.Refinement
import TensorTyping.Proofs.Store.Trail

/-!
# Trying one instance

A trial that succeeds ends in one of two ways. Either the rule of the instance holds of its resolved
slots, the conclusion is unified with the output slot, everyone who watched a cell that was bound
by this hears of it, and the instance is discharged. Or the rule cannot tell yet, and the instance
comes to watch every free cell in its resolved slots, while all else stays as it is.

A verdict other than that the rule cannot tell yet is final. Whatever becomes known of the slots, a
rule that has decided stays with its decision, and a trial without a conclusion binds nothing.

A step of the engine drops a number that has no instance any more or tries an instance.
-/
namespace TensorTyping

namespace Engine

variable {e e' e'' : Engine} {s : Store}

/-- Nothing has happened but that paths in the store were shortened. -/
def Peeks (e e' : Engine) : Prop := ∃ s, e.store.Kept s ∧ e' = { e with store := s }

theorem Peeks.refl (h : e.store.Valid) : e.Peeks e := ⟨e.store, .refl h, rfl⟩

theorem Peeks.trans (h : e.Peeks e') (h' : e'.Peeks e'') : e.Peeks e'' := by
  obtain ⟨s, hs, rfl⟩ := h
  obtain ⟨s', hs', rfl⟩ := h'
  exact ⟨s', hs.trans hs', rfl⟩

theorem Peeks.kept (h : e.Peeks e') : e.store.Kept e'.store := by
  obtain ⟨s, hs, rfl⟩ := h
  exact hs

theorem moved_eq {heard : List Nat} (h : e.store.Tells heard s) :
    e.moved s = heard.foldl hear { e with store := s } := by
  rw [moved, h.heardSince_eq]

theorem moved_of_kept (h : e.store.Kept s) : e.moved s = { e with store := s } :=
  moved_eq h.tells

theorem peeks_moved (h : e.store.Kept s) : e.Peeks (e.moved s) :=
  ⟨s, h, moved_of_kept h⟩

/-- Besides shortening paths, only watchers have been added. -/
structure Eyes (e e' : Engine) : Prop where
  kept : e.store.Kept e'.store
  watchers : ∀ w ∈ e.watchers, w ∈ e'.watchers
  rest_eq : e' = { e with store := e'.store, watchers := e'.watchers }

theorem Peeks.eyes (h : e.Peeks e') : e.Eyes e' := by
  obtain ⟨s, hs, rfl⟩ := h
  exact ⟨hs, fun _ hw => hw, rfl⟩

theorem Eyes.trans (h : e.Eyes e') (h' : e'.Eyes e'') : e.Eyes e'' where
  kept := h.kept.trans h'.kept
  watchers w hw := h'.watchers w (h.watchers w hw)
  rest_eq := by rw [h'.rest_eq, h.rest_eq]

theorem watch_eyes (h : e.store.Valid) (n root : Nat) :
    e.Eyes (e.watch n root) ∧ (root, n) ∈ (e.watch n root).watchers := by
  unfold watch
  split
  · next hin => exact ⟨(Peeks.refl h).eyes, by simpa using hin⟩
  · exact ⟨⟨.refl h, fun _ hw => List.mem_append_left _ hw, rfl⟩, by simp⟩

theorem foldl_watch_eyes (h : e.store.Valid) (n : Nat) (cs : List Cell) :
    e.Eyes (cs.foldl (fun e c => e.watch n c.index) e) ∧
      ∀ c ∈ cs, (c.index, n) ∈ (cs.foldl (fun e c => e.watch n c.index) e).watchers := by
  induction cs generalizing e with
  | nil => exact ⟨(Peeks.refl h).eyes, by simp⟩
  | cons c cs ih =>
    obtain ⟨hfirst, hin⟩ := watch_eyes h n c.index
    obtain ⟨hrest, hall⟩ := ih hfirst.kept.valid
    refine ⟨hfirst.trans hrest, List.forall_mem_cons.2 ⟨hrest.watchers _ hin, hall⟩⟩

end Engine

namespace EngineM

variable {entry : RelationEntry}

open Engine

variable {registry : Registry} {e e' : Engine} {i : Instance}
variable {ts : List Ty} {v : Verdict}

theorem resolveAll_ok (h : e.store.Valid) (hts : ∀ t ∈ ts, e.store.ownsAll t = true) :
    ∃ e', resolveAll ts e = .ok (ts.map e.store.resolve) e' ∧ e.Peeks e' := by
  induction ts generalizing e with
  | nil => exact ⟨e, rfl, .refl h⟩
  | cons t ts ih =>
    rw [List.forall_mem_cons] at hts
    obtain ⟨s, hs, hkept⟩ := StoreM.resolve_ok h hts.1
    have hpeek := peeks_moved hkept
    have hview := hpeek.kept.view
    obtain ⟨e₂, hrun, hrest⟩ := ih hpeek.kept.valid fun u hu => by
      rw [hview.ownsAll_eq]
      exact hts.2 u hu
    have hmap : ts.map (e.moved s).store.resolve = ts.map e.store.resolve :=
      List.map_congr_left fun u _ => hview.resolve_eq u
    rw [hmap] at hrun
    refine ⟨e₂, ?_, hpeek.trans hrest⟩
    rw [resolveAll, bind_of_ok (onStore_of_ok hs), bind_of_ok hrun]
    rfl

theorem watchAll_ok (h : e.store.Valid) (n : Nat) (hts : ∀ t ∈ ts, e.store.ownsAll t = true) :
    ∃ e', watchAll n ts e = .ok () e' ∧ e.Eyes e' ∧
      ∀ t ∈ ts, ∀ c ∈ (e.store.resolve t).cellOccurrences, (c.index, n) ∈ e'.watchers := by
  induction ts generalizing e with
  | nil => exact ⟨e, rfl, (Peeks.refl h).eyes, by simp⟩
  | cons t ts ih =>
    rw [List.forall_mem_cons] at hts
    obtain ⟨s, hs, hkept⟩ := StoreM.freeCells_ok h hts.1
    have hpeek := peeks_moved hkept
    obtain ⟨hwatch, hin⟩ := foldl_watch_eyes hpeek.kept.valid n (e.store.resolve t).cells
    have heyes := hpeek.eyes.trans hwatch
    have hview := heyes.kept.view
    obtain ⟨e₂, hrun, hrest, hall⟩ := ih heyes.kept.valid fun u hu => by
      rw [hview.ownsAll_eq]
      exact hts.2 u hu
    refine ⟨e₂, ?_, heyes.trans hrest, List.forall_mem_cons.2 ⟨fun c hc => ?_, fun u hu c hc => ?_⟩⟩
    · rw [watchAll, bind_of_ok (onStore_of_ok hs), modify_bind]
      exact hrun
    · exact hrest.watchers _ (hin c (Ty.mem_cells.2 hc))
    · apply hall u hu c
      rwa [hview.resolve_eq]

/-- What is done about an instance once the verdict on it is known. -/
def follow (i : Instance) : Verdict → EngineM Unit
  | .holds slot t => do
    blaming i.origin (assign i slot t)
    modify fun e => e.discharge i.seq
  | .fails => do
    let final ← resolveAll i.relation.args
    throw (.issue
      { kind := .relationViolation
        evidence := [.ofText i.relation.name, .list (final.map .type)]
        site := i.origin })
  | .indeterminate => watchAll i.seq i.relation.args

theorem attempt_eq (registry : Registry) (i : Instance) : attempt registry i = (do
    let entry ← ofExcept (registry.lookup i.relation.name i.origin)
    let types ← resolveAll i.relation.args
    let verdict ← blaming i.origin (ofExcept (entry.rule.verdict types i.attrs))
    follow i verdict) := by
  unfold attempt
  refine congrArg _ (funext fun entry => congrArg _ (funext fun types =>
    congrArg _ (funext fun verdict => ?_)))
  cases verdict <;> rfl

theorem attempt_of_verdict (h : e.store.Valid)
    (hentry : registry.lookup i.relation.name i.origin = .ok entry)
    (howned : ∀ a ∈ i.relation.args, e.store.ownsAll a = true)
    (hv : entry.rule.verdict (i.relation.args.map e.store.resolve) i.attrs = .ok v) :
    ∃ e₁, e.Peeks e₁ ∧ attempt registry i e = follow i v e₁ := by
  obtain ⟨e₁, hrun, hpeek⟩ := resolveAll_ok h howned
  refine ⟨e₁, hpeek, ?_⟩
  rw [attempt_eq, bind_of_ok (ofExcept_eq_ok.2 ⟨hentry, rfl⟩), bind_of_ok hrun,
    bind_of_ok (blaming_eq_ok.2 (ofExcept_eq_ok.2 ⟨hv, rfl⟩))]

/-- Everything that can come of trying the instance `i` without a fault. -/
inductive Tries (registry : Registry) (i : Instance) (e : Engine) : Engine → Prop
  | settles {entry : RelationEntry} {slot : Nat} {t arg : Ty} {e₁ : Engine} {s : Store} :
      registry.lookup i.relation.name i.origin = .ok entry →
      (∀ a ∈ i.relation.args, e.store.ownsAll a = true) →
      entry.rule.verdict (i.relation.args.map e.store.resolve) i.attrs = .ok (.holds slot t) →
      i.relation.args[slot]? = some arg → e.Peeks e₁ →
      StoreM.unify arg t i.origin e₁.store = .ok () s →
      Tries registry i e ((e₁.moved s).discharge i.seq)
  | sleeps {entry : RelationEntry} {e' : Engine} :
      registry.lookup i.relation.name i.origin = .ok entry →
      (∀ a ∈ i.relation.args, e.store.ownsAll a = true) →
      entry.rule.verdict (i.relation.args.map e.store.resolve) i.attrs = .ok .indeterminate →
      e.Eyes e' →
      (∀ a ∈ i.relation.args, ∀ c ∈ (e.store.resolve a).cellOccurrences,
        (c.index, i.seq) ∈ e'.watchers) →
      Tries registry i e e'

theorem follow_holds {slot : Nat} {t : Ty} (hrun : follow i (.holds slot t) e = .ok () e') :
    ∃ arg s, i.relation.args[slot]? = some arg ∧
      StoreM.unify arg t i.origin e.store = .ok () s ∧ e' = (e.moved s).discharge i.seq := by
  obtain ⟨_, e₁, hassign, hrun⟩ := bind_eq_ok hrun
  rw [blaming_eq_ok] at hassign
  cases hrun
  cases harg : i.relation.args[slot]? with
  | none =>
    rw [assign_of_none harg] at hassign
    cases hassign
  | some arg =>
    rw [assign_of_some harg] at hassign
    have hunify := onStore_eq_ok hassign
    rw [onStore_of_ok hunify] at hassign
    refine ⟨arg, e₁.store, rfl, hunify, ?_⟩
    rw [EStateM.Result.ok.injEq] at hassign
    rw [hassign.2]

theorem attempt_tries (h : e.store.Valid) (hrun : attempt registry i e = .ok () e') :
    Tries registry i e e' := by
  have hwhole := hrun
  rw [attempt_eq] at hrun
  obtain ⟨entry, e₀, hlookup, hrun⟩ := bind_eq_ok hrun
  obtain ⟨types, e₁, htypes, hrun⟩ := bind_eq_ok hrun
  obtain ⟨verdict, e₂, hverdict, -⟩ := bind_eq_ok hrun
  obtain ⟨hentry, rfl⟩ := ofExcept_eq_ok.1 hlookup
  obtain ⟨rfl, howned, -⟩ := resolveAll_eq_ok h htypes
  obtain ⟨hv, -⟩ := ofExcept_eq_ok.1 (blaming_eq_ok.1 hverdict)
  obtain ⟨e₃, hpeek, hattempt⟩ := attempt_of_verdict h hentry howned hv
  rw [hattempt] at hwhole
  cases verdict with
  | holds slot t =>
    obtain ⟨arg, s, harg, hunify, rfl⟩ := follow_holds hwhole
    exact .settles hentry howned hv harg hpeek hunify
  | fails =>
    obtain ⟨_, _, -, hthrow⟩ := bind_eq_ok hwhole
    cases hthrow
  | indeterminate =>
    have hview := hpeek.kept.view
    obtain ⟨e₄, hwatch, heyes, hall⟩ := watchAll_ok hpeek.kept.valid i.seq fun a ha => by
      rw [hview.ownsAll_eq]
      exact howned a ha
    obtain rfl : e₄ = e' := by
      have hsame := hwatch.symm.trans hwhole
      rw [EStateM.Result.ok.injEq] at hsame
      exact hsame.2
    refine .sleeps hentry howned hv (hpeek.eyes.trans heyes) fun a ha c hc => ?_
    apply hall a ha c
    rwa [hview.resolve_eq]

section

variable (h : e.store.Valid) (hentry : registry.lookup i.relation.name i.origin = .ok entry)
  (howned : ∀ a ∈ i.relation.args, e.store.ownsAll a = true)

include h hentry howned

theorem attempt_of_fails
    (hv : entry.rule.verdict (i.relation.args.map e.store.resolve) i.attrs = .ok .fails) :
    ∃ issue e', attempt registry i e = .error (.issue issue) e' ∧
      issue.kind = .relationViolation ∧ issue.site = i.origin ∧ e.store.Kept e'.store := by
  obtain ⟨e₁, hpeek, hattempt⟩ := attempt_of_verdict h hentry howned hv
  obtain ⟨e₂, hrun, hpeek₂⟩ := resolveAll_ok hpeek.kept.valid fun a ha => by
    rw [hpeek.kept.view.ownsAll_eq]
    exact howned a ha
  exact ⟨_, e₂, hattempt.trans (bind_of_ok hrun), rfl, rfl, hpeek.kept.trans hpeek₂.kept⟩

theorem kept_of_not_holds
    (hv : entry.rule.verdict (i.relation.args.map e.store.resolve) i.attrs = .ok v)
    (hnot : ∀ slot t, v ≠ .holds slot t) :
    e.store.Kept (endState (attempt registry i) e).store := by
  cases v with
  | holds slot t => exact absurd rfl (hnot slot t)
  | fails =>
    obtain ⟨_, _, hrun, -, -, hkept⟩ := attempt_of_fails h hentry howned hv
    rw [endState_of_error hrun]
    exact hkept
  | indeterminate =>
    obtain ⟨e₁, hpeek, hattempt⟩ := attempt_of_verdict h hentry howned hv
    obtain ⟨e₂, hrun, heyes, -⟩ := watchAll_ok hpeek.kept.valid i.seq fun a ha => by
      rw [hpeek.kept.view.ownsAll_eq]
      exact howned a ha
    rw [endState_of_ok (hattempt.trans hrun)]
    exact hpeek.kept.trans heyes.kept

end

/-- A relation of the standard registry that has decided on as many slots as it takes stays with its
decision when types are put in for parameters and cells. A conclusion is for the last slot, and it
is the one that was drawn before with the same types put in. A refusal stays one, and so does a
fault, of which only the evidence may differ. A trial without a conclusion binds nothing. -/
theorem verdict_stable {name : String} {site : Option Phrase} {entry : RelationEntry}
    {types : List Ty} (hentry : Registry.standard.lookup name site = .ok entry)
    (harity : entry.arity = some (types.length : Int)) (attrs : Attrs)
    (onParam : TypeParam → Ty) (onCell : Cell → Ty) :
    let known := types.map (Ty.replace onParam onCell)
    (∀ slot t, entry.rule.verdict types attrs = .ok (.holds slot t) →
      slot + 1 = types.length ∧
        entry.rule.verdict known attrs = .ok (.holds slot (t.replace onParam onCell))) ∧
    (entry.rule.verdict types attrs = .ok .fails →
      entry.rule.verdict known attrs = .ok .fails) ∧
    (∀ f, entry.rule.verdict types attrs = .error f →
      ∃ g, entry.rule.verdict known attrs = .error g ∧ f.SameClass g) ∧
    ∀ (e : Engine) (i : Instance), e.store.Valid →
      i.relation.name = name → i.origin = site → i.attrs = attrs →
      (∀ a ∈ i.relation.args, e.store.ownsAll a = true) →
      i.relation.args.map e.store.resolve = types →
      entry.rule.verdict types attrs = .ok .fails ∨
        entry.rule.verdict types attrs = .ok .indeterminate →
      e.store.Kept (endState (attempt .standard i) e).store := by
  intro known
  refine ⟨fun slot t h => ⟨?_, Rule.verdict_replace onParam onCell h⟩,
    Rule.verdict_replace_of_fails onParam onCell,
    fun f => Rule.verdict_replace_of_error onParam onCell, ?_⟩
  · have hlast := (Registry.standard_entry (Registry.lookup_eq_ok.1 hentry)).1
    rw [harity, (Rule.verdict_eq_holds.1 h).2, Option.some.injEq] at hlast
    omega
  · rintro e i h rfl rfl rfl howned rfl (hv | hv)
    · exact kept_of_not_holds h hentry howned hv (by simp)
    · exact kept_of_not_holds h hentry howned hv (by simp)

/-- A field that is out of range of a tuple with a parameter and a cell in it stays so when these
are known, and one that is in range is concluded with what is known. -/
theorem verdict_stable_projection :
    let slots : List Ty := [.tuple [.param ⟨⟨4, "a"⟩, .type⟩, .tuple [.cell ⟨1, 0⟩]], .cell ⟨1, 1⟩]
    let known := slots.map (Ty.replace (fun _ => .tuple []) fun _ => .tensor [] "bool")
    Rule.projection.verdict known (.ofList [("index", .int 1)]) =
        .ok (.holds 1 (.tuple [.tensor [] "bool"])) ∧
      ∃ i, Rule.projection.verdict known (.ofList [("index", .int 2)]) = .error (.issue i) ∧
        i.kind = .indexOutOfRange := by
  intro slots known
  have hentry : Registry.standard.lookup "TupleGetItem" none = .ok ⟨.projection, some 2⟩ := rfl
  have hlength : some (2 : Int) = some (slots.length : Int) := rfl
  have hstable := fun attrs =>
    verdict_stable hentry hlength attrs (fun _ => .tuple []) fun _ => .tensor [] "bool"
  refine ⟨((hstable _).1 1 (.tuple [.cell ⟨1, 0⟩]) rfl).2, ?_⟩
  obtain ⟨g, hg, hkind⟩ := (hstable (.ofList [("index", .int 2)])).2.2.1 _ rfl
  cases g with
  | issue i => exact ⟨i, hg, hkind.symm⟩
  | _ => cases hkind

/-- A step takes a number from the queue. Either nobody of that number is dirty, or the instance is
tried. -/
theorem step_eq_true (h : e.store.Valid) (hrun : step registry e = .ok true e') :
    ∃ n rest, e.queue = n :: rest ∧
      ((∀ i, e.instance? n = some i → i.dirty = false) ∧ e' = { e with queue := rest } ∨
        ∃ i, e.instance? n = some i ∧ i.dirty = true ∧
          Tries registry i.asleep (taken e n rest) e') := by
  obtain ⟨-, hstep⟩ | ⟨n, rest, hq, hidle, hstep⟩ | ⟨n, rest, i, hq, hi, hd, hstep⟩ :=
    step_cases registry e
  all_goals rw [hstep] at hrun
  · cases hrun
  · exact ⟨n, rest, hq, .inl ⟨hidle, by simpa using hrun.symm⟩⟩
  · obtain ⟨_, e₁, hattempt, hrun⟩ := bind_eq_ok hrun
    obtain rfl : e₁ = e' := by simpa [pure, EStateM.pure] using hrun
    exact ⟨n, rest, hq, .inr ⟨i, hi, hd, attempt_tries h hattempt⟩⟩

end EngineM

end TensorTyping
