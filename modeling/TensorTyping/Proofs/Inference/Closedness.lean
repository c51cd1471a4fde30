import TensorTyping.Proofs.Inference.Definite
import TensorTyping.Proofs.Inference.Quantifiers

/-!
# Recorded signatures are final

When a group has been typed, no use of a relation waits, and the signatures that are recorded hold
no cells. So whatever is learnt later does not change them, and nothing is left to blame at the end
of the run.

The signature of a function is closed as well if the function declares it. Otherwise it is closed if
the function is started at a cell that nothing but its own body is unified with, or if no type in
the module binds parameters. Without this a cell may come to stand for a function type that binds
parameters of its own, and these are left out of the signature.
-/
namespace TensorTyping

open List

variable {s s' : Store}
variable {t : Ty} {c : Cell}

namespace Ty

theorem isCell_mapCells (ht : t.isCell = false) (f : Cell → Ty) :
    (t.mapCells f).isCell = false := by
  cases t with
  | cell c => cases ht
  | _ => rfl

theorem binders_mapCells (ht : t.isCell = false) (f : Cell → Ty) :
    (t.mapCells f).binders = t.binders := by
  cases t with
  | cell c => cases ht
  | _ => rfl

end Ty

theorem Store.Within.value_of_free {q : Ty → Prop} (h : s.Within q s') (hq : ¬ q (.cell c))
    (hfree : s.value c = .cell c) : s'.value c = .cell c := by
  have hresolve : s.resolve (.cell c) = .cell c := hfree
  rw [← hresolve]
  apply h.apart
  intro d hd
  have heq : d = c := by simpa [hresolve] using hd
  rwa [heq]

/-- It is known of the type which parameters it binds at its top. -/
def Store.Quantified (s : Store) (t : Ty) (ps : List TypeParam) : Prop :=
  (s.resolve t).isCell = false ∧ (s.resolve t).binders = ps

theorem Store.Quantified.extends {ps : List TypeParam} (h : s.Quantified t ps) (hs : s.Extends s') :
    s'.Quantified t ps := by
  unfold Quantified
  rw [← hs.resolve_resolve, s'.resolve_eq, Ty.binders_mapCells h.1, Ty.isCell_mapCells h.1]
  exact ⟨rfl, h.2⟩

/-- A free cell that is unified with something else comes to bind the same parameters. -/
theorem StoreM.unify_cell_quantified {s s' : Store} {site : Option Phrase} (h : s.Valid)
    (hc : s.value c = .cell c) (ht : t.isCell = false)
    (hrun : unify (.cell c) t site s = .ok () s') : s'.Quantified (.cell c) t.binders := by
  have htop : s'.top (.cell c) = t := unify_free_cell h hc ht hrun
  have hvalid : s'.Valid := (endState_of_ok hrun ▸ unify_evolves h (.cell c) t site).valid
  unfold Store.Quantified
  rw [← hvalid.resolve_top, htop, s'.resolve_eq, Ty.binders_mapCells ht, Ty.isCell_mapCells ht]
  exact ⟨rfl, rfl⟩

namespace EngineM

variable {registry : Registry} {e : Engine}

theorem finish_of_idle (h : Engine.Watchful registry none e) (hidle : e.waiting = []) :
    ∃ e', finish registry e = .ok () e' := by
  have hstill {e₁ : Engine} (hsteps : Engine.Steps registry e e₁) : e₁.pending = [] := by
    have hsub := (hsteps.advances h.orderly.valid).waiting_sublist
    rw [hidle, sublist_nil] at hsub
    exact map_eq_nil_iff.1 hsub
  unfold finish
  rcases propagate_outcome h.toTidy with ⟨e₁, hrun, hsteps, -⟩ | ⟨f, e₁, e₂, -, hsteps, hstep⟩
  · rw [bind_of_ok hrun, get_bind, hstill hsteps]
    exact ⟨e₁, rfl⟩
  · obtain ⟨n, rest, i, hi, -⟩ := step_eq_error hstep
    rw [Engine.instance?, hstill hsteps] at hi
    cases hi

end EngineM

namespace Discipline

open Inference

variable {q : Ty → Prop} {m : Module}

/-- Every module without written cells suits a condition that holds of all types but cells. -/
theorem keeping_suits_of_written (hq : ∀ t, t.isCell = false → q t)
    (hmap : ∀ h t, q (t.mapChildren h) ↔ q t) (hm : Written m) (supply : Supply)
    (verbose : Bool) : (keeping q).Suits (.standard m supply verbose) := by
  apply keeping_suits fun t ht _ => hq t ht
  · exact hmap
  · intro f hf d hd t ht
    have hcells := hm.functions f hf d hd t ht
    exact ⟨Ty.everywhere_of_no_cells hq hcells, hcells⟩
  · exact fun _ _ _ _ _ _ => hq _ rfl
  · exact fun _ _ _ _ _ => hq _ rfl

def anything : Discipline := keeping fun _ => True

theorem anything_suits (hm : Written m) (supply : Supply) (verbose : Bool) :
    anything.Suits (.standard m supply verbose) :=
  keeping_suits_of_written (fun _ _ => trivial) (fun _ _ => Iff.rfl) hm supply verbose

def avoiding (c : Cell) : Discipline := keeping (· ≠ .cell c)

theorem avoiding_suits (c : Cell) (hm : Written m) (supply : Supply) (verbose : Bool) :
    (avoiding c).Suits (.standard m supply verbose) := by
  apply keeping_suits_of_written ?_ ?_ hm
  · exact fun t ht => Ty.isCell_eq_false_iff.1 ht c
  · intro h t
    cases t <;> simp [Ty.mapChildren]

end Discipline

namespace Inference

variable {Γ : Context} {s s' : State}
variable {sig : Signature} {mentioned : Global → Prop}

/-- The provisional types are free cells, a different one for each function. -/
def FreshProvisional (s : State) : Prop :=
  ∀ g t, s.provisional.get? g = some t → ∃ c, t = .cell c ∧ s.engine.store.owns c = true ∧
    s.engine.store.value c = .cell c ∧ ∀ k, s.provisional.get? k = some (.cell c) → k = g

theorem FreshProvisional.insert (hs : s.engine.store.Valid) (h : FreshProvisional s) (g : Global)
    {s₁ : State} (hstore : s₁.engine.store = s.engine.store.fresh.2)
    (hprovisional : s₁.provisional = s.provisional.insert g (.cell s.engine.store.fresh.1)) :
    FreshProvisional s₁ := by
  have hnew : s.engine.store.owns s.engine.store.fresh.1 = false := by
    simp [Store.fresh, Store.owns, Store.size, Store.cellAt]
  -- A cell that was given away before is not the new one.
  have hold {k : Global} {c : Cell} (hk : s.provisional.get? k = some (.cell c)) :
      c ≠ s.engine.store.fresh.1 := by
    intro heq
    obtain ⟨c', hc', howns, -⟩ := h k _ hk
    cases hc'
    rw [heq, hnew] at howns
    cases howns
  intro k t hk
  rw [hprovisional, Table.get?_insert] at hk
  split at hk
  · next heq =>
    cases hk
    refine ⟨_, rfl, ?_, ?_, ?_⟩
    · rw [hstore]
      simp [Store.fresh, Store.owns, Store.size, Store.cellAt]
    · rw [hstore, hs.value_fresh, hs.value_foreign hnew]
    · intro k' hk'
      rw [hprovisional, Table.get?_insert] at hk'
      split at hk'
      · next heq' => exact heq'.trans heq.symm
      · exact absurd rfl (hold hk')
  · obtain ⟨c, rfl, howns, hvalue, hunique⟩ := h k t hk
    refine ⟨c, rfl, ?_, ?_, ?_⟩
    · rw [hstore]
      exact Store.owns_fresh_of_owns howns
    · rw [hstore, hs.value_fresh, hvalue]
    · intro k' hk'
      rw [hprovisional, Table.get?_insert] at hk'
      split at hk'
      · cases hk'
        exact absurd rfl (hold hk)
      · exact hunique k' hk'

theorem startProvisional_fresh {gs : List Global} (hs : s.engine.store.Valid)
    (h : FreshProvisional s) (hrun : startProvisional gs s = .ok () s') : FreshProvisional s' := by
  induction gs generalizing s with
  | nil =>
    cases hrun
    exact h
  | cons g gs ih =>
    unfold startProvisional at hrun
    obtain ⟨t, s₁, hfresh, hrun⟩ := bind_eq_ok hrun
    rw [modify_bind] at hrun
    obtain ⟨hengine, hstate⟩ := onEngine_eq_ok hfresh
    have hstore : EStateM.Result.ok (.cell s.engine.store.fresh.1) s.engine.store.fresh.2 =
        .ok t s₁.engine.store := EngineM.onStore_eq_ok hengine
    rw [EStateM.Result.ok.injEq] at hstore
    have hvalid : s₁.engine.store.Valid := by
      rw [← hstore.2]
      exact hs.fresh
    have hinsert : FreshProvisional { s₁ with provisional := s₁.provisional.insert g t } := by
      apply h.insert hs g
      · exact hstore.2.symm
      · rw [← hstore.1, hstate]
    exact ih (by exact hvalid) hinsert hrun

theorem openGroup_fresh {before : List (List Global)} {group : List Global}
    (hready : Ready before s) (hrun : openGroup Γ group s = .ok () s') : FreshProvisional s' := by
  unfold openGroup at hrun
  obtain ⟨_, s₁, htell, hrun⟩ := bind_eq_ok hrun
  rw [modify_bind, tell_eq_ok htell] at hrun
  apply startProvisional_fresh (by exact hready.valid.store) ?_ hrun
  intro g t hget
  exact absurd (hget.symm.trans (hready.provisional_eq g)) (Option.some_ne_none t)

section

variable {D : Discipline} {g : Global} {f : Function} (hfits : D.Fits Γ mentioned)
  (h : D.Proper Γ mentioned s) (hf : Γ.module.functions.get? g = some f)
  (hadmits : D.Admits f.toExpr) (hm : ∀ r ∈ f.toExpr.mentions, mentioned r)
  (hpart : ¬ D.part (.cell c)) (hg : s.provisional.get? g = some (.cell c))
  (hfree : s.engine.store.value c = .cell c)

include hfits h hf hadmits hm hpart hg hfree

theorem typeBody_quantified {solve : Global → InferM Unit} {span : Span}
    (hrun : typeBody Γ solve g s = .ok span s') :
    s'.engine.store.Quantified (.cell c) f.typeParams := by
  unfold typeBody at hrun
  simp only [hf] at hrun
  rw [get_bind] at hrun
  obtain ⟨t, s₁, hinfer, hrun⟩ := bind_eq_ok hrun
  rw [get_bind, get_bind] at hrun
  have henv : D.FairEnv s.engine.store [] := forall_mem_nil _
  have hgrows : Grows s s₁ := by
    rw [← endState_of_ok hinfer]
    exact infer_grows h.governs.valid (fun r hr => h.known r (hm r hr)) []
  obtain ⟨hs₁, hproceeds, -⟩ := (Discipline.infer_conforms hfits f.toExpr hadmits hm [] s h
    henv).of_ok hinfer
  have hstill := hproceeds.within.value_of_free hpart hfree
  rw [hgrows.provisional_eq, hg] at hrun
  obtain ⟨_, s₂, hunify, hrun⟩ := bind_eq_ok hrun
  cases hrun
  have hstore := EngineM.onStore_eq_ok (onEngine_eq_ok hunify).1
  obtain ⟨ts, b, s₃, s₄, s₅, s₆, -, -, -, -, -, rfl, -⟩ := infer_fn_ok_iff.1 hinfer
  exact StoreM.unify_cell_quantified hs₁.store_valid hstill rfl hstore

/-- Bodies that do not mention a function leave the cell that it was started at alone. If its own
body comes next, the type of the function binds the parameters of the function. -/
theorem typeBodies_quantified {solve : Global → InferM Unit} {earlier later : List Global}
    {spans : List Span} (hearlier : ∀ k ∈ earlier, ∃ f, D.Typable Γ mentioned s k f)
    (hknown : ∀ k ∈ earlier ++ g :: later, ∀ f, Γ.module.functions.get? k = some f →
      ∀ r ∈ f.toExpr.mentions, Known Γ s r)
    (hrun : typeBodies Γ solve (earlier ++ g :: later) s = .ok spans s') :
    s'.engine.store.Quantified (.cell c) f.typeParams := by
  obtain ⟨first, s₁, last, hfirst, hlast, -⟩ := typeBodies_append hrun
  obtain ⟨span, s₂, rest, hbody, hrest, -⟩ := typeBodies_cons hlast
  obtain ⟨hs₁, hproceeds, -⟩ := (Discipline.typeBodies_safe hfits hearlier h).of_ok hfirst
  obtain ⟨hgrows₁, -⟩ := typeBodies_grows h.governs.valid
    (fun k hk => hknown k (mem_append_left _ hk)) hfirst
  have hstill := hproceeds.within.value_of_free hpart hfree
  have hg₁ : s₁.provisional.get? g = some (.cell c) := by rw [hgrows₁.provisional_eq, hg]
  have hquantified := typeBody_quantified hfits hs₁ hf hadmits hm hpart hg₁ hstill hbody
  obtain ⟨hgrows₂, -⟩ := typeBody_grows hs₁.governs.valid
    (fun f hf r hr => hgrows₁.known (hknown g (by simp) f hf r hr)) hbody
  have hgrows := hgrows₁.trans hgrows₂
  obtain ⟨hgrows₃, -⟩ := typeBodies_grows (hgrows.valid h.governs.valid)
    (fun k hk f hf r hr => hgrows.known (hknown k (by simp [hk]) f hf r hr)) hrest
  obtain ⟨new, hnew⟩ := hgrows₃.gains
  exact hquantified.extends hnew.evolves.later

end

/-- The types written in a module hold no cells, and the function types among them carry no
relations. -/
@[mk_iff]
structure Bare (m : Module) : Prop extends Written m where
  relations : ∀ f ∈ m.functions.values, ∀ d ∈ f.toExpr.parts, ∀ t ∈ d.written,
    ∀ u ∈ t.constituents, u.relations = []

instance (m : Module) : Decidable (Bare m) :=
  decidable_of_iff _ (bare_iff m).symm

theorem Bare.mem_typeParams {m : Module} (hm : Bare m) {f : Function} (hf : f ∈ m.functions.values)
    (hwell : WellFormed m f.typeParams f.toExpr.written) (ht : t ∈ f.toExpr.written) {p : TypeParam}
    (hp : p ∈ t.paramOccurrences []) : p ∈ f.typeParams := by
  refine mem_scope_of_free (misformedList?_eq_none_iff.1 hwell t ht) ?_ hp
  exact hm.relations f hf _ (Expr.self_mem_parts _) t ht

theorem Bare.closed_of_declared {m : Module} (hm : Bare m) {f : Function}
    (hf : f ∈ m.functions.values) (hwell : WellFormed m f.typeParams f.toExpr.written)
    (hsig : f.declared? = some sig) : sig.Closed := by
  obtain ⟨hargs, hret, hrelations⟩ := Function.declared?_eq_some hsig
  have hparams : sig.params = f.typeParams := by
    unfold Function.declared? at hsig
    split at hsig
    · cases hsig
      rfl
    · cases hsig
  rw [Signature.closed_iff, hparams]
  intro u hu p hp
  apply hm.mem_typeParams hf hwell ?_ hp
  simp only [Signature.toTy, Ty.children, mem_append, mem_cons, hargs, hrelations] at hu
  rcases hu with hu | rfl | hu
  · exact mem_append_left _ (mem_append_left _ hu)
  · exact mem_append_left _ (mem_append_right _ (by simp [hret]))
  · exact mem_append_right _ hu

/-- Only functions that declare a signature have type parameters, and no written type binds any. -/
structure Monomorphic (m : Module) : Prop where
  inner : ∀ f ∈ m.functions.values, ∀ d ∈ f.body.parts, d.typeParams = []
  outer : ∀ f ∈ m.functions.values, f.isDeclared = false → f.typeParams = []
  types : ∀ f ∈ m.functions.values, ∀ d ∈ f.toExpr.parts, ∀ t ∈ d.written,
    ∀ u ∈ t.constituents, u.binders = []

/-- Neither the body of the function nor that of one that is typed before it in its group mentions
the function. -/
def TypedFirst (m : Module) (g : Global) : Prop :=
  ∃ earlier later, earlier ++ g :: later ∈ m.groups ∧ ∀ k ∈ g :: earlier, ∀ f,
    m.functions.get? k = some f → g ∉ f.body.mentions

section

variable {m : Module} {supply : Supply} {verbose : Bool} {solve : Global → InferM Unit}
  {before after : List (List Global)} {group : List Global} {g : Global} {f : Function}
  {opened typed : State} {spans : List Span} {e : Engine} {D : Discipline}

theorem Bare.closed_of_binders (hm : Bare m)
    (hgroup : GroupRun (.standard m supply verbose) solve group s opened typed spans e s')
    (hwell : WellFormed m f.typeParams f.toExpr.written) (hf : m.functions.get? g = some f)
    (hg : g ∈ Context.undeclared (.standard m supply verbose) group)
    (ht : opened.provisional.get? g = some t)
    (hbinders : (s'.engine.store.resolve t).binders ⊆ f.typeParams)
    (hsig : s'.schemes.get? g = some sig) : sig.Closed := by
  obtain ⟨hmem, hd⟩ := mem_undeclared.1 hg
  obtain ⟨span, hspan, rfl⟩ := mem_map.1 (hgroup.functions_eq.symm ▸ hmem)
  obtain ⟨t', ht', ⟨f', sig', hf', hsig', hfor⟩, -⟩ := hgroup.closes.recorded span hspan hd
  rw [hgroup.grows.provisional_eq, ht] at ht'
  cases ht'
  cases hf.symm.trans hf'
  cases hsig.symm.trans hsig'
  apply hfor.closed hbinders
  intro r hr a ha p hp
  apply hm.mem_typeParams (Table.mem_values_of_get? hf) hwell ?_ hp
  exact mem_append_right _ (mem_flatMap.2 ⟨r, hr, ha⟩)

/-- A group that has been opened stays clear of the cell that one of its functions was started at,
as long as this function is not mentioned. -/
theorem avoiding_proper (hready : Ready before s) (hopens : Opens Γ group s opened)
    (h : Discipline.anything.Proper Γ Discipline.nobody opened) (hdefinite : SchemesDefinite s)
    (hfresh : FreshProvisional opened) (hg : opened.provisional.get? g = some (.cell c)) :
    (Discipline.avoiding c).Proper Γ (fun r => Known Γ opened r ∧ r ≠ g) opened where
  governs :=
    { watchful := h.governs.watchful
      unborn := by
        intro d hd heq
        cases heq
        obtain ⟨c', heq', howns, -⟩ := hfresh g _ hg
        cases heq'
        rw [howns] at hd
        cases hd
      runs := by
        intro i hi
        rw [hopens.rests.waiting_eq, hready.idle] at hi
        cases hi }
  provisional := by
    intro r t hr ht
    obtain ⟨d, rfl, howns, hvalue, hunique⟩ := hfresh r t ht
    have hne : d ≠ c := by
      intro heq
      rw [heq] at hunique
      exact hr.2 (hunique g hg).symm
    refine ⟨Store.ownsAll_iff.2 (by simpa using howns), ?_⟩
    unfold Store.Holds
    rw [show opened.engine.store.resolve (.cell d) = .cell d from hvalue]
    apply Ty.Everywhere.intro
    · exact fun heq => hne (Ty.cell.inj heq)
    · exact forall_mem_nil _
  schemes := by
    intro r sig _ hsig
    rw [hopens.schemes_eq] at hsig
    have hallows {t : Ty} (ht : t.cellOccurrences = []) : (Discipline.avoiding c).Allows t :=
      ⟨Ty.everywhere_of_no_cells (fun t ht => Ty.isCell_eq_false_iff.1 ht c) ht, ht⟩
    obtain ⟨hargs, hret, hslots⟩ := Signature.definite_iff.1 (hdefinite hsig)
    exact ⟨fun a ha => hallows (hargs a ha), hallows hret,
      fun x hx a ha => hallows (hslots x hx a ha), fun _ _ => trivial⟩
  known _ hr := hr.1
  notes x hx := ⟨trivial, (h.notes x hx).2⟩
  calls := h.calls
  subjects x hx := ⟨trivial, (h.subjects x hx).2⟩

theorem eq_of_mem_groups (hgroups : m.groups = before ++ group :: after) (hg : g ∈ group)
    {other : List Global} (hother : other ∈ m.groups) (hg' : g ∈ other) : other = group := by
  have hpairwise := (nodup_flatten.1 (Module.groups_spec m).1).2
  have hsymm : Std.Symm (List.Disjoint (α := Global)) := ⟨fun _ _ h => h.symm⟩
  have hgroup : group ∈ m.groups := by simp [hgroups]
  by_contra hne
  exact hpairwise.forall hother hgroup hne hg' hg

theorem TypedFirst.quantified (h : TypedFirst m g) (hm : Written m) (hready : Ready before s)
    (hgroups : m.groups = before ++ group :: after)
    (hs : Discipline.anything.Upright (.standard m supply verbose) s)
    (hdefinite : SchemesDefinite s)
    (hgroup : GroupRun (.standard m supply verbose) solve group s opened typed spans e s')
    (hf : m.functions.get? g = some f) (hg : g ∈ group) (ht : opened.provisional.get? g = some t) :
    s'.engine.store.Quantified t f.typeParams := by
  obtain ⟨earlier, later, hmem, hfirst⟩ := h
  have hgroup_eq := eq_of_mem_groups hgroups hg hmem (by simp)
  have hp : Discipline.anything.FairProvisional s := by
    intro k u hk
    exact absurd (hk.symm.trans (hready.provisional_eq k)) (Option.some_ne_none u)
  have hopened := (Discipline.openGroup_ends hs.proper hp).of_ok hgroup.opens
  have hfresh := openGroup_fresh hready hgroup.opens
  obtain ⟨c, rfl, howns, hfree, hunique⟩ := hfresh g t ht
  have hproper := avoiding_proper hready hgroup.opened_eq hopened.proper hdefinite hfresh ht
  have hsuits := Discipline.avoiding_suits c hm supply verbose
  have hknown : ∀ k ∈ group, ∀ f, m.functions.get? k = some f → ∀ r ∈ f.toExpr.mentions,
      Known (.standard m supply verbose) opened r :=
    fun k hk f hf r hr => hready.known hgroups hgroup.opened_eq hk hf hr
  have hmentioned {k : Global} (hk : k ∈ g :: earlier) {f : Function}
      (hf : m.functions.get? k = some f) : ∀ r ∈ f.toExpr.mentions,
        Known (.standard m supply verbose) opened r ∧ r ≠ g := by
    intro r hr
    have hk' : k ∈ group := by
      rw [← hgroup_eq]
      rcases mem_cons.1 hk with rfl | hk
      · simp
      · exact mem_append_left _ hk
    refine ⟨hknown k hk' f hf r hr, fun heq => ?_⟩
    rw [heq] at hr
    exact hfirst k hk f hf hr
  have hearlier : ∀ k ∈ earlier, ∃ f, (Discipline.avoiding c).Typable (.standard m supply verbose)
      (fun r => Known (.standard m supply verbose) opened r ∧ r ≠ g) opened k f := by
    intro k hk
    have hk' : k ∈ earlier ++ g :: later := mem_append_left _ hk
    obtain ⟨f, hf⟩ := Module.get?_of_mem_groups (mem_flatten.2 ⟨_, hmem, hk'⟩)
    refine ⟨f, hf, hsuits.functions k f hf, hmentioned (.tail _ hk) hf, ?_⟩
    intro u hu
    have hk_known : Known (.standard m supply verbose) opened k := by
      intro _
      left
      rw [hu]
      exact Option.some_ne_none u
    have hne : k ≠ g := by
      have hall := (nodup_flatten.1 (Module.groups_spec m).1).1 _ hmem
      exact (nodup_append.1 hall).2.2 k hk g (.head _)
    constructor
    · exact hproper.provisional k u ⟨hk_known, hne⟩ hu
    · exact hsuits.builds k f hf (hgroup.opened_eq.declared?_eq_none hready hu)
  have hbodies := hgroup.bodies
  rw [← hgroup_eq] at hbodies hknown
  have htyped := typeBodies_quantified hsuits.fits hproper hf (hsuits.functions g f hf)
    (hmentioned (.head _) hf) (by simp [Discipline.avoiding, Discipline.keeping]) ht hfree
    hearlier hknown hbodies
  have hvalid := hgroup.valid_typed hready.valid
  have hadvances := hgroup.steps.advances hvalid
  exact htyped.extends ((hadvances.evolves hvalid).trans hgroup.closes.evolves).later

theorem Monomorphic.suits (h : Monomorphic m) (hm : Written m) (supply : Supply)
    (verbose : Bool) : (Discipline.keeping Ty.bindsNone).Suits (.standard m supply verbose) := by
  apply Discipline.keeping_suits
  · exact fun t _ ht => ht
  · exact Ty.shallow_bindsNone.mapChildren_iff
  · intro f hf d hd t ht
    exact ⟨Ty.everywhere_iff_constituents.2 (h.types f hf d hd t ht), hm.functions f hf d hd t ht⟩
  · exact fun f hf d hd _ _ => h.inner f hf d hd
  · exact fun f hf hd _ _ => h.outer f hf hd

/-- It is certain that the type found for the function binds no other parameters than the function
has. -/
def Secure (m : Module) (g : Global) : Prop :=
  (∃ f, m.functions.get? g = some f ∧ f.isDeclared = true) ∨ TypedFirst m g ∨ Monomorphic m

/-- What the signatures recorded for the functions of some groups are like. -/
structure Recorded (m : Module) (supply : Supply) (verbose : Bool) (before : List (List Global))
    (s : State) : Prop where
  upright : Discipline.anything.Upright (.standard m supply verbose) s
  monomorphic : Monomorphic m →
    (Discipline.keeping Ty.bindsNone).Upright (.standard m supply verbose) s
  definite : SchemesDefinite s
  closed : ∀ g ∈ before.flatten, Secure m g → ∀ sig, s.schemes.get? g = some sig → sig.Closed

theorem recorded_start (m : Module) (supply : Supply) (verbose : Bool) (session : Session) :
    Recorded m supply verbose [] (start session) where
  upright := Discipline.start_upright (fun _ => trivial) session
  monomorphic _ := Discipline.start_upright (fun _ => rfl) session
  definite h := absurd h.symm (Option.some_ne_none _)
  closed _ hg := absurd hg not_mem_nil

section

variable (h : Recorded m supply verbose before s) (hm : Bare m)
  (hgroups : m.groups = before ++ group :: after) (hready : Ready before s)
  (hrun : typeGroup (.standard m supply verbose) solve group s = .ok () s')

include h hm hgroups hready hrun

theorem Recorded.closed_of_secure (hg : g ∈ group) (hsecure : Secure m g)
    (hsig : s'.schemes.get? g = some sig) : sig.Closed := by
  have hsuits := Discipline.anything_suits hm.toWritten supply verbose
  have hcompletes := (Discipline.typeGroup_ends hsuits hready hgroups h.upright).of_ok hrun
  obtain ⟨opened, typed, spans, e, hgroup⟩ := typeGroup_eq_ok hready hgroups hrun
  have hmember : g ∈ m.groups.flatten := mem_flatten.2 ⟨group, by simp [hgroups], hg⟩
  obtain ⟨f, hf⟩ := Module.get?_of_mem_groups hmember
  have hwell := hcompletes.written g hg f hf
  cases hd : f.declared? with
  | some declared =>
    have hdeclared : Context.declared? (.standard m supply verbose) g = some declared := by
      rw [Context.declared?, show (Context.standard m supply verbose).module = m from rfl, hf]
      exact hd
    cases (hgroup.closes.declared g hg _ hdeclared).symm.trans hsig
    exact hm.closed_of_declared (Table.mem_values_of_get? hf) hwell hd
  | none =>
    have hundeclared : g ∈ Context.undeclared (.standard m supply verbose) group := by
      apply mem_undeclared.2 ⟨hg, ?_⟩
      rw [Context.declared?, show (Context.standard m supply verbose).module = m from rfl, hf]
      exact hd
    obtain ⟨t, ht⟩ := Option.ne_none_iff_exists'.1 (hgroup.opened_eq.started g hundeclared)
    refine hm.closed_of_binders hgroup hwell hf hundeclared ht ?_ hsig
    rcases hsecure with ⟨f', hf', hdeclared⟩ | hfirst | hmono
    · cases hf.symm.trans hf'
      rw [Function.isDeclared, hd] at hdeclared
      cases hdeclared
    · rw [(hfirst.quantified hm.toWritten hready hgroups h.upright h.definite hgroup hf hg ht).2]
      exact List.Subset.refl _
    · have hkept := (Discipline.typeGroup_ends (hmono.suits hm.toWritten supply verbose) hready
        hgroups (h.monomorphic hmono)).of_ok hrun
      have hnone : (s'.engine.store.resolve t).binders = [] :=
        (hkept.provisional opened hgroup.opens g t ht).2.top
      rw [hnone]
      exact nil_subset _

theorem Recorded.step : Recorded m supply verbose (before ++ [group]) s' := by
  obtain ⟨opened, typed, spans, e, hgroup⟩ := typeGroup_eq_ok hready hgroups hrun
  constructor
  · have hsuits := Discipline.anything_suits hm.toWritten supply verbose
    exact ((Discipline.typeGroup_ends hsuits hready hgroups h.upright).of_ok hrun).upright
  · intro hmono
    have hsuits := hmono.suits hm.toWritten supply verbose
    exact ((Discipline.typeGroup_ends hsuits hready hgroups (h.monomorphic hmono)).of_ok
      hrun).upright
  · exact hgroup.schemesDefinite hm.toWritten h.definite
  · intro g hg hsecure sig hsig
    by_cases hmem : g ∈ group
    · exact h.closed_of_secure hm hgroups hready hrun hmem hsecure hsig
    · rw [hgroup.schemes_eq hmem] at hsig
      refine h.closed g ?_ hsecure sig hsig
      simpa [hmem] using hg

end

end

/-- After each group that has been typed nothing waits, so that the run could be brought to its end
there. The signatures recorded hold no cells: no store has more to say of them, and typing more
groups leaves them as they are. They are closed wherever it is certain what the types of the
functions bind. -/
theorem solveGroups_final {m : Module} (hm : Bare m) {supply : Supply} {verbose : Bool}
    {session : Session} {before after : List (List Global)} (hgroups : m.groups = before ++ after)
    {s : State}
    (h : solveGroups (.standard m supply verbose) before (start session) = .ok () s) :
    s.engine.pending = [] ∧ (∃ e, EngineM.finish .standard s.engine = .ok () e) ∧
      ∀ g ∈ before.flatten, ∃ sig, s.schemes.get? g = some sig ∧ sig.Definite ∧
        (∀ store : Store, store.resolve sig.toTy = sig.toTy) ∧
        (∀ more rest s', after = more ++ rest →
          solveGroups (.standard m supply verbose) more s = .ok () s' →
          s'.schemes.get? g = some sig) ∧
        (Secure m g → sig.Closed) := by
  have hall : (Context.standard m supply verbose).groups = [] ++ (before ++ after) := hgroups
  have hstart := start_ready session
  obtain ⟨hready, hrecorded⟩ := solveGroups_keeps rfl
    (fun hgroups hready h hrun => Recorded.step h hm hgroups hready hrun) hall hstart
    (recorded_start m supply verbose session) h
  rw [List.nil_append] at hready hrecorded
  refine ⟨List.map_eq_nil_iff.1 hready.idle, ?_, fun g hg => ?_⟩
  · exact EngineM.finish_of_idle hrecorded.upright.proper.governs.watchful hready.idle
  obtain ⟨sig, hsig⟩ := Option.isSome_iff_exists.1 ((hready.done_iff g).2 hg)
  have hdefinite : sig.Definite := hrecorded.definite hsig
  refine ⟨sig, hsig, hdefinite, fun store => ?_, ?_, ?_⟩
  · rw [store.resolve_eq]
    exact Ty.mapCells_eq_self fun c hc => by
      rw [show sig.toTy.cellOccurrences = [] from hdefinite] at hc
      cases hc
  · rintro more rest s' rfl hmore
    rw [(solveGroups_ready rfl hgroups hready hmore).2.2 g hg, hsig]
  · exact fun hsecure => hrecorded.closed g hg hsecure sig hsig

/-! ## A parameter that comes in from elsewhere

Inside `f` the function itself is one branch of a conditional and a function with a parameter of its
own is the other, so that the cell that `f` was started at comes to stand for a type that binds `T`.
The function `k` has the same body but for the first branch. -/

namespace Borrowed

def T : TypeParam := ⟨⟨1, "T"⟩, .type⟩
def x : Var := ⟨⟨2, "x"⟩, some (.param T)⟩
def y : Var := ⟨⟨3, "y"⟩, none⟩
def z : Var := ⟨⟨4, "z"⟩, none⟩
def h : Var := ⟨⟨5, "h"⟩, none⟩
def i : Var := ⟨⟨6, "i"⟩, none⟩
def f : Global := ⟨⟨7, "f"⟩⟩
def k : Global := ⟨⟨8, "k"⟩⟩

/-- The function `fn<T>(x: T) { x }`. -/
def identity (node : Serial) : Expr := .fn node [x] (.var x) none [T] []

def yes (node : Serial) : Expr := .constant node ⟨"bool", [], .bool true⟩

/-- The function `fn(y) { let h = if true then f else identity; y }`. -/
def bodyOfF : Function where
  node := 9
  params := [y]
  body := .letIn 10 h (.cond 11 (yes 12) (.global f) (identity 13)) (.var y)

/-- The function `fn(z) { let i = if true then identity else identity; z }`. -/
def bodyOfK : Function where
  node := 14
  params := [z]
  body := .letIn 15 i (.cond 16 (yes 17) (identity 18) (identity 19)) (.var z)

def module : Module where
  functions := ⟨[(f, bodyOfF), (k, bodyOfK)]⟩

def context : Context := .standard module ⟨50⟩ false

def session : Session := { supply := ⟨200⟩ }

def done : State := endState (solveGroups context [[f], [k]]) (start session)

theorem typedFirst_k : TypedFirst module k := by
  refine ⟨[], [], by decide +kernel, fun g hg body hbody => ?_⟩
  obtain rfl : g = k := by simpa using hg
  cases hbody
  decide +kernel

end Borrowed

/-- The function `k` is given a closed signature, and the run could be ended there. -/
theorem solveGroups_final_borrowed :
    Bare Borrowed.module ∧ Borrowed.done.engine.pending = [] ∧
      (∃ e, EngineM.finish .standard Borrowed.done.engine = .ok () e) ∧
      ∃ sig, Borrowed.done.schemes.get? Borrowed.k = some sig ∧ sig.Definite ∧ sig.Closed := by
  have hm : Bare Borrowed.module := by decide +kernel
  have hgroups : Borrowed.module.groups = [[Borrowed.f], [Borrowed.k]] ++ [] := by decide +kernel
  have hrun : solveGroups (.standard Borrowed.module ⟨50⟩ false) [[Borrowed.f], [Borrowed.k]]
      (start Borrowed.session) = .ok () Borrowed.done :=
    (succeeds_iff.1 (by decide +kernel)).choose_spec
  obtain ⟨hpending, hfinish, hsignatures⟩ := solveGroups_final hm hgroups hrun
  obtain ⟨sig, hsig, hdefinite, -, -, hclosed⟩ := hsignatures Borrowed.k (by decide)
  exact ⟨hm, hpending, hfinish, sig, hsig, hdefinite, hclosed (.inr (.inl Borrowed.typedFirst_k))⟩

/-- The parameter `T` is free in the signature that `f` is given. -/
theorem borrowed_parameter_free :
    Bare Borrowed.module ∧
      (Borrowed.module.check (Operators.standard ⟨50⟩).1 .standard {}
        Borrowed.session).outcome.toOption = some true ∧
      ∃ sig ∈ Borrowed.done.schemes.get? Borrowed.f, ¬ sig.Closed := by
  decide +kernel

end Inference

end TensorTyping
