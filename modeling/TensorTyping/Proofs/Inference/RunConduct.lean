import TensorTyping.Proofs.Inference.GroupConduct

/-!
# Checking modules to a discipline

From the beginning of a run every group is typed to the discipline, and then what was noted is gone
through once more: what was matched on, the types of the nodes and the type arguments of calls. So
checking a module that suits the discipline stops with no other fault than the discipline allows
(`checkModule_ends`).
-/
namespace TensorTyping

open List

theorem Mint.forall_mem_mapM {α β : Type} {P : β → Prop} {f : α → Mint β} {as : List α}
    (hf : ∀ a ∈ as, ∀ supply, P (f a supply).1) (supply : Supply) :
    ∀ b ∈ (as.mapM f supply).1, P b := by
  induction as generalizing supply with
  | nil => exact forall_mem_nil _
  | cons a as ih =>
    rw [forall_mem_cons] at hf
    rw [mapM_cons]
    exact forall_mem_cons.2 ⟨hf.1 supply, ih hf.2 (f a supply).2⟩

namespace Inference

def Context.standard (m : Module) (supply : Supply) (verbose : Bool) : Context where
  module := m
  operators := (Operators.standard supply).1
  registry := .standard
  groups := m.groups
  verbose := verbose

end Inference

namespace Discipline

open Inference

variable {D : Discipline} {Γ : Context} {s s' : State}

theorem allows_related {registry : Registry} (hD : D.Coherent registry) {relation : String}
    {arity : Nat} {attrs : Attrs} (h : D.setting relation attrs) (supply : Supply) :
    D.AllowsSignature (Operators.related relation arity attrs supply).1 := by
  have hparam (p : TypeParam) : D.Allows (.param p) :=
    ⟨.intro (hD.param p) fun _ hu => absurd hu not_mem_nil, rfl⟩
  constructor
  · intro a ha
    obtain ⟨p, -, rfl⟩ := mem_map.1 ha
    exact hparam p
  · exact hparam _
  · intro r hr a ha
    obtain rfl := mem_singleton.1 hr
    obtain ⟨p, -, rfl⟩ := mem_map.1 ha
    exact hparam p
  · intro r hr
    obtain rfl := mem_singleton.1 hr
    exact h

theorem allows_standard {registry : Registry} (hD : D.Coherent registry)
    (hsetting : ∀ f ∈ Operators.families, D.setting f.relation f.attrs) (supply : Supply)
    {name : String} {sig : Signature}
    (h : (Operators.standard supply).1.table.get? name = some sig) : D.AllowsSignature sig := by
  let declare (f : Operators.Family) : Mint (List (String × Signature)) :=
    f.names.mapM fun name => do
    return (name, ← Operators.related f.relation f.arity f.attrs)
  have hall : ∀ entries ∈ (Operators.families.mapM declare supply).1,
      ∀ e ∈ entries, D.AllowsSignature e.2 := by
    apply Mint.forall_mem_mapM
    intro f hf supply
    apply Mint.forall_mem_mapM
    exact fun name _ supply => allows_related hD (hsetting f hf) supply
  obtain ⟨entries, hentries, he⟩ := mem_flatten.1 (Table.mem_entries_of_get? h)
  exact hall entries hentries _ he

theorem start_upright (hcell : ∀ c, D.part (.cell c)) (session : Session) :
    D.Upright Γ (start session) where
  proper :=
    { governs := ⟨.start (Store.valid_empty _) (Store.told_empty _), fun c _ => hcell c,
        forall_mem_nil _⟩
      provisional _ _ hg := hg.elim
      schemes _ _ hg := hg.elim
      known _ hg := hg.elim
      notes _ hx := absurd hx not_mem_nil
      calls _ hx := absurd hx not_mem_nil
      subjects _ hx := absurd hx not_mem_nil }
  cells c := by
    have hvalue : (start session).engine.store.value c = .cell c := Store.value_empty _ c
    rw [Store.Holds, Store.resolve_eq, Ty.mapCells_cell, hvalue]
    exact .intro (hcell c) fun _ hu => absurd hu not_mem_nil
  schemes _ sig hsig := absurd hsig.symm (Option.some_ne_none sig)
  scope_eq := rfl

theorem solveGroups_ends (hΓ : Γ.groups = Γ.module.groups) (hsuits : D.Suits Γ)
    {before rest after : List (List Global)} (hgroups : Γ.groups = before ++ (rest ++ after))
    (hready : Ready before s) (h : D.Upright Γ s) :
    Ends (solveGroups Γ rest) s (fun _ s' => D.Upright Γ s')
      fun f s' => D.stops f s'.engine.store := by
  induction rest generalizing before s with
  | nil => exact .pure h
  | cons group rest ih =>
    rw [cons_append] at hgroups
    apply Ends.congr (solveGroups_cons hΓ hgroups hready rest)
    rw [hΓ] at hgroups
    apply (typeGroup_ends hsuits hready hgroups h).bind_run
    intro _ s₁ hrun hs₁
    obtain ⟨opened, typed, spans, e, hgroup⟩ := typeGroup_eq_ok hready hgroups hrun
    apply ih ?_ (hgroup.ready hready) hs₁.upright
    rw [hΓ, hgroups, append_assoc]
    rfl

section

variable (hD : D.Coherent Γ.registry)
include hD

theorem checkSubjects_safe {subjects : List (Expr × Ty)} (h : D.Proper Γ nobody s)
    (hsubjects : ∀ x ∈ subjects, D.phrase (.expr x.1) ∧ s.engine.store.ownsAll x.2 = true) :
    D.Safe Γ nobody (checkSubjects subjects) s fun _ _ => True := by
  induction subjects generalizing s with
  | nil => exact .pure h trivial
  | cons x rest ih =>
    rw [forall_mem_cons] at hsubjects
    unfold checkSubjects
    apply (checkSubject_safe hD h hsubjects.1.1 hsubjects.1.2).bind
    intro _ s₁ hs₁ _ hkept
    exact ih hs₁ fun y hy => ⟨(hsubjects.2 y hy).1, hkept.ownsAll (hsubjects.2 y hy).2⟩

theorem finalTypes_safe {nodes : List (Serial × (Phrase × Ty))} (h : D.Proper Γ nobody s)
    (hnodes : ∀ x ∈ nodes, D.phrase x.2.1 ∧ s.engine.store.ownsAll x.2.2 = true) :
    D.Safe Γ nobody (finalTypes nodes) s fun _ _ => True := by
  induction nodes generalizing s with
  | nil => exact .pure h trivial
  | cons x rest ih =>
    obtain ⟨n, p, t⟩ := x
    rw [forall_mem_cons] at hnodes
    obtain ⟨⟨hphrase, howned⟩, hnodes⟩ := hnodes
    unfold finalTypes
    apply (resolve_safe h howned).bind
    intro u s₁ hs₁ _ hu
    have hrest : D.Safe Γ nobody (do
        let more ← finalTypes rest
        return (n, u) :: more) s₁ fun _ _ => True := by
      apply (ih hs₁ fun y hy => ⟨(hnodes y hy).1, hu.2.ownsAll (hnodes y hy).2⟩).bind
      exact fun _ _ hs _ _ => .pure hs trivial
    apply Safe.ite
    · intro _
      apply complain_bind_safe hD
      refine ⟨⟨p, rfl, hphrase⟩, ?_, Issue.fits_of_holes 1 (by cbv) rfl⟩
      intro v hv
      have hvu : v = u := by simpa using hv
      rw [hvu, hu.1]
      exact hu.2.ownsAll (h.store_valid.ownsAll_resolve howned)
    · exact fun _ => hrest

omit hD in
theorem mark_safe {f : Marks → Marks} (h : D.Proper Γ nobody s) :
    D.Safe Γ nobody (onSession (SessionM.mark f)) s fun _ S => S = s.engine.store :=
  Ends.of_eq_ok rfl ⟨h.functions rfl rfl rfl rfl, .refl h.store_valid, rfl, rfl⟩

omit hD in
theorem markCalls_safe {calls : List (Serial × List Ty)} (h : D.Proper Γ nobody s)
    (hcalls : ∀ x ∈ calls, ∀ t ∈ x.2, s.engine.store.ownsAll t = true) :
    D.Safe Γ nobody (markCalls calls) s fun _ _ => True := by
  induction calls generalizing s with
  | nil => exact .pure h trivial
  | cons x rest ih =>
    rw [forall_mem_cons] at hcalls
    unfold markCalls
    apply (resolveAll_safe h hcalls.1).bind
    intro us s₁ hs₁ _ hus
    apply (mark_safe hs₁).bind
    intro _ s₂ hs₂ _ hstore
    apply ih hs₂
    rw [hstore]
    exact fun y hy t ht => hus.2.ownsAll (hcalls.2 y hy t ht)

theorem annotate_safe (h : D.Proper Γ nobody s) : D.Safe Γ nobody annotate s fun _ _ => True := by
  unfold annotate
  apply Safe.get_bind
  apply (checkSubjects_safe hD h h.subjects).bind
  intro _ s₁ hs₁ _ _
  apply Safe.get_bind
  apply (finalTypes_safe hD hs₁ hs₁.notes).bind
  intro final s₂ hs₂ _ _
  apply (mark_safe hs₂).bind
  intro _ s₃ hs₃ _ _
  apply Safe.get_bind
  exact markCalls_safe hs₃ hs₃.calls

end

theorem recordSignatures_safe {gs : List Global} {m : Module} (h : D.Proper Γ nobody s)
    (hgs : ∀ g ∈ gs, s.schemes.contains g = true) :
    D.Safe Γ nobody (recordSignatures gs m) s fun _ _ => True := by
  induction gs generalizing s m with
  | nil => exact .pure h trivial
  | cons g gs ih =>
    rw [forall_mem_cons] at hgs
    obtain ⟨sig, hsig⟩ := Option.isSome_iff_exists.1 hgs.1
    unfold recordSignatures
    apply Safe.get_bind
    simp only [hsig]
    apply (mark_safe h).bind_run
    intro _ s₁ hrun hs₁ _ _
    apply ih hs₁
    cases hrun
    exact hgs.2

theorem markCtors_safe {ds : List DataType} (h : D.Proper Γ nobody s) :
    D.Safe Γ nobody (ds.forM markCtors) s fun _ _ => True := by
  induction ds generalizing s with
  | nil => exact .pure h trivial
  | cons d ds ih =>
    unfold List.forM markCtors
    apply (mark_safe h).bind
    exact fun _ _ hs _ _ => ih hs

/-- Checking a module keeps to the discipline, if all that is written in the module does. -/
theorem checkModule_ends (hΓ : Γ.groups = Γ.module.groups) (hsuits : D.Suits Γ)
    (hcell : ∀ c, D.part (.cell c)) (session : Session) :
    Ends (checkModule Γ) (start session) (fun _ _ => True)
      fun f s' => D.stops f s'.engine.store := by
  have hD := hsuits.coherent
  have hready := start_ready session
  unfold checkModule
  apply (solveGroups_ends hΓ hsuits (append_nil _).symm hready
    (start_upright hcell session)).bind_run
  intro _ s₁ hsolved hs₁
  obtain ⟨hready₁, -, -⟩ := solveGroups_ready hΓ (append_nil _).symm hready hsolved
  have hfinish : D.Safe Γ nobody (onEngine (EngineM.finish Γ.registry)) s₁ fun _ _ => True := by
    apply onEngine_safe hs₁.proper
    apply (finish_keeps hD hs₁.proper.governs).mono
    exact fun _ _ hkeeps => ⟨hkeeps.1, hkeeps.2.1, trivial⟩
  apply Ends.bind_run hfinish
  rintro _ s₂ hrun₂ ⟨hs₂, -⟩
  obtain ⟨-, hstate₂⟩ := onEngine_eq_ok hrun₂
  apply Ends.bind_run (annotate_safe hD hs₂)
  rintro _ s₃ hrun₃ ⟨hs₃, -⟩
  have hschemes : s₃.schemes = s₁.schemes := by
    rw [(annotate_annotates hs₂.store_valid hrun₃).1.schemes_eq, hstate₂]
  have hdone : ∀ g ∈ Γ.module.functions.keys, s₃.schemes.contains g = true := by
    intro g hg
    rw [hschemes]
    apply (hready₁.done_iff g).2
    rw [nil_append, hΓ]
    exact (Module.groups_spec Γ.module).2.2.1 g hg
  apply Ends.bind (recordSignatures_safe hs₃ hdone)
  rintro m s₄ ⟨hs₄, -⟩
  apply Ends.bind (markCtors_safe hs₄)
  exact fun _ _ _ => .pure trivial

/-- To keep to a condition on types. -/
def keeping (q : Ty → Prop) : Discipline where
  part := q
  phrase _ := True
  setting _ _ := True
  added _ := True
  stops _ _ := True

variable {q : Ty → Prop} {m : Module}

theorem keeping_coherent (hq : ∀ t, t.isCell = false → t.binders = [] → q t)
    (hmap : ∀ h t, q (t.mapChildren h) ↔ q t) (registry : Registry) :
    (keeping q).Coherent registry where
  tensor _ _ := hq _ rfl rfl
  param _ := hq _ rfl rfl
  tuple _ := hq _ rfl rfl
  data _ _ := hq _ rfl rfl
  func _ _ _ _ := hq _ rfl rfl
  relations _ _ _ := trivial
  mapChildren_iff := hmap
  merge _ _ := trivial
  plain := trivial
  index _ := trivial
  blames _ := trivial
  blame _ _ := trivial
  rules _ _ _ _ _ _ := trivial
  slots _ _ _ := trivial

/-- A module suits a condition that holds of the types written in it and passes to the types of its
functions. -/
theorem keeping_suits (hq : ∀ t, t.isCell = false → t.binders = [] → q t)
    (hmap : ∀ h t, q (t.mapChildren h) ↔ q t)
    (hwritten : ∀ f ∈ m.functions.values, ∀ d ∈ f.toExpr.parts, ∀ t ∈ d.written,
      Ty.Everywhere q t ∧ t.cellOccurrences = [])
    (hinner : ∀ f ∈ m.functions.values, ∀ d ∈ f.body.parts, ∀ as r,
      q (.func as r d.typeParams d.relations))
    (houter : ∀ f ∈ m.functions.values, f.isDeclared = false → ∀ as r,
      q (.func as r f.typeParams f.relations)) (supply : Supply) (verbose : Bool) :
    (keeping q).Suits (.standard m supply verbose) where
  coherent := keeping_coherent hq hmap _
  operators _ _ hsig :=
    allows_standard (keeping_coherent hq hmap .standard) (fun _ _ => trivial) supply hsig
  functions g f hf :=
    { neat :=
        { written := hwritten f (Table.mem_values_of_get? hf)
          builds c hc d hd := by
            have hbody : c = f.body := mem_singleton.1 hc
            apply Builds.of_written
            · exact fun _ _ => hq _ rfl rfl
            · exact hinner f (Table.mem_values_of_get? hf) d (hbody ▸ hd)
            · exact fun t ht => (hwritten f (Table.mem_values_of_get? hf) d
                (Expr.parts_of_child hc hd) t ht).1 }
      settings _ _ _ _ := trivial
      relations _ _ _ _ := trivial
      literals _ _ _ _ _ _ _ := trivial
      phrases _ _ := trivial }
  builds g f hf hd := by
    apply Builds.of_written
    · exact fun _ _ => hq _ rfl rfl
    · apply houter f (Table.mem_values_of_get? hf)
      have hnone : f.declared? = none := by
        rw [Context.declared?, hf] at hd
        exact hd
      simp [Function.isDeclared, hnone]
    · exact fun t ht => (hwritten f (Table.mem_values_of_get? hf) _ (Expr.self_mem_parts _) t ht).1

end Discipline

end TensorTyping
