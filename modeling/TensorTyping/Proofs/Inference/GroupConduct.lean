import TensorTyping.Proofs.Inference.Conformity
import TensorTyping.Proofs.Inference.Failure
import TensorTyping.Proofs.Inference.LocalCalls

/-!
# Typing groups to a discipline

The functions of a group are typed to a discipline if what is written in them conforms to it: the
provisional types, the cells that become parameters and the relations that are left over all
conform, and so do the signatures recorded in the end. If typing stops, then with a fault that the
discipline allows (`typeGroup_ends`).
-/
namespace TensorTyping

open List

variable {g : Global} {rs : List TypeRelation} {before : List (List Global)}

theorem Module.get?_of_mem_groups {m : Module} (hg : g ∈ m.groups.flatten) :
    ∃ f, m.functions.get? g = some f := by
  apply Option.isSome_iff_exists.1
  have hcount := m.count_groups g
  have hpos := count_pos_iff.2 hg
  split at hcount
  · assumption
  · omega

namespace Inference

end Inference

namespace Store

variable {s s' : Store} {t u : Ty}

/-- What is known of the type is that it is a function type. -/
def Functional (s : Store) (t : Ty) : Prop := ∃ as r ps rs, s.resolve t = .func as r ps rs

theorem Functional.extends (h : s.Functional t) (hs : s.Extends s') : s'.Functional t := by
  obtain ⟨as, r, ps, rs, h⟩ := h
  unfold Functional
  rw [hs.resolve_eq t, h, Ty.mapCells_func]
  exact ⟨_, _, _, _, rfl⟩

theorem Agrees.functional {as : List Ty} {r : Ty} {ps : List TypeParam}
    (h : s.Agrees (t, .func as r ps rs)) : s.Functional t := by
  unfold Agrees at h
  simp only [s.resolve_eq (.func as r ps rs), Ty.mapCells_func] at h
  unfold Functional
  cases heq : s.resolve t with
  | func as r ps rs => exact ⟨_, _, _, _, rfl⟩
  | _ => simp [heq, Ty.agree] at h

end Store

/-- Only functions that declare no signature are started at provisional types. -/
theorem Inference.Opens.declared?_eq_none {Γ : Context} {group : List Global} {s opened : State}
    (h : Opens Γ group s opened) (hready : Ready before s) {t : Ty}
    (ht : opened.provisional.get? g = some t) : Γ.declared? g = none := by
  by_contra hd
  have hnot : g ∉ Γ.undeclared group := fun hmem => hd (mem_undeclared.1 hmem).2
  rw [h.others g hnot, hready.provisional_eq] at ht
  cases ht

namespace Discipline

open Inference

variable {D : Discipline} {Γ : Context} {mentioned : Global → Prop} {s s' : State} {α β : Type}
variable {S : Store} {i : Instance} {is : List Instance} {spans : List Span}
  {group gs : List Global} {mark : Nat}
variable {f : Function} {registry : Registry} {e : Engine} {ts : List Ty}

theorem Runs.of_asleep (h : D.Runs registry S i.asleep) : D.Runs registry S i :=
  ⟨h.slots, h.origin, h.setting, h.registered⟩

theorem Governs.runs_pending (h : D.Governs registry e) (hi : i ∈ e.pending) :
    D.Runs registry e.store i :=
  .of_asleep (h.runs _ (mem_map_of_mem hi))

theorem Fair.cell_of_mem {t : Ty} (h : D.Fair S t) (hS : S.Valid) {c : Cell}
    (hc : c ∈ (S.resolve t).cellOccurrences) : D.Fair S (.cell c) ∧ S.value c = .cell c := by
  have hvalue := hS.value_of_mem_resolve hc
  refine ⟨⟨?_, ?_⟩, hvalue⟩
  · exact Store.ownsAll_iff.2 fun d hd =>
      mem_singleton.1 hd ▸ (hS.free_of_mem_resolve h.1 hc).1
  · have hholds := (h.resolve hS).2
    rw [Store.Holds, Store.resolve_eq] at hholds ⊢
    exact Ty.Everywhere.of_replace hholds hc

theorem Proper.mono {fewer : Global → Prop} (h : D.Proper Γ mentioned s)
    (hfewer : ∀ g, fewer g → mentioned g) : D.Proper Γ fewer s where
  governs := h.governs
  provisional g t hg := h.provisional g t (hfewer g hg)
  schemes g sig hg := h.schemes g sig (hfewer g hg)
  known g hg := h.known g (hfewer g hg)
  notes := h.notes
  calls := h.calls
  subjects := h.subjects

def nobody (_ : Global) : Prop := False

/-- What is said of functions does not matter if none may be mentioned. -/
theorem Proper.functions (h : D.Proper Γ nobody s) (hengine : s'.engine = s.engine)
    (hnotes : s'.nodeTypes = s.nodeTypes) (hcalls : s'.callArgs = s.callArgs)
    (hsubjects : s'.scrutinees = s.scrutinees) : D.Proper Γ nobody s' where
  governs := hengine ▸ h.governs
  provisional _ _ hg := hg.elim
  schemes _ _ hg := hg.elim
  known _ hg := hg.elim
  notes := by
    rw [hnotes, hengine]
    exact h.notes
  calls := by
    rw [hcalls, hengine]
    exact h.calls
  subjects := by
    rw [hsubjects, hengine]
    exact h.subjects

theorem tell_safe {line : String} (h : D.Proper Γ nobody s) :
    D.Safe Γ nobody (tell Γ line) s fun _ S => S = s.engine.store := by
  unfold Inference.tell
  apply Safe.ite
  · intro _
    exact Ends.modify ⟨h.functions rfl rfl rfl rfl, .refl h.store_valid, rfl, rfl⟩
  · exact fun _ => .pure h rfl

section

variable (h : D.Proper Γ mentioned s)

include h

theorem resolveAll_safe (hts : ∀ t ∈ ts, s.engine.store.ownsAll t = true) :
    D.Safe Γ mentioned (resolveAll ts) s fun us S =>
      us = ts.map s.engine.store.resolve ∧ s.engine.store.Kept S := by
  apply onEngine_safe h
  apply (resolveAll_keeps h.governs hts).mono
  rintro us e ⟨hgoverns, hproceeds, hus, hpeeks⟩
  exact ⟨hgoverns, hproceeds, hus, hpeeks.kept⟩

theorem resolvedRelation_safe (hi : D.Runs Γ.registry s.engine.store i) :
    D.Safe Γ mentioned (resolvedRelation i) s fun _ _ => True := by
  unfold resolvedRelation
  apply (resolveAll_safe h fun a ha => (hi.slots a ha).1).bind
  exact fun _ _ hs _ _ => .pure hs trivial

theorem resolveRelations_safe (hrs : ∀ r ∈ rs, ∀ a ∈ r.args, s.engine.store.ownsAll a = true) :
    D.Safe Γ mentioned (resolveRelations rs) s fun _ _ => True := by
  induction rs generalizing s with
  | nil => exact .pure h trivial
  | cons r rs ih =>
    rw [forall_mem_cons] at hrs
    unfold resolveRelations
    apply (resolveAll_safe h hrs.1).bind
    intro _ s₁ hs₁ _ hkept
    apply (ih hs₁ fun r hr a ha => hkept.2.ownsAll (hrs.2 r hr a ha)).bind
    exact fun _ _ hs _ _ => .pure hs trivial

theorem resolvedRelations_safe (his : ∀ i ∈ is, D.Runs Γ.registry s.engine.store i) :
    D.Safe Γ mentioned (resolvedRelations is) s fun _ _ => True := by
  rw [resolvedRelations_eq]
  exact resolveRelations_safe h (forall_mem_map.2 fun i hi a ha => ((his i hi).slots a ha).1)

theorem relationsOf_safe {some : List Span} {pending : List Instance}
    (hpending : ∀ i ∈ pending, D.Runs Γ.registry s.engine.store i) :
    D.Safe Γ mentioned (relationsOf spans pending some) s fun _ _ => True := by
  induction some generalizing s with
  | nil => exact .pure h trivial
  | cons span some ih =>
    unfold relationsOf
    apply (resolvedRelations_safe h fun i hi => hpending i (mem_filter.1 hi).1).bind
    intro _ s₁ hs₁ hproceeds _
    apply (ih hs₁ fun i hi => (hpending i hi).proceeds hproceeds).bind
    exact fun _ _ hs _ _ => .pure hs trivial

theorem entailed_safe {promised : List TypeRelation}
    (his : ∀ i ∈ is, D.Runs Γ.registry s.engine.store i) :
    D.Safe Γ mentioned (entailed promised is) s fun _ _ => True := by
  rw [entailed_eq]
  exact (resolvedRelations_safe h his).bind fun _ _ hs _ _ => .pure hs trivial

theorem detach_safe {ns : List Nat} (hns : ns.Sublist (s.engine.pending.map Instance.seq)) :
    D.Safe Γ mentioned (onEngine (EngineM.detach ns)) s fun _ _ => True := by
  have hordered : (s.engine.pending.map Instance.seq).Pairwise (· < ·) := by
    have hwaiting := h.governs.valid.ordered
    rwa [Engine.waiting, map_map] at hwaiting
  have hnodup : ns.Nodup := (hordered.imp Nat.ne_of_lt).sublist hns
  apply onEngine_safe h
  apply (detach_keeps h.governs hnodup fun n hn => mem_map.1 (hns.subset hn)).mono
  exact fun _ _ hdrops => ⟨hdrops.1, hdrops.2.1, trivial⟩

theorem dischargeDeclared_safe :
    D.Safe Γ mentioned (dischargeDeclared Γ group mark) s fun _ _ => True := by
  unfold dischargeDeclared
  apply Safe.ite
  · exact fun _ => .pure h trivial
  · intro _
    apply Safe.get_bind
    have hruns : ∀ i ∈ s.engine.pendingSince mark, D.Runs Γ.registry s.engine.store i :=
      fun i hi => h.governs.runs_pending (mem_filter.1 hi).1
    apply (entailed_safe h hruns).bind_run
    intro ns s₁ hrun hs₁ _ _
    obtain ⟨rfl, hlooks⟩ := entailed_looks h.store_valid hrun
    apply detach_safe hs₁
    have hpending : s₁.engine.pending.map Instance.seq = s.engine.pending.map Instance.seq := by
      have hwaiting := congrArg (List.map Instance.seq) hlooks.waiting_eq
      rwa [Engine.waiting, Engine.waiting, map_map, map_map] at hwaiting
    rw [hpending]
    exact (filter_sublist.trans filter_sublist).map _

end

/-- An instance that belongs to no function is blamed where it was added. -/
theorem checkOwned_safe (hD : D.Coherent Γ.registry) (h : D.Proper Γ mentioned s)
    (his : ∀ i ∈ is, D.Runs Γ.registry s.engine.store i) :
    D.Safe Γ mentioned (checkOwned spans is) s fun _ _ => True := by
  induction is with
  | nil => exact .pure h trivial
  | cons i is ih =>
    rw [forall_mem_cons] at his
    unfold checkOwned
    apply Safe.ite
    · exact fun _ => ih his.2
    · intro _
      apply (resolvedRelation_safe h his.1).bind
      intro r s₁ _ _ _
      obtain ⟨site, horigin, hsite⟩ := his.1.origin
      apply complain_safe hD
      exact ⟨⟨site, horigin, hsite⟩, forall_mem_nil _,
        Issue.fits_of_holes 1 (by cbv) rfl⟩

theorem takeProvisional_safe (h : D.Proper Γ nobody s) (hnodup : gs.Nodup)
    (hgs : ∀ g ∈ gs, ∃ t, s.provisional.get? g = some t ∧ s.engine.store.ownsAll t = true) :
    D.Safe Γ nobody (takeProvisional gs) s fun _ _ => True := by
  induction gs generalizing s with
  | nil => exact .pure h trivial
  | cons g gs ih =>
    rw [forall_mem_cons] at hgs
    obtain ⟨⟨t, hg, ht⟩, hgs⟩ := hgs
    rw [nodup_cons] at hnodup
    unfold takeProvisional
    apply Safe.get_bind
    simp only [hg]
    apply Safe.modify_bind rfl rfl
    have hs₁ : D.Proper Γ nobody { s with provisional := s.provisional.erase g } :=
      h.functions rfl rfl rfl rfl
    apply (resolve_safe hs₁ ht).bind_run
    intro u s₂ hrun hs₂ _ hu
    have hlooks := resolve_looks hs₁.store_valid hrun
    apply (ih hs₂ hnodup.2 ?_).bind
    · exact fun _ _ hs _ _ => .pure hs trivial
    · intro g' hg'
      obtain ⟨t', hget, ht'⟩ := hgs g' hg'
      have hne : g' ≠ g := fun heq => hnodup.1 (heq ▸ hg')
      refine ⟨t', ?_, hu.2.ownsAll ht'⟩
      rw [hlooks.rest_eq]
      simp only [Table.get?_erase, hne, if_false, hget]

theorem bindParams_safe (hD : D.Coherent Γ.registry) {cells : List Cell} {names : List String}
    (h : D.Proper Γ nobody s) (hnodup : cells.Nodup) (hcells : ∀ c ∈ cells,
      D.Fair s.engine.store (.cell c) ∧ s.engine.store.value c = .cell c) :
    D.Safe Γ nobody (bindParams cells names) s fun _ _ => True := by
  induction cells generalizing s names with
  | nil =>
    unfold bindParams
    exact .pure h trivial
  | cons c cells ih =>
    rw [forall_mem_cons] at hcells
    rw [nodup_cons] at hnodup
    cases names with
    | nil =>
      unfold bindParams
      exact .pure h trivial
    | cons name names =>
      have hmint : D.Safe Γ nobody (onSession (SessionM.mint (Symbol.mint name))) s
          fun _ S => S = s.engine.store :=
        Ends.of_eq_ok rfl ⟨h.functions rfl rfl rfl rfl, .refl h.store_valid, rfl, rfl⟩
      unfold bindParams
      apply hmint.bind
      intro symbol s₁ hs₁ _ hstore
      rw [← hstore] at hcells
      have hbind : D.Safe Γ nobody
          (onEngine (EngineM.onStore (StoreM.bind (.cell c) (.param ⟨symbol, .type⟩) none))) s₁
          fun _ S => s₁.engine.store.Binds c (.param ⟨symbol, .type⟩) S :=
        onEngine_safe hs₁ (bind_param_keeps hD hs₁.governs hcells.1.1 hcells.1.2)
      apply hbind.bind
      intro _ s₂ hs₂ hproceeds hbinds
      apply ih hs₂ hnodup.2
      intro d hd
      obtain ⟨hfair, hvalue⟩ := hcells.2 d hd
      have hne : d ≠ c := fun heq => hnodup.1 (heq ▸ hd)
      refine ⟨hfair.proceeds hproceeds, ?_⟩
      rw [hbinds.value_eq, hvalue, Ty.mapCells_cell, Ty.assign, if_neg hne]

/-- A function of the module can be given a signature, if its type is that of a function. -/
theorem recordScheme_safe {t : Ty} (h : D.Proper Γ nobody s)
    (hf : Γ.module.functions.get? g = some f) (ht : s.engine.store.ownsAll t = true)
    (hfn : s.engine.store.Functional t)
    (hrs : ∀ r ∈ rs, ∀ a ∈ r.args, s.engine.store.ownsAll a = true) :
    D.Safe Γ nobody (recordScheme Γ g t rs) s fun _ _ => True := by
  obtain ⟨as, r, ps, rels, hmono⟩ := hfn
  unfold recordScheme
  simp only [hf]
  apply (resolve_safe h ht).bind
  intro mono s₁ hs₁ _ hkept
  apply (resolveRelations_safe hs₁ fun r hr a ha => hkept.2.ownsAll (hrs r hr a ha)).bind
  intro rels' s₂ hs₂ _ _
  rw [hkept.1, hmono]
  exact Ends.modify ⟨hs₂.functions rfl rfl rfl rfl, .refl hs₂.store_valid, trivial, rfl⟩

theorem recordSchemes_safe {rss : List (List TypeRelation)} (h : D.Proper Γ nobody s)
    (hspans : ∀ span ∈ spans, ∃ f, Γ.module.functions.get? span.function = some f)
    (hts : ∀ t ∈ ts, s.engine.store.ownsAll t = true ∧ s.engine.store.Functional t)
    (hrss : ∀ rs ∈ rss, ∀ r ∈ rs, ∀ a ∈ r.args, s.engine.store.ownsAll a = true) :
    D.Safe Γ nobody (recordSchemes Γ spans ts rss) s fun _ _ => True := by
  fun_induction recordSchemes Γ spans ts rss generalizing s with
  | case1 span spans t ts rs rss ih =>
    rw [forall_mem_cons] at hspans hts hrss
    obtain ⟨f, hf⟩ := hspans.1
    apply (recordScheme_safe h hf hts.1.1 hts.1.2 hrss.1).bind
    intro _ s₁ hs₁ hproceeds _
    have hlater := hproceeds.evolves.later
    apply ih hs₁ hspans.2
    · exact fun t ht => ⟨hlater.ownsAll (hts.2 t ht).1, (hts.2 t ht).2.extends hlater⟩
    · exact fun rs hrs r hr a ha => hlater.ownsAll (hrss.2 rs hrs r hr a ha)
  | case2 => exact .pure h trivial

/-- The cells that are reached from resolved types that are all right are different, free and all
right. -/
theorem reached_fair {monos : List Ty} {relations : List (Instance × TypeRelation)}
    {free : List Cell} (hS : S.Valid) (hmonos : ∀ t ∈ monos, D.Fair S t ∧ S.resolve t = t)
    (hrelations : ∀ x ∈ relations, ∀ t ∈ x.2.args, D.Fair S t ∧ S.resolve t = t)
    (h : reachable (cellsOf monos) relations = .ok free) :
    free.Nodup ∧ ∀ c ∈ free, D.Fair S (.cell c) ∧ S.value c = .cell c := by
  have hreaches := (sweeps_of_ok h).advances
  have hcells {ts : List Ty} (hts : ∀ t ∈ ts, D.Fair S t ∧ S.resolve t = t) {c : Cell}
      (hc : c ∈ cellsOf ts) : D.Fair S (.cell c) ∧ S.value c = .cell c := by
    obtain ⟨t, ht, hc⟩ := Ty.mem_cellsOf.1 hc
    obtain ⟨hfair, hresolve⟩ := hts t ht
    exact hfair.cell_of_mem hS (by rwa [hresolve])
  refine ⟨hreaches.nodup (nodup_firstAppearances _ _), fun c hc => ?_⟩
  cases hreaches.connected c hc with
  | given hc => exact hcells hmonos hc
  | across hx _ _ hc => exact hcells (hrelations _ hx) hc

/-- Functions whose types are all right can be generalised, unless an instance is left that belongs
to none of them or connects to nothing. -/
theorem generalise_safe (hD : D.Coherent Γ.registry) (h : D.Proper Γ nobody s)
    (hnodup : (spans.map Span.function).Nodup)
    (hspans : ∀ span ∈ spans, ∃ f, Γ.module.functions.get? span.function = some f)
    (htypes : ∀ span ∈ spans, ∃ t, s.provisional.get? span.function = some t ∧
      D.Fair s.engine.store t ∧ s.engine.store.Functional t) :
    D.Safe Γ nobody (generalise Γ spans mark) s fun _ _ => True := by
  have hvalid := h.store_valid
  have hruns : ∀ i ∈ s.engine.pendingSince mark, D.Runs Γ.registry s.engine.store i :=
    fun i hi => h.governs.runs_pending (mem_filter.1 hi).1
  unfold generalise
  apply Safe.get_bind
  apply (checkOwned_safe hD h hruns).bind_run
  intro _ s₁ hchecked _ _ _
  obtain ⟨rfl, -⟩ := checkOwned_eq_ok hchecked
  apply (detach_safe h (filter_sublist.map _)).bind_run
  intro _ s₂ hdetach hs₂ hproceeds₂ _
  have hleaves := detach_pendingSince h.governs.valid hdetach
  have hprovisional : s₂.provisional = s₁.provisional := by rw [hleaves.rest_eq]
  have htaken : ∀ g ∈ spans.map Span.function, ∃ t, s₂.provisional.get? g = some t ∧
      s₂.engine.store.ownsAll t = true := by
    intro g hg
    obtain ⟨span, hspan, rfl⟩ := mem_map.1 hg
    obtain ⟨t, hget, hfair, -⟩ := htypes span hspan
    exact ⟨t, hprovisional ▸ hget, (hfair.proceeds hproceeds₂).1⟩
  apply (takeProvisional_safe hs₂ hnodup htaken).bind_run
  intro monos s₃ htake hs₃ hproceeds₃ _
  obtain ⟨htakes, -, hmonos⟩ := takeProvisional_takes hs₂.store_valid htake
  have hruns₃ : ∀ i ∈ s₁.engine.pendingSince mark, D.Runs Γ.registry s₃.engine.store i :=
    fun i hi => ((hruns i hi).proceeds hproceeds₂).proceeds hproceeds₃
  apply (relationsOf_safe hs₃ hruns₃).bind_run
  intro relations s₄ hrelations hs₄ hproceeds₄ _
  obtain ⟨hrelations, hlooks⟩ := relationsOf_looks hs₃.store_valid hrelations
  -- Up to here only paths in the store were shortened.
  have hkept : s₁.engine.store.Kept s₄.engine.store :=
    (hleaves.kept.trans htakes.kept).trans hlooks.kept
  have hresolved {t : Ty} (ht : D.Fair s₁.engine.store t) :
      D.Fair s₄.engine.store (s₁.engine.store.resolve t) ∧
        s₄.engine.store.resolve (s₁.engine.store.resolve t) = s₁.engine.store.resolve t := by
    refine ⟨(ht.resolve hvalid).proceeds hkept.proceeds, ?_⟩
    rw [hkept.view.resolve_eq, hvalid.resolve_resolve]
  have hmono : ∀ u ∈ monos, (D.Fair s₄.engine.store u ∧ s₄.engine.store.resolve u = u) ∧
      s₄.engine.store.Functional u := by
    intro u hu
    rw [hmonos, map_map] at hu
    obtain ⟨span, hspan, rfl⟩ := mem_map.1 hu
    obtain ⟨t, hget, hfair, hfn⟩ := htypes span hspan
    simp only [Function.comp_apply, hprovisional, hget, Option.getD_some,
      hleaves.kept.view.resolve_eq]
    refine ⟨hresolved hfair, ?_⟩
    obtain ⟨as, r, ps, rs, hfn⟩ := hfn
    exact ⟨as, r, ps, rs, (hresolved hfair).2.trans hfn⟩
  have hslots : ∀ rs ∈ relations, ∀ r ∈ rs, ∀ u ∈ r.args,
      D.Fair s₄.engine.store u ∧ s₄.engine.store.resolve u = u := by
    intro rs hrs r hr u hu
    rw [hrelations] at hrs
    obtain ⟨span, -, rfl⟩ := mem_map.1 hrs
    obtain ⟨i, hi, rfl⟩ := mem_map.1 hr
    rw [resolvedIn_kept (hleaves.kept.trans htakes.kept)] at hu
    obtain ⟨a, ha, rfl⟩ := mem_map.1 hu
    exact hresolved ((hruns i (mem_filter.1 hi).1).slots a ha)
  extract_lets owned
  cases hreach : reachable (cellsOf monos) (owned.zip relations.flatten) with
  | error x =>
    obtain ⟨i, r⟩ := x
    obtain ⟨_, _, hsweeps⟩ := sweeps_of_error hreach
    obtain ⟨hmem, -⟩ := of_mem_zip (hsweeps.advances.sublist.subset (.head _))
    obtain ⟨g, -, hi⟩ := mem_flatMap.1 hmem
    obtain ⟨site, horigin, hsite⟩ := (hruns i (mem_filter.1 hi).1).origin
    apply complain_safe hD
    exact ⟨⟨site, horigin, hsite⟩, forall_mem_nil _,
      Issue.fits_of_holes 1 (by cbv) rfl⟩
  | ok free =>
    have hzip : ∀ x ∈ owned.zip relations.flatten, ∀ u ∈ x.2.args,
        D.Fair s₄.engine.store u ∧ s₄.engine.store.resolve u = u := by
      intro x hx
      obtain ⟨rs, hrs, hr⟩ := mem_flatten.1 (of_mem_zip hx).2
      exact hslots rs hrs x.2 hr
    obtain ⟨hfree, hcells⟩ :=
      reached_fair hs₄.store_valid (fun u hu => (hmono u hu).1) hzip hreach
    apply (bindParams_safe hD hs₄ hfree hcells).bind
    intro _ s₅ hs₅ hproceeds₅ _
    have hlater := hproceeds₅.evolves.later
    apply recordSchemes_safe hs₅ hspans
    · exact fun u hu => ⟨hlater.ownsAll (hmono u hu).1.1.1, (hmono u hu).2.extends hlater⟩
    · exact fun rs hrs r hr u hu => hlater.ownsAll (hslots rs hrs r hr u hu).1.1

theorem announce_safe (h : D.Proper Γ nobody s)
    (hgs : ∀ g ∈ gs, Γ.declared? g ≠ none ∨ s.schemes.contains g = true) :
    D.Safe Γ nobody (announce Γ gs) s fun _ _ => True := by
  induction gs generalizing s with
  | nil => exact .pure h trivial
  | cons g gs ih =>
    rw [forall_mem_cons] at hgs
    have hrest {s₁ : State} (hs₁ : D.Proper Γ nobody s₁)
        (hschemes : ∀ g' ∈ gs, Γ.declared? g' ≠ none ∨ s₁.schemes.contains g' = true)
        (line : String) :
        D.Safe Γ nobody (do tell Γ line; announce Γ gs) s₁ fun _ _ => True := by
      apply (tell_safe hs₁).bind_run
      intro _ s₂ htell hs₂ _ _
      apply ih hs₂
      rw [tell_eq_ok htell]
      exact hschemes
    unfold announce
    cases hd : Γ.declared? g with
    | none =>
      simp only
      apply Safe.get_bind
      have hcontains : (s.schemes.get? g).isSome = true := hgs.1.resolve_left (absurd hd)
      obtain ⟨sig, hget⟩ := Option.isSome_iff_exists.1 hcontains
      simp only [hget]
      exact hrest h hgs.2 _
    | some sig =>
      simp only
      apply Safe.modify_bind rfl rfl
      apply Safe.get_bind
      simp only [Table.get?_insert, if_true]
      refine hrest ?_ ?_ _
      · exact h.functions rfl rfl rfl rfl
      · intro g' hg'
        apply (hgs.2 g' hg').imp_right
        intro hcontains
        simp [Table.contains_insert, hcontains]

/-- A group can be closed, if the types of its functions are all right. From where nothing more can
be decided, the store goes on within what is all right. -/
theorem closeGroup_safe (hD : D.Coherent Γ.registry) (h : D.Proper Γ nobody s)
    (hspans : spans.map Span.function = group) (hnodup : group.Nodup)
    (hgroup : ∀ g ∈ group, ∃ f, Γ.module.functions.get? g = some f)
    (htypes : ∀ g ∈ Γ.undeclared group, ∃ t, s.provisional.get? g = some t ∧
      D.Fair s.engine.store t ∧ s.engine.store.Functional t) :
    D.Safe Γ nobody (closeGroup Γ group spans mark) s fun _ S =>
      ∀ e, EngineM.propagate Γ.registry s.engine = .ok () e → e.store.Proceeds D.part S := by
  unfold closeGroup
  have hpropagate : D.Safe Γ nobody (onEngine (EngineM.propagate Γ.registry)) s
      fun _ _ => True := by
    apply onEngine_safe h
    apply (propagate_keeps hD h.governs).mono
    exact fun _ _ hkeeps => ⟨hkeeps.1, hkeeps.2.1, trivial⟩
  apply hpropagate.bind_run
  intro _ s₁ hrun hs₁ hproceeds₁ _
  obtain ⟨hrun, hstate₁⟩ := onEngine_eq_ok hrun
  apply (dischargeDeclared_safe hs₁).bind_run
  intro _ s₂ hdischarge hs₂ hproceeds₂ _
  have hleaves := dischargeDeclared_leaves hs₁.governs.valid hdischarge
  have hprovisional : s₂.provisional = s.provisional := by rw [hleaves.rest_eq, hstate₁]
  have hproceeds := hproceeds₁.trans hproceeds₂
  generalize hown : (spans.filter fun s => (Γ.undeclared group).contains s.function) = own
  have hmem {g : Global} : g ∈ own.map Span.function ↔ g ∈ Γ.undeclared group := by
    rw [← hown]
    exact function_mem_undeclared hspans
  have hnodup' : (own.map Span.function).Nodup := by
    rw [← hspans] at hnodup
    rw [← hown]
    exact hnodup.sublist (filter_sublist.map _)
  have hown_group : ∀ span ∈ own, ∃ f, Γ.module.functions.get? span.function = some f :=
    fun span hspan => hgroup _ (mem_undeclared.1 (hmem.1 (mem_map_of_mem hspan))).1
  have hown_types : ∀ span ∈ own, ∃ t, s₂.provisional.get? span.function = some t ∧
      D.Fair s₂.engine.store t ∧ s₂.engine.store.Functional t := by
    intro span hspan
    obtain ⟨t, hget, hfair, hfn⟩ := htypes _ (hmem.1 (mem_map_of_mem hspan))
    rw [hprovisional]
    exact ⟨t, hget, hfair.proceeds hproceeds, hfn.extends hproceeds.evolves.later⟩
  apply (generalise_safe hD hs₂ hnodup' hown_group hown_types).bind_run
  intro _ s₃ hgen hs₃ hproceeds₃ _
  have hgen := generalise_generalises hnodup' hs₂.governs.valid hgen
  have hdone : ∀ g ∈ group, Γ.declared? g ≠ none ∨ s₃.schemes.contains g = true := by
    intro g hg
    cases hd : Γ.declared? g with
    | some sig => exact .inl (Option.some_ne_none sig)
    | none =>
      obtain ⟨span, hspan, rfl⟩ := mem_map.1 (hmem.2 (mem_undeclared.2 ⟨hg, hd⟩))
      obtain ⟨t, -, ⟨f, sig, -, hsig, -⟩, -⟩ := hgen.recorded span hspan
      exact .inr (Option.isSome_iff_exists.2 ⟨sig, hsig⟩)
  apply (announce_safe hs₃ hdone).bind
  intro _ s₄ hs₄ hproceeds₄ _
  refine Ends.modify ⟨hs₄.functions rfl rfl rfl rfl, .refl hs₄.store_valid, ?_, rfl⟩
  intro e he
  rw [hrun] at he
  cases he
  exact (hproceeds₂.trans hproceeds₃).trans hproceeds₄

section

variable {solve : Global → InferM Unit}

/-- Typing the body of a function keeps to the discipline, and what is written on the function is
well formed. If the function has a provisional type, this comes out as a function type. -/
theorem typeBody_safe (hfits : D.Fits Γ mentioned) (hf : Γ.module.functions.get? g = some f)
    (hadmits : D.Admits f.toExpr) (hm : ∀ r ∈ f.toExpr.mentions, mentioned r)
    (h : D.Proper Γ mentioned s)
    (hg : ∀ t, s.provisional.get? g = some t → D.Fair s.engine.store t ∧ Builds D.part f.toExpr) :
    D.Safe Γ mentioned (typeBody Γ solve g) s fun _ S =>
      WellFormed Γ.module (s.scope ++ f.typeParams) f.toExpr.written ∧
        ∀ t, s.provisional.get? g = some t → S.Functional t := by
  unfold typeBody
  simp only [hf]
  apply Safe.get_bind
  have henv : D.FairEnv s.engine.store [] := forall_mem_nil _
  have hmentions : ∀ r ∈ f.toExpr.mentions, Known Γ s r := fun r hr => h.known r (hm r hr)
  have hgrows : Grows s (endState (infer Γ solve f.toExpr []) s) :=
    infer_grows h.governs.valid hmentions []
  apply (infer_conforms hfits f.toExpr hadmits hm [] s h henv).bind_run
  intro t s₁ hinfer hs₁ hproceeds ht
  rw [endState_of_ok hinfer] at hgrows
  have hwell := infer_fn_wellFormed hfits hadmits hm h henv hinfer
  apply Safe.get_bind
  apply Safe.get_bind
  rw [hgrows.provisional_eq]
  cases hget : s.provisional.get? g with
  | none => exact .pure hs₁ ⟨hwell, fun t ht => absurd ht.symm (Option.some_ne_none t)⟩
  | some u =>
    obtain ⟨hfair, hbuilds⟩ := hg u hget
    have hunify := unify_safe hfits.coherent hs₁ hadmits.self (hfair.proceeds hproceeds)
      (ht.2 hbuilds)
    apply hunify.bind
    intro _ s₂ hs₂ _ hagrees
    apply Safe.pure hs₂
    refine ⟨hwell, fun t' ht' => ?_⟩
    cases ht'
    obtain ⟨ts, b, s₃, s₄, s₅, s₆, -, -, -, -, -, rfl, -⟩ := infer_fn_ok_iff.1 hinfer
    exact hagrees.functional

structure Typable (D : Discipline) (Γ : Context) (mentioned : Global → Prop) (s : State)
    (g : Global) (f : Function) : Prop where
  function : Γ.module.functions.get? g = some f
  admits : D.Admits f.toExpr
  mentions : ∀ r ∈ f.toExpr.mentions, mentioned r
  provisional : ∀ t, s.provisional.get? g = some t →
    D.Fair s.engine.store t ∧ Builds D.part f.toExpr

theorem typeBodies_safe (hfits : D.Fits Γ mentioned) {gs : List Global}
    (hgs : ∀ g ∈ gs, ∃ f, D.Typable Γ mentioned s g f) (h : D.Proper Γ mentioned s) :
    D.Safe Γ mentioned (typeBodies Γ solve gs) s fun _ S => ∀ g ∈ gs,
      (∀ f, Γ.module.functions.get? g = some f →
        WellFormed Γ.module (s.scope ++ f.typeParams) f.toExpr.written) ∧
      ∀ t, s.provisional.get? g = some t → S.Functional t := by
  induction gs generalizing s with
  | nil => exact .pure h fun g hg => absurd hg not_mem_nil
  | cons g gs ih =>
    rw [forall_mem_cons] at hgs
    obtain ⟨⟨f, hf⟩, hgs⟩ := hgs
    unfold typeBodies
    apply Ends.bind_run
      (typeBody_safe hfits hf.function hf.admits hf.mentions h hf.provisional)
    rintro span s₁ hrun ⟨hs₁, hproceeds, hfirst, hscope⟩
    have hprovisional : s₁.provisional = s.provisional := by
      have hknown : ∀ f', Γ.module.functions.get? g = some f' →
          ∀ r ∈ f'.body.mentions, Known Γ s r := by
        intro f' hf' r hr
        cases hf.function.symm.trans hf'
        exact h.known r (hf.mentions r hr)
      exact (typeBody_grows h.governs.valid hknown hrun).1.provisional_eq
    have hgs₁ : ∀ g' ∈ gs, ∃ f', D.Typable Γ mentioned s₁ g' f' := by
      intro g' hg'
      obtain ⟨f', hf'⟩ := hgs g' hg'
      refine ⟨f', { hf' with provisional := fun t ht => ?_ }⟩
      rw [hprovisional] at ht
      exact (hf'.provisional t ht).imp_left fun hfair => hfair.proceeds hproceeds
    apply Ends.bind (ih hgs₁ hs₁)
    rintro spans s₂ ⟨hs₂, hproceeds₂, hothers, hscope₂⟩
    rw [hprovisional, hscope] at hothers
    refine .pure ⟨hs₂, hproceeds.trans hproceeds₂, ?_, hscope₂.trans hscope⟩
    refine forall_mem_cons.2 ⟨⟨fun f' hf' => ?_, fun t ht => ?_⟩, hothers⟩
    · cases hf.function.symm.trans hf'
      exact hfirst.1
    · exact (hfirst.2 t ht).extends hproceeds₂.evolves.later

end

def FairProvisional (D : Discipline) (s : State) : Prop :=
  ∀ g t, s.provisional.get? g = some t → D.Fair s.engine.store t

structure Opened (D : Discipline) (Γ : Context) (s s' : State) : Prop where
  proper : D.Proper Γ nobody s'
  proceeds : s.engine.store.Proceeds D.part s'.engine.store
  provisional : D.FairProvisional s'
  scope_eq : s'.scope = s.scope

theorem startProvisional_ends (h : D.Proper Γ nobody s) (hp : D.FairProvisional s) :
    Ends (startProvisional gs) s (fun _ s' => D.Opened Γ s s')
      fun f s' => D.stops f s'.engine.store := by
  induction gs generalizing s with
  | nil => exact .pure ⟨h, .refl h.store_valid, hp, rfl⟩
  | cons g gs ih =>
    unfold startProvisional
    apply Ends.bind_run (fresh_safe h)
    rintro t s₁ hrun ⟨hs₁, hproceeds, ht, hscope⟩
    obtain ⟨-, hstate⟩ := onEngine_eq_ok hrun
    apply Ends.modify_bind
    have hs₂ : D.Proper Γ nobody { s₁ with provisional := s₁.provisional.insert g t } :=
      hs₁.functions rfl rfl rfl rfl
    apply (ih hs₂ ?_).mono
    · intro _ s' h'
      exact ⟨h'.proper, hproceeds.trans h'.proceeds, h'.provisional, h'.scope_eq.trans hscope⟩
    · intro g' t' hget
      rw [Table.get?_insert] at hget
      split at hget
      · cases hget
        exact ht
      · rw [hstate] at hget
        exact (hp g' t' hget).proceeds hproceeds

theorem openGroup_ends (h : D.Proper Γ nobody s) (hp : D.FairProvisional s) :
    Ends (openGroup Γ group) s (fun _ s' => D.Opened Γ s s')
      fun f s' => D.stops f s'.engine.store := by
  unfold openGroup
  apply Ends.bind_run (tell_safe h)
  rintro _ s₁ htell ⟨hs₁, hproceeds, hstore, hscope⟩
  have hp₁ : D.FairProvisional s₁ := by
    intro g t hget
    rw [hstore]
    rw [tell_eq_ok htell] at hget
    exact hp g t hget
  apply Ends.modify_bind
  have hs₂ : D.Proper Γ nobody { s₁ with solving := s₁.solving ++ group } :=
    hs₁.functions rfl rfl rfl rfl
  apply (startProvisional_ends hs₂ hp₁).mono
  intro _ s' h'
  exact ⟨h'.proper, hproceeds.trans h'.proceeds, h'.provisional, h'.scope_eq.trans hscope⟩

structure Suits (D : Discipline) (Γ : Context) : Prop where
  coherent : D.Coherent Γ.registry
  operators : ∀ name sig, Γ.operators.table.get? name = some sig → D.AllowsSignature sig
  functions : ∀ g f, Γ.module.functions.get? g = some f → D.Admits f.toExpr
  builds : ∀ g f, Γ.module.functions.get? g = some f → Γ.declared? g = none →
    Builds D.part f.toExpr

namespace Suits

theorem slots (h : D.Suits Γ) (hf : Γ.module.functions.get? g = some f) {r : TypeRelation}
    (hr : r ∈ f.relations) : (∀ a ∈ r.args, D.Allows a) ∧ D.setting r.name r.attrs := by
  have hadmits := h.functions g f hf
  refine ⟨fun a ha => hadmits.written ?_, hadmits.relations _ (Expr.self_mem_parts _) r hr⟩
  exact mem_append_right _ (mem_flatMap.2 ⟨r, hr, ha⟩)

theorem fits (h : D.Suits Γ) : D.Fits Γ mentioned where
  coherent := h.coherent
  operators := h.operators
  declared g sig _ hd := by
    obtain ⟨f, hf, hsig⟩ := Option.bind_eq_some_iff.1 hd
    obtain ⟨hargs, hret, hrelations⟩ := Function.declared?_eq_some hsig
    have hadmits := h.functions g f hf
    constructor
    · intro a ha
      rw [hargs] at ha
      exact hadmits.written (mem_append_left _ (mem_append_left _ ha))
    · apply hadmits.written
      exact mem_append_left _ (mem_append_right _ (by simp [hret]))
    · intro r hr
      rw [hrelations] at hr
      exact (h.slots hf hr).1
    · intro r hr
      rw [hrelations] at hr
      exact (h.slots hf hr).2

end Suits

/-- A state between two groups: all that cells stand for and all signatures recorded so far are all
right, and no type parameter is in scope. -/
structure Upright (D : Discipline) (Γ : Context) (s : State) : Prop where
  proper : D.Proper Γ nobody s
  cells : ∀ c, s.engine.store.Holds D.part (.cell c)
  schemes : ∀ g sig, s.schemes.get? g = some sig → D.AllowsSignature sig
  scope_eq : s.scope = []

/-- A group has been typed in keeping with the discipline: what is written on its functions is well
formed, and the types at which they were started have come out all right. -/
structure Completes (D : Discipline) (Γ : Context) (group : List Global) (s s' : State) : Prop where
  upright : D.Upright Γ s'
  written : ∀ g ∈ group, ∀ f, Γ.module.functions.get? g = some f →
    WellFormed Γ.module f.typeParams f.toExpr.written
  provisional : ∀ opened, openGroup Γ group s = .ok () opened → ∀ g t,
    opened.provisional.get? g = some t → D.Fair s'.engine.store t

/-- The signature that a function without a declared one is given is all right, if its type and the
instances that belong to it are. -/
theorem allows_recorded (hsuits : D.Suits Γ) (hcloses : Closes Γ group spans mark s e s')
    (he : D.Governs Γ.registry e) (hproceeds : e.store.Proceeds D.part s'.engine.store)
    {span : Span} (hspan : span ∈ spans) (hd : Γ.declared? span.function = none)
    (htype : ∀ t, s.provisional.get? span.function = some t → D.Fair s'.engine.store t)
    {sig : Signature} (hsig : s'.schemes.get? span.function = some sig) :
    D.AllowsSignature sig := by
  obtain ⟨t, hget, ⟨f, sig', hf, hsig', ⟨ps, rs, hfunc⟩, hrelations, -⟩, hclosed⟩ :=
    hcloses.recorded span hspan hd
  cases hsig'.symm.trans hsig
  have hall : D.Allows (.func sig.args sig.ret ps rs) := by
    rw [← hfunc]
    exact ⟨(htype t hget).2, hclosed⟩
  have hchild {u : Ty} (hu : u ∈ (Ty.func sig.args sig.ret ps rs).children) : D.Allows u :=
    ⟨hall.1.child hu, (Ty.cellOccurrences_eq_nil_iff.1 hall.2).2 u hu⟩
  have hrelation : ∀ r ∈ sig.relations, (∀ a ∈ r.args, D.Allows a) ∧ D.setting r.name r.attrs := by
    intro r hr
    rw [hrelations, mem_append] at hr
    rcases hr with hr | hr
    · exact hsuits.slots hf hr
    · obtain ⟨i, hi, rfl⟩ := mem_map.1 hr
      obtain ⟨hi, hkept⟩ := mem_filter.1 hi
      rw [Bool.and_eq_true, Bool.not_eq_true'] at hkept
      have hruns := (he.runs i hi).proceeds hproceeds
      refine ⟨fun a ha => ?_, hruns.setting⟩
      obtain ⟨u, hu, rfl⟩ := mem_map.1 ha
      exact ⟨(hruns.slots u hu).2, hcloses.complete span hspan hd i hi hkept.1 hkept.2 u hu⟩
  constructor
  · exact fun a ha => hchild (by simp [ha])
  · exact hchild (by simp)
  · exact fun r hr => (hrelation r hr).1
  · exact fun r hr => (hrelation r hr).2

theorem typeGroup_ends (hsuits : D.Suits Γ) {solve : Global → InferM Unit}
    {after : List (List Global)} (hready : Ready before s)
    (hgroups : Γ.module.groups = before ++ group :: after) (h : D.Upright Γ s) :
    Ends (typeGroup Γ solve group) s (fun _ s' => D.Completes Γ group s s')
      fun f s' => D.stops f s'.engine.store := by
  have hp : D.FairProvisional s := by
    intro g t hget
    rw [hready.provisional_eq] at hget
    cases hget
  have hmembers : ∀ g ∈ group, ∃ f, Γ.module.functions.get? g = some f := by
    intro g hg
    apply Module.get?_of_mem_groups
    rw [hgroups]
    exact mem_flatten.2 ⟨group, by simp, hg⟩
  have hnodup := Module.groups_nodup hgroups
  unfold typeGroup
  apply Ends.get_bind
  apply (openGroup_ends h.proper hp).bind_run
  intro _ opened hopen hopened
  have hopens := openGroup_opens h.proper.store_valid hopen
  -- The bodies may mention whatever is known when the group is opened.
  have hstart : D.Proper Γ (Known Γ opened) opened := by
    refine { hopened.proper with provisional := ?_, schemes := ?_, known := fun g hg => hg }
    · exact fun g t _ => hopened.provisional g t
    · intro g sig _ hsig
      rw [hopens.schemes_eq] at hsig
      exact h.schemes g sig hsig
  have htypable : ∀ g ∈ group, ∃ f, D.Typable Γ (Known Γ opened) opened g f := by
    intro g hg
    obtain ⟨f, hf⟩ := hmembers g hg
    refine ⟨f, hf, hsuits.functions g f hf, fun r hr => hready.known hgroups hopens hg hf hr, ?_⟩
    intro t ht
    exact ⟨hopened.provisional g t ht, hsuits.builds g f hf (hopens.declared?_eq_none hready ht)⟩
  apply Ends.bind_run (typeBodies_safe hsuits.fits htypable hstart)
  rintro spans typed hrun ⟨htyped, hproceeds, hbodies, hscope⟩
  obtain ⟨hgrows, hfunctions, hchained⟩ := typeBodies_grows hopened.proper.governs.valid
    (fun g hg f hf r hr => hready.known hgroups hopens hg hf hr) hrun
  rw [hopens.rests.added_eq] at hchained
  have htypes : ∀ g ∈ Γ.undeclared group, ∃ t, typed.provisional.get? g = some t ∧
      D.Fair typed.engine.store t ∧ typed.engine.store.Functional t := by
    intro g hg
    rw [hgrows.provisional_eq]
    obtain ⟨t, ht⟩ := Option.ne_none_iff_exists'.1 (hopens.started g hg)
    exact ⟨t, ht, (hopened.provisional g t ht).proceeds hproceeds,
      (hbodies g (mem_undeclared.1 hg).1).2 t ht⟩
  apply Ends.mono_run (closeGroup_safe hsuits.coherent (htyped.mono fun _ hg => hg.elim)
    hfunctions hnodup hmembers htypes)
  rintro _ s' hrun ⟨hs', hproceeds', hlast, hscope'⟩
  obtain ⟨e, hcloses⟩ := closeGroup_closes htyped.governs.valid hchained hfunctions hnodup hrun
  have hfair : ∀ g t, opened.provisional.get? g = some t → D.Fair s'.engine.store t :=
    fun g t ht => ((hopened.provisional g t ht).proceeds hproceeds).proceeds hproceeds'
  have hscopes : s'.scope = [] ∧ opened.scope = [] :=
    ⟨by rw [hscope', hscope, hopened.scope_eq, h.scope_eq], by rw [hopened.scope_eq, h.scope_eq]⟩
  have hcells (c : Cell) : s'.engine.store.Holds D.part (.cell c) :=
    ((hopened.proceeds.trans hproceeds).trans hproceeds').within.holds _ (h.cells c)
  refine ⟨⟨hs', hcells, fun g sig hsig => ?_, hscopes.1⟩, fun g hg f hf => ?_,
    fun opened' hopen' => ?_⟩
  · by_cases hg : g ∈ group
    · cases hd : Γ.declared? g with
      | some declared =>
        cases (hcloses.declared g hg _ hd).symm.trans hsig
        have hfits : D.Fits Γ (fun _ => True) := hsuits.fits
        exact hfits.declared g sig trivial hd
      | none =>
        obtain ⟨span, hspan, rfl⟩ := mem_map.1 (hfunctions.symm ▸ hg)
        have he := (htyped.governs.steps hsuits.coherent
          (EngineM.propagate_eq_ok hcloses.propagated)).1
        apply allows_recorded hsuits hcloses he (hlast e hcloses.propagated) hspan hd ?_ hsig
        rw [hgrows.provisional_eq]
        exact hfair span.function
    · rw [hcloses.others g hg, hgrows.schemes_eq, hopens.schemes_eq] at hsig
      exact h.schemes g sig hsig
  · have hwell := (hbodies g hg).1 f hf
    rwa [hscopes.2, nil_append] at hwell
  · cases hopen.symm.trans hopen'
    exact hfair

end Discipline

end TensorTyping
