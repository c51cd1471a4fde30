import TensorTyping.Proofs.Inference.RunConduct

/-!
# The types of a module that checks fit together

When a module checks, the types and type arguments that its syntax is marked with obey the typing
rules at every node. Types count as the same when they have the same structure, up to sizes that
agree and up to the relations of function types.

A function that declares no signature may be used by the functions of its own group before it has
one. It is then used at the types of the signature that it gets, and without type arguments. All
other uses of functions are at instances of their signatures.

A projection out of a type that never becomes known is left to the callers: the relation is part of
the signature, or a fully annotated function of the group promises it.
-/
namespace TensorTyping

open List

variable {t u : Ty} {index : Index} {sig : Signature} {ts : List Ty}

/-- The index that a value names picks a field. -/
theorem Rule.getElem?_of_project (h : project ts index.toValue = .ok t) :
    0 ≤ index.toInt ∧ ts[index.toInt.toNat]? = some t := by
  have hnumber : number index.toValue = .ok (.exact index.toInt) := by
    cases index with
    | int n => rfl
    | bool b => cases b <;> rfl
  have hwhole : wholeNumber index.toValue = .ok index.toInt := by
    cases index <;> rfl
  unfold project at h
  rw [hnumber, hwhole] at h
  simp only [bind, Except.bind] at h
  split at h
  · next hrange =>
    rw [Bool.and_eq_true] at hrange
    have hge : ((0 : Int) : Rat) ≤ (index.toInt : Rat) := by simpa [Numeral.atLeast] using hrange.1
    refine ⟨by exact_mod_cast hge, ?_⟩
    unfold slot at h
    split at h
    · next u hu =>
      cases h
      exact hu
    · cases h
  · cases h

/-- When the relation of a projection holds, its first slot is a tuple type and the field agrees
with its second. -/
theorem Instance.Satisfied.projection {s : Store} {i : Instance} (h : i.Satisfied .standard s)
    (hrelation : i.relation = Inference.projection index t u)
    (hattrs : i.attrs = i.relation.attrs.merge .empty) :
    ∃ ts v, s.resolve t = .tuple ts ∧ 0 ≤ index.toInt ∧ ts[index.toInt.toNat]? = some v ∧
      v.agree (s.resolve u) = true := by
  obtain ⟨entry, slot, v, arg, hentry, -, hverdict, harg, hagree⟩ := h
  rw [hrelation] at hentry hverdict harg hattrs
  obtain rfl : entry = ⟨.projection, some 2⟩ := by
    cases hentry
    rfl
  obtain ⟨hconclude, rfl⟩ := Rule.verdict_eq_holds.1 hverdict
  obtain rfl : arg = u := by
    cases harg
    rfl
  rw [hattrs] at hconclude
  have hindex : ((Inference.projection index t arg).attrs.merge .empty).get? "index" =
      some index.toValue := rfl
  have hproject : (do Rule.project (← Rule.fields (s.resolve t)) index.toValue) = .ok v := by
    unfold Rule.conclude at hconclude
    simp only [hindex] at hconclude
    exact hconclude
  cases ht : s.resolve t with
  | tuple ts =>
    rw [ht] at hproject
    obtain ⟨hge, hget⟩ := Rule.getElem?_of_project hproject
    exact ⟨ts, v, rfl, hge, hget, hagree⟩
  | _ =>
    rw [ht] at hproject
    cases hproject

/-- What is known of cells binds no parameters. -/
def Store.Mono (s : Store) : Prop := ∀ c, (s.value c).Mono

theorem Store.Mono.resolve {s : Store} (h : s.Mono) (ht : t.Mono) : (s.resolve t).Mono :=
  holds_of_values Ty.shallow_bindsNone h ht

/-- What is allowed of a signature is what the typing rules ask for. -/
theorem Discipline.AllowsSignature.fit (h : (Discipline.keeping Ty.bindsNone).AllowsSignature sig) :
    sig.Fit Ty.bindsNone where
  args := h.args
  ret := h.ret
  toTy hp := by
    refine .intro hp fun u hu => ?_
    simp only [Signature.toTy, Ty.mem_children_func] at hu
    rcases hu with hu | rfl | ⟨r, hr, hu⟩
    · exact (h.args u hu).1
    · exact h.ret.1
    · exact (h.slots r hr u hu).1

namespace Inference

/-- No node and no bound variable is used twice in the functions of a module, only functions that
declare a signature have type parameters, and the types written are simple. Nodes and symbols are
numbered apart. -/
@[mk_iff]
structure Tidy (m : Module) : Prop where
  serials_nodup : (m.functions.values.flatMap fun f => f.toExpr.serials).Nodup
  not_symbol : ∀ f ∈ m.functions.values, ∀ n ∈ f.toExpr.serials, n ∉ symbols m
  inner : ∀ f ∈ m.functions.values, ∀ d ∈ f.body.parts, d.typeParams = []
  outer : ∀ f ∈ m.functions.values, f.isDeclared = false → f.typeParams = []
  simple : ∀ f ∈ m.functions.values, ∀ d ∈ f.toExpr.parts, ∀ t ∈ d.written, t.simple = true

instance (m : Module) : Decidable (Tidy m) :=
  decidable_of_iff _ (tidy_iff m).symm

namespace Tidy

variable {Γ : Context} (hm : Tidy Γ.module) {g : Global}

include hm

theorem simple_of_declared (hd : Γ.declared? g = some sig) :
    (∀ a ∈ sig.args, a.simple = true) ∧ sig.ret.simple = true ∧
      ∀ r ∈ sig.relations, ∀ a ∈ r.args, a.simple = true := by
  obtain ⟨f, hf, hd⟩ := Option.bind_eq_some_iff.1 hd
  obtain ⟨hargs, hret, hrelations⟩ := Function.declared?_eq_some hd
  have hwritten : ∀ t ∈ f.toExpr.written, t.simple = true :=
    hm.simple f (Table.mem_values_of_get? hf) f.toExpr f.toExpr.self_mem_parts
  refine ⟨fun a ha => hwritten a ?_, hwritten sig.ret ?_, fun r hr a ha => hwritten a ?_⟩
  · exact mem_append_left _ (mem_append_left _ (hargs ▸ ha))
  · exact mem_append_left _ (mem_append_right _ (by simp [hret]))
  · exact mem_append_right _ (mem_flatMap.2 ⟨r, hrelations ▸ hr, ha⟩)

theorem simple_of_promised {group : List Global} {r : TypeRelation} (hr : r ∈ promised Γ group) :
    ∀ a ∈ r.args, a.simple = true := by
  obtain ⟨sig, hsig, hr⟩ := mem_flatMap.1 hr
  obtain ⟨k, -, hk⟩ := mem_filterMap.1 hsig
  exact (hm.simple_of_declared hk).2.2 r hr

end Tidy

theorem Tidy.suits {m : Module} (hm : Tidy m) (supply : Supply) (verbose : Bool) :
    (Discipline.keeping Ty.bindsNone).Suits (.standard m supply verbose) := by
  apply Discipline.keeping_suits
  · exact fun t _ ht => ht
  · exact Ty.shallow_bindsNone.mapChildren_iff
  · intro f hf d hd t ht
    have hsimple := hm.simple f hf d hd t ht
    exact ⟨Ty.mono_of_simple hsimple, Ty.cellOccurrences_of_simple hsimple⟩
  · exact fun f hf d hd _ _ => hm.inner f hf d hd
  · exact fun f hf hd _ _ => hm.outer f hf hd

/-- The marks that checking has left, with the signatures it has found, as an annotation for the
body of the function `g`. -/
def annotated (Γ : Context) (m : Module) (marks : Marks) (g : Global) : Annotation where
  type := marks.type?
  typeArgs := marks.typeArgs?
  uses k ts t := ∃ sig, m.signature? k = some sig ∧
    if k ∈ Γ.undeclared (Γ.groupOf g) then
      ts = [] ∧ ∃ relations, t = .func sig.args sig.ret [] relations
    else sig.HasInstance ts t
  agree t u := t.alike u = true
  projects index t u :=
    (∃ ts v, t = .tuple ts ∧ 0 ≤ index.toInt ∧ ts[index.toInt.toNat]? = some v ∧
      v.alike u = true) ∨
    ∃ r, r.name = "TupleGetItem" ∧ r.args = [t, u] ∧ (r ∈ promised Γ (Γ.groupOf g) ∨
      Γ.declared? g = none ∧ r.attrs.get? "index" = some index.toValue ∧
        ∃ sig, m.signature? g = some sig ∧ r ∈ sig.relations)

section

variable {Γ : Context} {session : Session} {m : Module} {s s' : State} {e : Engine} {g : Global}
  (hgs : Γ.groups = Γ.module.groups)

theorem mem_keys_of_contains {k : Global} (h : Γ.module.functions.contains k = true) :
    k ∈ Γ.module.functions.keys := by
  obtain ⟨f, hf⟩ := Option.isSome_iff_exists.1 h
  exact mem_map_of_mem (Table.mem_entries_of_get? hf)

include hgs

theorem signature?_of_declared (h : checkModule Γ (start session) = .ok m s') {k : Global}
    (hd : Γ.declared? k = some sig) : m.signature? k = some sig := by
  obtain ⟨f, hf, -⟩ := Option.bind_eq_some_iff.1 hd
  have hk : k ∈ Γ.module.functions.keys := mem_keys_of_contains (by simp [Table.contains, hf])
  obtain ⟨run⟩ := BodyRun.nonempty hgs h hk
  obtain ⟨s, e, hcheck⟩ := checkModule_eq_ok hgs h
  obtain ⟨hready, s₁, hrun, -, -, hschemes⟩ := run.groupRun hgs hcheck.solved
  have hmem : k ∈ run.group := by simp [run.group_eq]
  rw [hcheck.signatures k hk, hschemes k (by simp [hmem]), hrun.closes.declared k hmem sig hd]

namespace BodyRun

variable (run : BodyRun Γ session g)

theorem fit_ended (hsuits : (Discipline.keeping Ty.bindsNone).Suits Γ)
    (hsolve : solveGroups Γ Γ.groups (start session) = .ok () s) :
    Γ.Fit Ty.bindsNone run.ended := by
  obtain ⟨hready, s₁, hrun, -⟩ := run.groupRun hgs hsolve
  obtain ⟨-, -, htyped, -⟩ := run.phases hgs hready hrun.opened_eq
  have hgroups : Γ.groups = [] ++ (run.before ++ run.group :: run.after) := run.groups_eq
  have hreached := (Discipline.solveGroups_ends hgs hsuits hgroups (start_ready session)
    (Discipline.start_upright (fun _ => rfl) session)).of_ok run.reached_eq
  have hfits : (Discipline.keeping Ty.bindsNone).Fits Γ fun _ => True := hsuits.fits
  refine ⟨fun hd => (hfits.declared _ _ trivial hd).fit, fun hop => (hfits.operators _ _ hop).fit,
    fun hsig => ?_, fun hp => ?_⟩
  · rw [← htyped.schemes_eq, hrun.grows.schemes_eq, hrun.opened_eq.schemes_eq] at hsig
    exact (hreached.schemes _ _ hsig).fit
  · rw [← htyped.provisional_eq, hrun.grows.provisional_eq] at hp
    apply (hrun.opened_eq.cells hp).resolve_left
    rw [hready.provisional_eq]
    exact Option.some_ne_none _ ∘ Eq.symm

section

variable (hcheck : CheckRun Γ session m s e s') (h : checkModule Γ (start session) = .ok m s')

include hcheck h

theorem uses_annotated (hstore : s'.engine.store.Mono) (hfit : Γ.Fit Ty.bindsNone run.ended)
    {k : Global}
    (huses : ((run.whole s).reading Γ Ty.bindsNone s'.engine.store.value).uses k ts t) :
    (annotated Γ m s'.session.marks g).uses k ts t := by
  obtain ⟨hready, s₁, hrun, -, hevolves, hschemes⟩ := run.groupRun hgs hcheck.solved
  obtain ⟨-, hended, htyped, -⟩ := run.phases hgs hready hrun.opened_eq
  have hgroup : Γ.groupOf g = run.group :=
    (groupOf_eq hgs run.groups_eq (by simp [run.group_eq])).2
  rcases huses with ⟨u, hu, rfl, rfl⟩ | ⟨sig, ⟨hcontains, hsig⟩, hinst⟩
  · -- A function of the group that has no signature yet.
    have hu' : run.opened.provisional.get? k = some u := by
      rwa [← hrun.grows.provisional_eq, htyped.provisional_eq]
    have hk : k ∈ Γ.undeclared run.group := by
      by_contra hnot
      rw [hrun.opened_eq.others k hnot, hready.provisional_eq] at hu'
      cases hu'
    obtain ⟨hmem, hd⟩ := mem_undeclared.1 hk
    obtain ⟨span, hspan, rfl⟩ := mem_map.1 (hrun.functions_eq.symm ▸ hmem)
    obtain ⟨u', hu'', ⟨f, sig, hf, hsig, ⟨ps, rs, htypes⟩, -, -⟩, hclosed⟩ :=
      hrun.closes.recorded span hspan hd
    obtain rfl : u' = u := by
      rw [hrun.grows.provisional_eq, hu'] at hu''
      exact (Option.some.inj hu'').symm
    have hfinal : u'.mapCells s'.engine.store.value = .func sig.args sig.ret ps rs := by
      rw [← Store.resolve_eq, (hevolves.trans hcheck.evolves).later.resolve_eq,
        Ty.mapCells_closed hclosed, htypes]
    have hmono := hstore.resolve (Ty.isCell_everywhere Ty.shallow_bindsNone (hfit.provisional hu))
    rw [Store.resolve_eq, hfinal] at hmono
    obtain rfl : ps = [] := hmono.top
    refine ⟨sig, ?_, ?_⟩
    · rw [hcheck.signatures _ (mem_keys_of_contains (by simp [Table.contains, hf])),
        hschemes _ (by simp [hmem])]
      exact hsig
    · rw [hgroup, if_pos hk]
      exact ⟨rfl, rs, hfinal⟩
  · -- A function that has one.
    have hkeys := mem_keys_of_contains hcontains
    rcases hsig with hd | hd
    · refine ⟨sig, signature?_of_declared hgs h hd, ?_⟩
      rw [if_neg (by simp [mem_undeclared, hd])]
      exact hinst
    · have hd' : run.reached.schemes.get? k = some sig := by
        rwa [← hrun.opened_eq.schemes_eq, ← hrun.grows.schemes_eq, htyped.schemes_eq]
      have hbefore : k ∈ run.before.flatten := by
        rw [← hready.done_iff]
        simp [Table.contains, hd']
      have hk : k ∉ run.group := fun hmem => (groupOf_eq hgs run.groups_eq hmem).1 hbefore
      refine ⟨sig, ?_, ?_⟩
      · rw [hcheck.signatures k hkeys, hschemes k (by simp [hbefore]), hrun.schemes_eq hk, hd']
      · rw [hgroup, if_neg (fun hmem => hk (mem_undeclared.1 hmem).1)]
        exact hinst

/-- A projection that waits when the body is typed is decided, or promised, or left to the
callers. -/
theorem projects_annotated (hm : Tidy Γ.module) (hregistry : Γ.registry = .standard)
    (hg : g ∈ Γ.module.functions.keys)
    (hprojects : ((run.whole s).reading Γ Ty.bindsNone s'.engine.store.value).projects index t u) :
    (annotated Γ m s'.session.marks g).projects index t u := by
  rcases hprojects with
    ⟨ts, rfl, hge, hget⟩ | ⟨i, hi, a, b, hlt, hrelation, hattrs, rfl, rfl, hmono, hmono'⟩
  · exact .inl ⟨ts, u, rfl, hge, hget, u.alike_self⟩
  rw [← Store.resolve_eq] at hmono hmono' ⊢
  rw [← Store.resolve_eq]
  obtain ⟨hready, s₁, hrun, -, hevolves, -⟩ := run.groupRun hgs hcheck.solved
  obtain ⟨hbegun, hended, htyped, hspan⟩ := run.phases hgs hready hrun.opened_eq
  have hlater : run.settled.store.Extends s'.engine.store :=
    (hrun.closes.evolves.trans (hevolves.trans hcheck.evolves)).later
  have hgroup : Γ.groupOf g = run.group :=
    (groupOf_eq hgs run.groups_eq (by simp [run.group_eq])).2
  have hgenerated : i ∈ run.generated := mem_filter.2 ⟨hi, decide_eq_true hlt⟩
  obtain ⟨hwaits, hcovers⟩ := (run.mem_generated (hended.valid hbegun) htyped).1 hgenerated
  have hvalid := hrun.valid_typed hready.valid
  rcases (hrun.steps.advances hvalid).mem_waiting hvalid hwaits with hleft | hsatisfied
  · cases hentailed : isEntailed Γ run.group run.reached.engine.added run.settled.store i with
    | true =>
      -- A fully annotated function of the group promises it, by the same slots.
      rw [isEntailed, Bool.and_eq_true, isPromised, any_eq_true] at hentailed
      obtain ⟨-, r, hr, hsame⟩ := hentailed
      rw [Bool.and_eq_true, beq_iff_eq] at hsame
      have hsimple := hm.simple_of_promised hr
      have hargs := eq_of_forall₂ <| forall₂_imp_of_mem (Ty.sameList_iff.1 hsame.2)
        fun t ht u _ => Ty.eq_of_same (hsimple t ht)
      simp only [resolvedIn, hrelation, projection, map_cons, map_nil] at hargs hsame
      have hfinal {c : Ty} (hc : run.settled.store.resolve c ∈ r.args) :
          s'.engine.store.resolve c = run.settled.store.resolve c := by
        rw [hlater.resolve_eq]
        exact Ty.mapCells_closed (Ty.cellOccurrences_of_simple (hsimple _ hc)) _
      refine .inr ⟨r, hsame.1, ?_, .inl (hgroup ▸ hr)⟩
      rw [hfinal (c := a) (by simp [hargs]), hfinal (c := b) (by simp [hargs]), hargs]
    | false =>
      -- It belongs to the function in whose span it lies, and that declares nothing.
      obtain ⟨span, hmem, hd, hspan'⟩ := hrun.closes.owned i hleft (hrun.seq_gt hready hwaits)
        hentailed
      obtain rfl := hrun.chained.eq_of_covers hmem hspan hspan' hcovers
      obtain ⟨sig, hsig, hrelations⟩ := run.relations_eq hgs h hg hd
      refine .inr ⟨resolvedIn s'.engine.store i, ?_, ?_, .inr ⟨hd, ?_, sig, hsig, ?_⟩⟩
      · simp [resolvedIn, hrelation, projection]
      · simp [resolvedIn, hrelation, projection]
      · have hindex : (resolvedIn s'.engine.store i).attrs = i.attrs := rfl
        rw [hindex, hattrs, hrelation]
        rfl
      · rw [hrelations]
        refine mem_append_right _ (mem_map_of_mem ?_)
        rw [run.kept_eq (hended.valid hbegun) htyped (hrun.chained.bounds.2 _ hspan).1
          (hrun.steps.advances hvalid).waiting_sublist, mem_filter, hcovers, hentailed]
        exact ⟨hleft, rfl⟩
  · rw [hregistry] at hsatisfied
    obtain ⟨ts, v, ht, hge, hget, hagree⟩ := (hsatisfied.later hlater).projection hrelation hattrs
    rw [ht] at hmono
    refine .inl ⟨ts, v, ht, hge, hget, Ty.alike_of_agree ?_ hmono' hagree⟩
    exact hmono.child (mem_of_getElem? hget)

/-- What has been found out in a body is what the marks say in the end. -/
theorem refines_annotated (hm : Tidy Γ.module) (hregistry : Γ.registry = .standard)
    (hg : g ∈ Γ.module.functions.keys) (hstore : s'.engine.store.Mono)
    (hfit : Γ.Fit Ty.bindsNone run.ended) :
    Annotation.Refines ((run.whole s).reading Γ Ty.bindsNone s'.engine.store.value)
      (annotated Γ m s'.session.marks g) := by
  have hresolve : Ty.mapCells s'.engine.store.value = e.store.resolve := by
    funext t
    rw [← Store.resolve_eq, hcheck.kept.view.resolve_eq]
  have hspares := solveGroups_spares hgs (nil_append _).symm (start_ready session)
    hcheck.solved
  refine
    { type := fun {n t} hn => ?_
      typeArgs := fun {n ts} hn => ?_
      uses := run.uses_annotated hgs hcheck h hstore hfit
      agree := fun hsame => Ty.alike_of_agree hsame.2.1 hsame.2.2 hsame.1
      projects := run.projects_annotated hgs hcheck h hm hregistry hg }
  · obtain ⟨u, hu, rfl⟩ := Option.map_eq_some_iff.1 hn
    obtain ⟨site, hentry⟩ := get?_of_note? hu
    -- What is noted belongs to a body, and so it is no symbol.
    have hsymbol : n ∉ symbols Γ.module := by
      by_cases hn : n ∈ Γ.groups.flatten.flatMap (serialsIn Γ)
      · obtain ⟨k, -, hk⟩ := mem_flatMap.1 hn
        cases hf : Γ.module.functions.get? k with
        | none => simp [serialsIn, hf] at hk
        | some f =>
          rw [serialsIn_eq hf] at hk
          exact hm.not_symbol f (Table.mem_values_of_get? hf) n hk
      · have hnone : s.note? n = (start session).note? n := hspares.note_eq hn rfl
        cases hnone.symm.trans hu
    rw [hresolve]
    exact hcheck.types (hspares.noteKeys nodup_nil) hentry hsymbol
  · obtain ⟨us, hus, rfl⟩ := Option.map_eq_some_iff.1 hn
    rw [hresolve]
    exact hcheck.typeArgs (hspares.callKeys nodup_nil) hus

end

end BodyRun

/-- The marks obey the typing rules at every node of every function. -/
theorem annotated_obeys (hm : Tidy Γ.module)
    (hsuits : (Discipline.keeping Ty.bindsNone).Suits Γ) (hregistry : Γ.registry = .standard)
    (h : checkModule Γ (start session) = .ok m s') {f : Function}
    (hf : Γ.module.functions.get? g = some f) :
    ∀ d ∈ f.toExpr.parts, (annotated Γ m s'.session.marks g).Obeys Γ d := by
  have hg : g ∈ Γ.module.functions.keys := mem_keys_of_contains (by simp [Table.contains, hf])
  obtain ⟨run⟩ := BodyRun.nonempty hgs h hg
  obtain rfl : f = run.body := Option.some.inj (hf.symm.trans run.body_eq)
  obtain ⟨s, e, hcheck⟩ := checkModule_eq_ok hgs h
  -- The last store knows all that the body has found, and it binds no parameters.
  have hstore : s'.engine.store.Mono := by
    intro c
    have hs := (Discipline.solveGroups_ends hgs hsuits (append_nil _).symm
      (start_ready session) (Discipline.start_upright (fun _ => rfl) session)).of_ok hcheck.solved
    obtain ⟨-, hproceeds, -⟩ :=
      (Discipline.finish_keeps hsuits.coherent hs.proper.governs).of_ok hcheck.finished
    have hholds := hcheck.kept.within.holds _ (hproceeds.within.holds _ (hs.cells c))
    rwa [Store.Holds, Store.resolve_eq, Ty.mapCells_cell] at hholds
  have hmodels : s'.engine.store.Models s'.engine.store.value := by
    intro c
    rw [← Store.resolve_eq, hcheck.evolves.valid.resolve_value]
  have hreader : Reader Ty.bindsNone (run.whole s) s'.engine.store.value :=
    { shallow := Ty.shallow_bindsNone
      nodup := (nodup_flatMap.1 hm.serials_nodup).1 _ (Table.mem_values_of_get? hf)
      closed := rfl
      models := hmodels.earlier hcheck.evolves.later
      good := hstore }
  have hfit := run.fit_ended hgs hsuits hcheck.solved
  have hsound := hreader.infers_soundly run.body.toExpr (fun _ _ _ => hfit)
    (hsuits.functions g _ hf).neat (run.visit hgs hm.serials_nodup hcheck.solved)
    fun _ hb => absurd hb not_mem_nil
  have hrefines := run.refines_annotated hgs hcheck h hm hregistry hg hstore hfit
  exact fun d hd => hrefines.obeys (hsound.parts d hd)

end

/-- When a module with the standard operators checks, the types and type arguments that its syntax
is marked with obey the typing rules at every node: of a conditional, a tuple, a function, a call, a
projection and a match, and of the patterns in it. The value of a `let` agrees with the variable,
and so does what is written for the variable. -/
theorem check_consistent {m : Module} (hm : Tidy m) {supply : Supply} {report : Report}
    {session : Session}
    (h : (m.check (Operators.standard supply).1 .standard report session).outcome = .ok true)
    {g : Global} {f : Function} (hf : m.functions.get? g = some f) :
    let Γ : Context := .standard m supply report.verbose
    let checked := m.check (Operators.standard supply).1 .standard report session
    ∀ d ∈ f.toExpr.parts, (annotated Γ checked.module checked.session.marks g).Obeys Γ d := by
  intro Γ checked
  obtain ⟨s', hrun, hsession⟩ := checkModule_of_check h
  have hobeys := annotated_obeys (Γ := Γ) rfl hm (hm.suits supply report.verbose) rfl hrun hf
  rw [← hsession] at hobeys
  exact hobeys

/-- Two functions that call each other, one of them fully annotated. -/
theorem check_consistent_crossed :
    Tidy Crossed.module ∧
      ((Crossed.module.check (Operators.standard ⟨20⟩).1 .standard {}
        Crossed.session).outcome.toOption = some true) ∧
      ∀ d ∈ Crossed.bodyOfG.toExpr.parts,
        (annotated (.standard Crossed.module ⟨20⟩ false)
          (Crossed.module.check (Operators.standard ⟨20⟩).1 .standard {} Crossed.session).module
          (Crossed.module.check (Operators.standard ⟨20⟩).1 .standard {}
            Crossed.session).session.marks Crossed.g).Obeys
          (.standard Crossed.module ⟨20⟩ false) d := by
  have htidy : Tidy Crossed.module := by decide +kernel
  have hok : (Crossed.module.check (Operators.standard ⟨20⟩).1 .standard {}
      Crossed.session).outcome.toOption = some true := by decide +kernel
  have htrue : (Crossed.module.check (Operators.standard ⟨20⟩).1 .standard {}
      Crossed.session).outcome = .ok true := by
    generalize (Crossed.module.check (Operators.standard ⟨20⟩).1 .standard {}
      Crossed.session).outcome = outcome at hok
    cases outcome <;> simp_all [Except.toOption]
  exact ⟨htidy, hok, check_consistent htidy htrue rfl⟩

/-! ## What does not hold

Sizes that have names agree with all sizes, so agreement cannot be chained. A variable may agree
with its value and with its ascription where these two do not agree. A global function may be used
at different types, so the type marked on its handle is not the type of a use. And a relation that a
signature demands may hold a function type with parameters of its own, which is instantiated when it
is called. -/

namespace Loose

def y : Var := ⟨⟨1, "y"⟩, some (.tensor [.named "n"] "float32")⟩

def x : Var := ⟨⟨2, "x"⟩, some (.tensor [.known 3] "float32")⟩

/-- What is written for `f`. -/
def ascription : Ty := .func [.tensor [.known 2] "float32"] (.scalar "int32") [] []

def f : Var := ⟨⟨3, "f"⟩, some ascription⟩

def g : Global := ⟨⟨4, "g"⟩⟩

/-- The function `x ↦ f(y)`. -/
def value : Expr := .fn 5 [x] (.call 6 (.var f) [.var y] none .empty) none [] []

/-- The body of `g` is `let f = value; f(y)`. -/
def bodyOfG : Function where
  node := 7
  params := [y]
  body := .letIn 8 f value (.call 9 (.var f) [.var y] none .empty)

def module : Module where
  functions := ⟨[(g, bodyOfG)]⟩

end Loose

namespace Chosen

def a : Var := ⟨⟨1, "a"⟩, none⟩

def b : Var := ⟨⟨2, "b"⟩, some .bool⟩

def z : Var := ⟨⟨3, "z"⟩, some (.scalar "int32")⟩

def id : Global := ⟨⟨4, "id"⟩⟩

def h : Global := ⟨⟨5, "h"⟩⟩

def bodyOfId : Function := { node := 6, params := [a], body := .var a }

/-- The body of `h` is `if b then id else z ↦ z`. -/
def bodyOfH : Function where
  node := 7
  params := [b]
  body := .cond 8 (.var b) (.global id) (.fn 9 [z] (.var z) none [] [])

def module : Module where
  functions := ⟨[(id, bodyOfId), (h, bodyOfH)]⟩

end Chosen

namespace Granted

def A : TypeParam := ⟨⟨1, "a"⟩, .type⟩

def B : TypeParam := ⟨⟨2, "b"⟩, .type⟩

def D : Handle := ⟨⟨3, "D"⟩⟩

def x : Var := ⟨⟨4, "x"⟩, some (.data D [])⟩

def y : Var := ⟨⟨5, "y"⟩, none⟩

def z : Var := ⟨⟨6, "z"⟩, none⟩

def k : Global := ⟨⟨7, "k"⟩⟩

def g : Global := ⟨⟨8, "g"⟩⟩

def h : Global := ⟨⟨9, "h"⟩⟩

/-- The body of `k` is a match without clauses. Its result is demanded to be the field of a
one-tuple that holds the polymorphic identity. -/
def bodyOfK : Function where
  node := 10
  params := [x]
  body := .matchOn 11 (.var x) []
  ret := some (.param A)
  typeParams := [A]
  relations := [projection (.int 0) (.tuple [.func [.param B] (.param B) [B] []]) (.param A)]

/-- The body of `g` is `k(y)`. -/
def bodyOfG : Function where
  node := 12
  params := [y]
  body := .call 13 (.global k) [.var y] none .empty

/-- The body of `h` is `g(z)(1)`. -/
def bodyOfH : Function where
  node := 14
  params := [z]
  body := .call 15 (.call 16 (.global g) [.var z] none .empty)
    [.constant 17 ⟨"int32", [], .int 1⟩] none .empty

def module : Module where
  functions := ⟨[(k, bodyOfK), (g, bodyOfG), (h, bodyOfH)]⟩
  dataTypes := ⟨[(D, ⟨D, [], []⟩)]⟩

end Granted

/-- The type that a node of a module is marked with when the module has been checked, if it
checks. -/
def markedType (m : Module) (n : Serial) : Option Ty :=
  let checked := m.check (Operators.standard ⟨50⟩).1 .standard {} { supply := ⟨200⟩ }
  if checked.outcome.toOption = some true then checked.session.marks.type? n else none

/-- The value of a `let` does not agree with what is written for its variable. The branches of a
conditional do not agree when one is a global function. Where a relation holds a polymorphic
function type, a call does not agree with the parameters of its callee. -/
theorem check_inconsistent :
    (Tidy Loose.module ∧ (markedType Loose.module Loose.value.serial).map
      (fun t => t.alike Loose.ascription) = some false) ∧
    (Tidy Chosen.module ∧ (markedType Chosen.module Chosen.id.serial).bind
      (fun t => (markedType Chosen.module 9).map t.alike) = some false) ∧
    ((markedType Granted.module 16).bind Ty.signature?).bind
      (fun sig => (markedType Granted.module 17).map (Ty.alikeList sig.args [·])) = some false := by
  decide +kernel

end Inference

end TensorTyping
