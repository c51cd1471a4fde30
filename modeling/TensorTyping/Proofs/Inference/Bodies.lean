import Mathlib.Data.List.Pairwise
import TensorTyping.Proofs.Inference.Accounting
import TensorTyping.Proofs.Inference.Visits

/-!
# How the bodies of a module are typed

Typing a group notes only what is in the bodies of its functions, and so does typing a function on
demand. While the groups of a module are typed in order no function is typed on demand. So if no node
is used twice, what was noted of a body is noted still when all groups are typed.
-/
namespace TensorTyping.Inference

open List

variable {before : List (List Global)} {e : Engine}

variable {Γ : Context} {solve solve' : Global → InferM Unit} {foreign : Serial → Prop}
  {s s' : State}
variable {g : Global} {gs group : List Global} {f : Function} {spans : List Span} {V : State}
  {t : Ty} {session : Session} {m : Module}
variable {own : Serial → Prop} {env : Env} {operators : Operators} {registry : Registry}

/-- Where the functions that are mentioned in a body are known, the body is typed in the same way
whatever is done on demand, with success or not. -/
theorem typeBody_coincide (hs : s.engine.Valid)
    (hk : ∀ f, Γ.module.functions.get? g = some f → ∀ r ∈ f.body.mentions, Known Γ s r) :
    typeBody Γ solve g s = typeBody Γ solve' g s := by
  unfold typeBody
  cases hf : Γ.module.functions.get? g with
  | none => rfl
  | some f =>
    dsimp only
    rw [get_bind, get_bind]
    exact bind_run_congr (infer_coincide (e := f.toExpr) hs (hk f hf) []) fun _ _ _ => rfl

theorem typeBodies_coincide (hs : s.engine.Valid)
    (hk : ∀ g ∈ gs, ∀ f, Γ.module.functions.get? g = some f → ∀ r ∈ f.body.mentions,
      Known Γ s r) : typeBodies Γ solve gs s = typeBodies Γ solve' gs s := by
  induction gs generalizing s with
  | nil => rfl
  | cons g gs ih =>
    obtain ⟨hfirst, hmore⟩ := forall_mem_cons.1 hk
    unfold typeBodies
    apply bind_run_congr (typeBody_coincide hs hfirst)
    intro span s' hrun
    obtain ⟨hgrows, -⟩ := typeBody_grows hs hfirst hrun
    have hrest := ih (hgrows.valid hs) fun g hg f hf r hr => hgrows.known (hmore g hg f hf r hr)
    exact bind_run_congr hrest fun _ _ _ => rfl

theorem Ready.typeGroup_coincide {after : List (List Global)} (hready : Ready before s)
    (hgroups : Γ.module.groups = before ++ group :: after) :
    Inference.typeGroup Γ solve group s = Inference.typeGroup Γ solve' group s := by
  unfold Inference.typeGroup
  rw [get_bind, get_bind]
  apply bind_run_congr rfl
  intro _ opened hopen
  have hopens := openGroup_opens hready.valid.store hopen
  have hbodies : typeBodies Γ solve group opened = typeBodies Γ solve' group opened :=
    typeBodies_coincide (hopens.rests.valid hready.valid)
      fun g hg f hf r hr => hready.known hgroups hopens hg hf hr
  exact bind_run_congr hbodies fun _ _ _ => rfl

def serialsIn (Γ : Context) (g : Global) : List Serial :=
  ((Γ.module.functions.get? g).map fun f => f.toExpr.serials).getD []

theorem nodup_serialsIn
    (h : (Γ.module.functions.values.flatMap fun f => f.toExpr.serials).Nodup)
    (hgs : gs.Nodup) : (gs.flatMap (serialsIn Γ)).Nodup := by
  have hall : (Γ.module.functions.entries.flatMap fun e => e.2.toExpr.serials).Nodup := by
    rwa [Table.values, flatMap_map] at h
  obtain ⟨heach, happart⟩ := nodup_flatMap.1 hall
  have hsymm : Std.Symm (Function.onFun List.Disjoint
      fun e : Global × Function => e.2.toExpr.serials) := ⟨fun _ _ h => h.symm⟩
  refine nodup_flatMap.2 ⟨fun g _ => ?_, hgs.imp fun {g k} hne => ?_⟩
  · unfold serialsIn
    cases hg : Γ.module.functions.get? g with
    | none => exact nodup_nil
    | some f => exact heach _ (Table.mem_entries_of_get? hg)
  · unfold Function.onFun serialsIn
    cases hg : Γ.module.functions.get? g with
    | none => exact disjoint_nil_left _
    | some f =>
      cases hk : Γ.module.functions.get? k with
      | none => exact disjoint_nil_right _
      | some f' =>
        refine happart.forall (Table.mem_entries_of_get? hg) (Table.mem_entries_of_get? hk) ?_
        exact fun heq => hne (congrArg Prod.fst heq)

theorem serialsIn_eq (hf : Γ.module.functions.get? g = some f) :
    serialsIn Γ g = f.toExpr.serials := by
  rw [serialsIn, hf]
  rfl

theorem typeBody_spares (hsolve : SolvesWithin solve foreign) {span : Span} (hs : s.engine.Valid)
    (h : typeBody Γ solve g s = .ok span s') :
    Spares (Near foreign (serialsIn Γ g)) [] s s' ∧ span = ⟨g, s.engine.added, s'.engine.added⟩ := by
  obtain ⟨f, t, s₁, hf, hinfer, rfl, hjoin⟩ := typeBody_eq_ok h
  have h₁ := (infer_touches hsolve hs hinfer).toSpares
  obtain ⟨hrests, hstate⟩ := hjoin h₁.valid.store
  refine ⟨serialsIn_eq hf ▸ h₁.trans (.of_notes_eq (hrests.valid h₁.valid) hrests.evolves
    hrests.added_eq.ge ⟨by rw [hstate], by rw [hstate]⟩ (by rw [hstate])), ?_⟩
  rw [hrests.added_eq]

theorem typeBodies_spares (hsolve : SolvesWithin solve foreign) (hs : s.engine.Valid)
    (h : typeBodies Γ solve gs s = .ok spans s') :
    Spares (Near foreign (gs.flatMap (serialsIn Γ))) [] s s' ∧ spans.map Span.function = gs ∧
      Chained s.engine.added spans s'.engine.added := by
  induction gs generalizing s spans with
  | nil =>
    cases h
    exact ⟨.refl hs, rfl, rfl⟩
  | cons g gs ih =>
    obtain ⟨span, s₁, rest, hbody, hrest, rfl⟩ := typeBodies_cons h
    obtain ⟨h₁, rfl⟩ := typeBody_spares hsolve hs hbody
    obtain ⟨hmore, hfunctions, hchained⟩ := ih h₁.valid hrest
    exact ⟨h₁.seq hmore, by rw [map_cons, hfunctions], rfl, h₁.added_le, hchained⟩

theorem Opens.spares (h : Opens Γ group s s') (hs : s.engine.Valid) : Spares own env s s' :=
  .of_notes_eq (h.rests.valid hs) h.rests.evolves h.rests.added_eq.ge h.notes_eq
    h.scrutinees_eq

theorem Closes.spares {mark : Nat} (h : Closes Γ group spans mark s e s') (hs : s.engine.Valid) :
    Spares own env s s' := by
  have hadvances := (EngineM.propagate_eq_ok h.propagated).advances hs
  have he := hadvances.valid hs
  refine .of_notes_eq (he.of_filter h.evolves.valid h.waiting_eq h.added_eq)
    ((hadvances.evolves hs).trans h.evolves) ?_ h.notes_eq h.scrutinees_eq
  rw [h.added_eq, hadvances.added_eq]

theorem typeGroup_spares (hsolve : SolvesWithin solve foreign) (hgroup : group.Nodup)
    (hs : s.engine.Valid) (h : typeGroup Γ solve group s = .ok () s') :
    Spares (Near foreign (group.flatMap (serialsIn Γ))) [] s s' := by
  unfold typeGroup at h
  rw [get_bind] at h
  obtain ⟨_, s₁, hopen, h⟩ := bind_eq_ok h
  obtain ⟨spans, s₂, hbodies, hclose⟩ := bind_eq_ok h
  have hopens := openGroup_opens hs.store hopen
  have hs₁ := hopens.rests.valid hs
  obtain ⟨h₂, hfunctions, hchained⟩ := typeBodies_spares hsolve hs₁ hbodies
  rw [hopens.rests.added_eq] at hchained
  obtain ⟨e, hcloses⟩ := closeGroup_closes h₂.valid hchained hfunctions hgroup hclose
  exact ((hopens.spares hs).trans h₂).trans (hcloses.spares h₂.valid)

theorem solveWithin_within (hΓ : Γ.groups = Γ.module.groups) (fuel : Nat) :
    SolvesWithin (solveWithin Γ fuel) fun n => ∃ g, n ∈ serialsIn Γ g := by
  induction fuel with
  | zero =>
    intro g s s' hs h
    cases h
  | succ fuel ih =>
    intro g s s' hs h
    have hnodup : (Γ.groupOf g).Nodup := by
      unfold Context.groupOf
      cases hfind : Γ.groups.find? fun group => group.contains g with
      | none => exact nodup_nil
      | some group =>
        have hall := (Module.groups_spec Γ.module).1
        rw [← hΓ] at hall
        exact (nodup_flatten.1 hall).1 group (mem_of_find?_eq_some hfind)
    refine (typeGroup_spares ih hnodup hs h).mono (fun n hn => ?_) fun _ _ => .inl rfl
    rcases hn with hn | hn
    · obtain ⟨k, -, hk⟩ := mem_flatMap.1 hn
      exact ⟨k, hk⟩
    · exact hn

theorem Ready.typeGroup {after : List (List Global)} (hready : Ready before s)
    (hgroups : Γ.module.groups = before ++ group :: after)
    (h : typeGroup Γ solve group s = .ok () s') : typeGroup Γ refuse group s = .ok () s' := by
  rwa [hready.typeGroup_coincide hgroups] at h

/-- The groups of a module are typed one after the other, and each notes its own bodies. -/
theorem solveGroups_spares (hΓ : Γ.groups = Γ.module.groups) {rest : List (List Global)}
    (hgroups : Γ.groups = before ++ rest) (hready : Ready before s)
    (h : solveGroups Γ rest s = .ok () s') :
    Spares (· ∈ rest.flatten.flatMap (serialsIn Γ)) [] s s' := by
  induction rest generalizing before s with
  | nil =>
    cases h
    exact .refl hready.valid
  | cons group rest ih =>
    obtain ⟨s₁, _, _, _, _, hgroup, hrun, hrest⟩ := solveGroups_cons_eq_ok hΓ hgroups hready h
    have h₂ := ih (by simpa using hgroups) (hrun.ready hready) hrest
    have h₁ := typeGroup_spares (refuse_within fun _ => False) (Module.groups_nodup (hΓ ▸ hgroups))
      hready.valid (hready.typeGroup (hΓ ▸ hgroups) hgroup)
    rw [flatten_cons, flatMap_append]
    refine (h₁.mono (fun n hn => ?_) fun _ _ => .inl rfl).trans
      (h₂.mono (fun n hn => mem_append_right _ hn) fun _ _ => .inl rfl)
    exact mem_append_left _ (hn.resolve_right id)

def BodyRun.whole (run : BodyRun Γ session g) (final : State) : Whole :=
  ⟨run.body.toExpr.serials, [], run.begun, run.ended, final⟩

/-- When the bodies of a module share no number, what is noted of one is noted still when all groups
are typed. -/
theorem BodyRun.visit (run : BodyRun Γ session g) (hΓ : Γ.groups = Γ.module.groups)
    (hnodup : (Γ.module.functions.values.flatMap fun f => f.toExpr.serials).Nodup)
    (hsolve : solveGroups Γ Γ.groups (start session) = .ok () V) :
    Visit Γ refuse (run.whole V) run.body.toExpr [] run.begun run.type run.ended := by
  obtain ⟨hready, s₁, hrun, hlast, -⟩ := run.groupRun hΓ hsolve
  obtain ⟨hbegun, hknown⟩ := run.known hΓ hready hrun.opened_eq
  obtain ⟨-, hended, -⟩ := run.phases hΓ hready hrun.opened_eq
  have hinfer : infer Γ refuse run.body.toExpr [] run.begun = .ok run.type run.ended :=
    (infer_coincide (e := run.body.toExpr) hbegun (hknown g (.head _) _ run.body_eq)
      []).trans run.ended_eq
  -- What comes after the body touches the numbers of other bodies only.
  obtain ⟨span, s₂, rest, hbody, hmore, -⟩ := run.bodies
  have hs := hended.valid hbegun
  obtain ⟨-, hrests, hstate⟩ := run.joins hbody hs.store
  have h₁ : Spares (fun _ => False) [] run.ended s₂ := .of_notes_eq (hrests.valid hs) hrests.evolves
    hrests.added_eq.ge ⟨by rw [hstate], by rw [hstate]⟩ (by rw [hstate])
  have hgrows : Grows run.begun s₂ := by
    rw [hstate]
    exact hended.trans (.of_engine (.of_rests hrests))
  have hrefused : typeBodies Γ refuse run.later s₂ = .ok rest run.typed :=
    (typeBodies_coincide h₁.valid fun k hk f hf r hr =>
      hgrows.known (hknown k (.tail _ hk) f hf r hr)).trans hmore
  obtain ⟨h₂, -⟩ := typeBodies_spares (refuse_within fun _ => False) h₁.valid hrefused
  have h₃ : Spares (fun _ => False) [] run.typed s₁ := hrun.closes.spares h₂.valid
  have h₄ := solveGroups_spares hΓ (by simpa using run.groups_eq) (hrun.ready hready) hlast
  have hserials : (run.body.toExpr.serials ++ (run.later.flatMap (serialsIn Γ) ++
      run.after.flatten.flatMap (serialsIn Γ))).Nodup := by
    have hall := nodup_serialsIn hnodup (Module.groups_spec Γ.module).1
    rw [← hΓ, run.groups_eq, run.group_eq] at hall
    simp only [flatten_append, flatten_cons, flatMap_append, flatMap_cons,
      serialsIn_eq run.body_eq, append_assoc] at hall
    exact (nodup_append.1 (nodup_append.1 hall).2.1).2.1
  have hsep {n : Serial} (hn : n ∈ run.body.toExpr.serials) :
      n ∉ run.later.flatMap (serialsIn Γ) ∧ n ∉ run.after.flatten.flatMap (serialsIn Γ) := by
    rw [← not_or, ← mem_append]
    exact fun hl => disjoint_of_nodup_append hserials hn hl
  have hself := Visit.self hinfer hbegun hs.store fun _ _ => rfl
  exact (((hself.later h₁ fun _ _ => ⟨id, rfl⟩).later h₂ fun n hn =>
    ⟨not_or.2 ⟨(hsep hn).1, id⟩, rfl⟩).later h₃ fun _ _ => ⟨id, rfl⟩).later h₄ fun n hn =>
      ⟨(hsep hn).2, rfl⟩

/-- What was noted of the numbers in a list is marked in the end, as it resolves then. -/
structure Reads (own : List Serial) (V : State) (S : Store) (marks : Marks) : Prop where
  evolves : V.engine.store.Evolves S
  types : ∀ {n t}, n ∈ own → V.note? n = some t → marks.type? n = some (S.resolve t)
  typeArgs : ∀ {n ts}, V.callArgs.get? n = some ts →
    marks.typeArgs? n = some (ts.map S.resolve)

theorem get?_of_note? {n : Serial} (h : V.note? n = some t) :
    ∃ site, V.nodeTypes.get? n = some (site, t) := by
  obtain ⟨⟨site, u⟩, hget, rfl⟩ := Option.map_eq_some_iff.1 h
  exact ⟨site, hget⟩

theorem CheckRun.reads (hΓ : Γ.groups = Γ.module.groups) (h : CheckRun Γ session m V e s')
    (hsymbol : ∀ f ∈ Γ.module.functions.values, ∀ n ∈ f.toExpr.serials, n ∉ symbols Γ.module)
    (hf : Γ.module.functions.get? g = some f) :
    Reads f.toExpr.serials V e.store s'.session.marks := by
  have hspares := solveGroups_spares hΓ (nil_append _).symm (start_ready session) h.solved
  refine ⟨finish_evolves h.ready.valid h.finished, fun {n u} hn hnote => ?_, fun {n ts} hcall => ?_⟩
  · obtain ⟨site, hget⟩ := get?_of_note? hnote
    exact h.types (hspares.noteKeys nodup_nil) hget
      (hsymbol f (Table.mem_values_of_get? hf) n hn)
  · exact h.typeArgs (hspares.callKeys nodup_nil) hcall

/-- After a module has been checked, it is known how the body of a function was typed. -/
theorem CheckRun.visit (hΓ : Γ.groups = Γ.module.groups) (h : CheckRun Γ session m V e s')
    (hnodup : (Γ.module.functions.values.flatMap fun f => f.toExpr.serials).Nodup)
    (hf : Γ.module.functions.get? g = some f) :
    ∃ t s₁ s₂, Visit Γ refuse ⟨f.toExpr.serials, [], s₁, s₂, V⟩ f.toExpr [] s₁ t s₂ := by
  obtain ⟨run⟩ := BodyRun.of_solved (g := g) hΓ h.solved
    (Module.mem_keys_of_contains (by simp [Table.contains, hf]))
  obtain rfl : f = run.body := Option.some.inj (hf.symm.trans run.body_eq)
  exact ⟨_, _, _, run.visit hΓ hnodup h.solved⟩

theorem check_reads {report : Report}
    (hnodup : (m.functions.values.flatMap fun f => f.toExpr.serials).Nodup)
    (hsymbol : ∀ f ∈ m.functions.values, ∀ n ∈ f.toExpr.serials, n ∉ symbols m)
    (h : (m.check operators registry report session).outcome = .ok true)
    (hf : m.functions.get? g = some f) :
    ∃ V S t s₁ s₂,
      Reads f.toExpr.serials V S (m.check operators registry report session).session.marks ∧
      Visit ⟨m, operators, registry, m.groups, report.verbose⟩ refuse
        ⟨f.toExpr.serials, [], s₁, s₂, V⟩ f.toExpr [] s₁ t s₂ := by
  obtain ⟨s', hrun, hsession⟩ := checkModule_of_check h
  obtain ⟨V, e, hcheck⟩ := checkModule_eq_ok rfl hrun
  obtain ⟨t, s₁, s₂, hvisit⟩ := hcheck.visit rfl hnodup hf
  exact ⟨V, e.store, t, s₁, s₂, hsession ▸ hcheck.reads rfl hsymbol hf, hvisit⟩

theorem typeExpr_reads (hΓ : Γ.groups = Γ.module.groups) {e : Expr}
    (h : typeExpr Γ e (start session) = .ok t s') :
    ∃ V S u, infer Γ (Inference.solve Γ) e [] (start session) = .ok u V ∧ t = S.resolve u ∧
      V.engine.Valid ∧ Reads e.serials V S s'.session.marks := by
  unfold typeExpr at h
  obtain ⟨u, V, hinfer, h⟩ := bind_ok_iff.1 h
  obtain ⟨_, s₁, hfinish, h⟩ := bind_ok_iff.1 h
  obtain ⟨_, s₂, hannotate, hresolve⟩ := bind_ok_iff.1 h
  have htouches := infer_touches (solveWithin_within hΓ _) (start_ready session).valid
    hinfer
  obtain ⟨hrun, hstate⟩ := onEngine_eq_ok hfinish
  have hevolves := finish_evolves htouches.valid hrun
  obtain ⟨hannotates, -⟩ := annotate_annotates hevolves.valid hannotate
  have hnodes : s₁.nodeTypes = V.nodeTypes := by rw [hstate]
  have hcalls : s₁.callArgs = V.callArgs := by rw [hstate]
  have hsession : s'.session = s₂.session := by
    rw [(onEngine_eq_ok hresolve).2]
  refine ⟨V, s₁.engine.store, u, hinfer, ?_, htouches.valid, hevolves, fun {n v} _ hnote => ?_,
    fun {n ts} hcall => ?_⟩
  · rw [resolve_eq_ok hannotates.kept.valid hresolve, hannotates.kept.view.resolve_eq]
  · obtain ⟨site, hget⟩ := get?_of_note? hnote
    rw [hsession, Marks.type?, hannotates.types_eq, hnodes, ← nil_append (List.reverse _)]
    refine lookup_marked (fun x => s₁.engine.store.resolve x.2) (htouches.noteKeys nodup_nil)
      hget ?_
    exact not_mem_nil
  · rw [hsession, Marks.typeArgs?, hannotates.typeArgs_eq, hcalls,
      ← nil_append (List.reverse _)]
    exact lookup_marked _ (htouches.callKeys nodup_nil) hcall not_mem_nil

/-- In an expression that has a type, everything is typed on the way and marked as it was noted. -/
theorem typeOf_reads {e : Expr} {session' : Session}
    (h : m.typeOf operators registry e session = .ok t session') :
    ∃ V S u, t = S.resolve u ∧ Reads e.serials V S session'.marks ∧
      Visit ⟨m, operators, registry, m.groups, false⟩
        (Inference.solve ⟨m, operators, registry, m.groups, false⟩)
        (.of e.serials [] (start session) V) e [] (start session) u V := by
  unfold Module.typeOf at h
  cases hrun : typeExpr ⟨m, operators, registry, m.groups, false⟩ e (start session) with
  | error f s =>
    simp [hrun] at h
  | ok u s =>
    simp only [hrun] at h
    cases h
    obtain ⟨V, S, u, hinfer, ht, hV, hreads⟩ := typeExpr_reads rfl hrun
    exact ⟨V, S, u, ht, hreads, .self hinfer (start_ready session).valid hV.store fun _ _ => rfl⟩

end TensorTyping.Inference
