import TensorTyping.Inference.Run
import TensorTyping.Proofs.Engine.Soundness
import TensorTyping.Proofs.Inference.Groups
import TensorTyping.Proofs.Module.Groups

/-!
# Groups are typed one after the other

Between two groups no function is being typed and no instance waits, and exactly the functions of
the groups before have signatures (`Ready`). A group mentions only functions of its own and of
groups before it, so typing it never has to type another one on demand, and when it is typed the
same holds with one more group done.
-/
namespace TensorTyping.Inference

open List

variable {Γ : Context} {s s' : State} {after before : List (List Global)} {group : List Global}
  {m : Module} {α : Type} {session : Session}
variable {g : Global} {a : α} {gs : List Global} {κ : Type} {registry : Registry}

/-- Between two groups, the groups `before` being done. -/
structure Ready (before : List (List Global)) (s : State) : Prop where
  valid : s.engine.Valid
  idle : s.engine.waiting = []
  solving_eq : s.solving = []
  provisional_eq : ∀ g, s.provisional.get? g = none
  done_iff : ∀ g, s.schemes.contains g = true ↔ g ∈ before.flatten

/-- In a group that has been opened, every function of the module that a body mentions is known. -/
theorem Ready.known (hready : Ready before s) (hgroups : Γ.module.groups = before ++ group :: after)
    (hopens : Opens Γ group s s') (hg : g ∈ group) {f : Function}
    (hf : Γ.module.functions.get? g = some f) {r : Global} (hr : r ∈ f.body.mentions) :
    Known Γ s' r := by
  intro hm
  rcases Module.mentions_settled hgroups hg hf hr hm with hbefore | hgroup
  · right; left
    rw [hopens.schemes_eq, hready.done_iff]
    exact hbefore
  · cases hd : Γ.declared? r with
    | none => exact .inl (hopens.started r (mem_undeclared.2 ⟨hgroup, hd⟩))
    | some sig =>
      right; right
      refine ⟨by simp, ?_⟩
      rw [hopens.solving_eq, contains_iff_mem]
      exact mem_append_right _ hgroup

/-- How a group is typed: it is opened, its bodies are typed, and it is closed, by way of the
engine `e` in which nothing more can be decided. -/
structure GroupRun (Γ : Context) (solve : Global → InferM Unit) (group : List Global)
    (s opened typed : State) (spans : List Span) (e : Engine) (s' : State) : Prop where
  opens : openGroup Γ group s = .ok () opened
  bodies : typeBodies Γ solve group opened = .ok spans typed
  opened_eq : Opens Γ group s opened
  grows : Grows opened typed
  functions_eq : spans.map Span.function = group
  chained : Chained s.engine.added spans typed.engine.added
  closes : Closes Γ group spans s.engine.added typed e s'

theorem typeGroup_eq_ok {solve : Global → InferM Unit} (hready : Ready before s)
    (hgroups : Γ.module.groups = before ++ group :: after)
    (h : typeGroup Γ solve group s = .ok () s') :
    ∃ opened typed spans e, GroupRun Γ solve group s opened typed spans e s' := by
  have hnodup := Module.groups_nodup hgroups
  unfold typeGroup at h
  rw [get_bind] at h
  obtain ⟨_, opened, hopen, h⟩ := bind_eq_ok h
  obtain ⟨spans, typed, hbodies, hclose⟩ := bind_eq_ok h
  have hopens := openGroup_opens hready.valid.store hopen
  have hvalid := hopens.rests.valid hready.valid
  obtain ⟨hgrows, hfunctions, hchained⟩ := typeBodies_grows hvalid
    (fun g hg f hf r hr => hready.known hgroups hopens hg hf hr) hbodies
  rw [hopens.rests.added_eq] at hchained
  obtain ⟨e, hcloses⟩ :=
    closeGroup_closes (hgrows.valid hvalid) hchained hfunctions hnodup hclose
  exact ⟨opened, typed, spans, e, hopen, hbodies, hopens, hgrows, hfunctions, hchained, hcloses⟩

namespace GroupRun

variable {solve : Global → InferM Unit} {before : List (List Global)} {group : List Global}
  {opened typed : State} {spans : List Span} {e : Engine}

section

variable (h : GroupRun Γ solve group s opened typed spans e s')

include h

theorem valid_typed (hs : s.engine.Valid) : typed.engine.Valid :=
  h.grows.valid (h.opened_eq.rests.valid hs)

theorem steps : Engine.Steps Γ.registry typed.engine e :=
  EngineM.propagate_eq_ok h.closes.propagated

theorem evolves (hs : s.engine.Valid) : s.engine.store.Evolves s'.engine.store := by
  obtain ⟨new, hnew⟩ := h.grows.gains
  have hadvances := h.steps.advances (h.valid_typed hs)
  exact h.opened_eq.rests.evolves.trans (hnew.evolves.trans
    ((hadvances.evolves (h.valid_typed hs)).trans h.closes.evolves))

/-- All instances that wait when the bodies are typed were added for this group. -/
theorem seq_gt (hready : Ready before s) {i : Instance} (hi : i ∈ typed.engine.waiting) :
    s.engine.added < i.seq := by
  obtain ⟨new, hnew⟩ := h.grows.gains
  rw [hnew.waiting_eq, h.opened_eq.rests.waiting_eq, hready.idle, nil_append] at hi
  rw [← h.opened_eq.rests.added_eq]
  exact (hnew.seq_mem hi).1

theorem ready (hready : Ready before s) : Ready (before ++ [group]) s' := by
  have hadvances := h.steps.advances (h.valid_typed hready.valid)
  have hvalid := hadvances.valid (h.valid_typed hready.valid)
  have hidle : s'.engine.waiting = [] := by
    rw [h.closes.waiting_eq, filter_eq_nil_iff]
    intro i hi
    have hlater := h.seq_gt hready (hadvances.waiting_sublist.subset hi)
    simpa using hlater
  have hschemes : typed.schemes = s.schemes := by rw [h.grows.schemes_eq, h.opened_eq.schemes_eq]
  refine
    { valid := ⟨h.closes.evolves.valid, by simp [hidle], by simp [hidle]⟩
      idle := hidle
      solving_eq := ?_
      provisional_eq := fun g => ?_
      done_iff := fun g => ?_ }
  · rw [h.closes.solving_eq, h.grows.solving_eq, h.opened_eq.solving_eq, hready.solving_eq,
      nil_append, filter_eq_nil_iff]
    intro g hg
    simpa using hg
  · rw [h.closes.provisional_eq]
    split
    · rfl
    · rename_i hg
      rw [h.grows.provisional_eq, h.opened_eq.others g hg, hready.provisional_eq]
  · rw [flatten_append, flatten_singleton, mem_append, ← hready.done_iff]
    by_cases hg : g ∈ group
    · simp [hg, h.closes.done g hg]
    · simp [hg, Table.contains, h.closes.others g hg, hschemes]

theorem schemes_eq (hg : g ∉ group) : s'.schemes.get? g = s.schemes.get? g := by
  rw [h.closes.others g hg, h.grows.schemes_eq, h.opened_eq.schemes_eq]

end

end GroupRun

section

variable (hΓ : Γ.groups = Γ.module.groups)
variable {rest : List (List Global)}

include hΓ

theorem groupOf_eq (hgroups : Γ.groups = before ++ group :: after) (hg : g ∈ group) :
    g ∉ before.flatten ∧ Γ.groupOf g = group := by
  have hnodup := (Module.groups_spec Γ.module).1
  rw [← hΓ, hgroups, flatten_append, flatten_cons] at hnodup
  have hfirst : g ∉ before.flatten := fun hbefore =>
    (nodup_append.1 hnodup).2.2 g hbefore g (mem_append_left _ hg) rfl
  refine ⟨hfirst, ?_⟩
  have hnone : before.find? (fun group => group.contains g) = none := by
    rw [find?_eq_none]
    intro other hother hcontains
    exact hfirst (mem_flatten.2 ⟨other, hother, by simpa using hcontains⟩)
  rw [Context.groupOf, hgroups, find?_append, hnone,
    find?_cons_of_pos (by simpa using hg)]
  rfl

theorem solveGroups_cons (hgroups : Γ.groups = before ++ group :: after) (hready : Ready before s)
    (rest : List (List Global)) :
    solveGroups Γ (group :: rest) s =
      (do typeGroup Γ (solveWithin Γ Γ.groups.length) group; solveGroups Γ rest) s := by
  have hne : group ≠ [] := by
    refine (Module.groups_spec Γ.module).2.1 group ?_
    rw [← hΓ, hgroups]
    simp
  obtain ⟨g, gs, rfl⟩ := exists_cons_of_ne_nil hne
  obtain ⟨hfirst, hgroup⟩ := groupOf_eq hΓ hgroups (.head _)
  -- Only the groups before are done, so the first function of this one is still to be typed.
  have hnew : s.schemes.contains g = false := by
    rw [← Bool.not_eq_true, hready.done_iff]
    exact hfirst
  have hsolve : solve Γ g = typeGroup Γ (solveWithin Γ Γ.groups.length) (g :: gs) := by
    rw [solve, solveWithin, hgroup]
  rw [solveGroups]
  simp only [head?_cons]
  rw [get_bind, hnew]
  simp only [Bool.not_false, if_true]
  rw [hsolve]

/-- The first of some groups is typed, and then the others. -/
theorem solveGroups_cons_eq_ok (hgroups : Γ.groups = before ++ group :: after)
    (hready : Ready before s) (h : solveGroups Γ (group :: rest) s = .ok () s') :
    ∃ s₁ opened typed spans e, typeGroup Γ (solveWithin Γ Γ.groups.length) group s = .ok () s₁ ∧
      GroupRun Γ (solveWithin Γ Γ.groups.length) group s opened typed spans e s₁ ∧
      solveGroups Γ rest s₁ = .ok () s' := by
  rw [solveGroups_cons hΓ hgroups hready] at h
  obtain ⟨_, s₁, hgroup, hrest⟩ := bind_eq_ok h
  obtain ⟨opened, typed, spans, e, hrun⟩ := typeGroup_eq_ok hready (hΓ ▸ hgroups) hgroup
  exact ⟨s₁, opened, typed, spans, e, hgroup, hrun, hrest⟩

/-- Whatever each group keeps that is typed holds after any number of groups. -/
theorem solveGroups_keeps {P : List (List Global) → State → Prop} {gs : List (List Global)}
    (hP : ∀ {before group after s s'}, Γ.groups = before ++ group :: after → Ready before s →
      P before s → typeGroup Γ (solveWithin Γ Γ.groups.length) group s = .ok () s' →
      P (before ++ [group]) s')
    (hgroups : Γ.groups = before ++ (gs ++ after)) (hready : Ready before s) (h : P before s)
    (hrun : solveGroups Γ gs s = .ok () s') : Ready (before ++ gs) s' ∧ P (before ++ gs) s' := by
  induction gs generalizing before s with
  | nil =>
    cases hrun
    rw [append_nil]
    exact ⟨hready, h⟩
  | cons group gs ih =>
    rw [cons_append] at hgroups
    obtain ⟨s₁, _, _, _, _, hgroup, htyped, hrest⟩ := solveGroups_cons_eq_ok hΓ hgroups hready hrun
    rw [append_cons]
    apply ih ?_ (htyped.ready hready) (hP hgroups hready h hgroup) hrest
    rw [hgroups, append_cons]

/-- When more groups are typed, the signatures of those before stay, and the store moves on. -/
theorem solveGroups_ready (hgroups : Γ.groups = before ++ (rest ++ after)) (hready : Ready before s)
    (h : solveGroups Γ rest s = .ok () s') :
    Ready (before ++ rest) s' ∧ s.engine.store.Evolves s'.engine.store ∧
      ∀ g ∈ before.flatten, s'.schemes.get? g = s.schemes.get? g := by
  induction rest generalizing before s with
  | nil =>
    cases h
    rw [append_nil]
    exact ⟨hready, .refl hready.valid.store, fun _ _ => rfl⟩
  | cons group rest ih =>
    obtain ⟨s₁, _, _, _, _, -, hrun, hrest⟩ := solveGroups_cons_eq_ok hΓ hgroups hready h
    have hmore : Γ.groups = (before ++ [group]) ++ (rest ++ after) := by simpa using hgroups
    obtain ⟨hready', hevolves, hschemes⟩ := ih hmore (hrun.ready hready) hrest
    refine ⟨by simpa using hready', (hrun.evolves hready.valid).trans hevolves, fun g hg => ?_⟩
    rw [hschemes g (by simp [hg]), hrun.schemes_eq]
    exact fun hgroup => (groupOf_eq hΓ hgroups hgroup).1 hg

/-- A group in the middle of others is typed between those before it and those after it. -/
theorem solveGroups_append {more : List (List Global)}
    (hgroups : Γ.groups = before ++ (rest ++ more)) (hready : Ready before s)
    (h : solveGroups Γ (rest ++ more) s = .ok () s') :
    ∃ s₁, solveGroups Γ rest s = .ok () s₁ ∧ Ready (before ++ rest) s₁ ∧
      solveGroups Γ more s₁ = .ok () s' := by
  induction rest generalizing before s with
  | nil => exact ⟨s, rfl, by simpa using hready, h⟩
  | cons group rest ih =>
    rw [cons_append] at hgroups h
    obtain ⟨s₁, _, _, _, _, hgroup, hrun, hrest⟩ := solveGroups_cons_eq_ok hΓ hgroups hready h
    have hmore : Γ.groups = (before ++ [group]) ++ (rest ++ more) := by simpa using hgroups
    obtain ⟨s₂, hsome, hready', hlast⟩ := ih hmore (hrun.ready hready) hrest
    refine ⟨s₂, ?_, by simpa using hready', hlast⟩
    rw [solveGroups_cons hΓ hgroups hready, bind_of_ok hgroup]
    exact hsome

end

theorem start_ready (session : Session) : Ready [] (start session) where
  valid := ⟨Store.valid_empty _, List.Pairwise.nil, forall_mem_nil _⟩
  idle := rfl
  solving_eq := rfl
  provisional_eq _ := rfl
  done_iff g := by
    have hnone : (start session).schemes.contains g = false := rfl
    simp [hnone]

section

variable (hs : s.engine.store.Valid)
variable {subject : Expr} {t : Ty} {subjects : List (Expr × Ty)}

include hs

theorem checkSubject_looks {final : Bool} (h : checkSubject final subject t s = .ok () s') :
    Looks s s' := by
  unfold checkSubject at h
  obtain ⟨u, s₁, hfind, h⟩ := bind_eq_ok h
  have hlooks := find_looks hs hfind
  split at h
  · split at h
    · cases h
    · cases h
      exact hlooks
  · cases h
    exact hlooks
  · obtain ⟨_, _, -, h⟩ := bind_eq_ok h
    cases h

theorem checkSubjects_looks (h : checkSubjects subjects s = .ok () s') : Looks s s' := by
  induction subjects generalizing s with
  | nil =>
    cases h
    exact .refl hs
  | cons x rest ih =>
    obtain ⟨_, s₁, hfirst, hrest⟩ := bind_eq_ok h
    have hlooks := checkSubject_looks hs hfirst
    exact hlooks.trans (ih hlooks.kept.valid hrest)

/-- What is matched on is a data type in the end. -/
theorem checkSubject_final (h : checkSubject true subject t s = .ok () s') :
    ∃ d ts, s.engine.store.resolve t = .data d ts := by
  unfold checkSubject at h
  obtain ⟨u, s₁, hfind, h⟩ := bind_eq_ok h
  have htop := find_eq_ok hs hfind
  split at h
  · cases h
  · next d ts =>
    refine ⟨d, ts.map (Ty.mapCells s.engine.store.value), ?_⟩
    rw [← hs.resolve_top, ← htop, Store.resolve_eq, Ty.mapCells_data]
  · obtain ⟨_, _, -, h⟩ := bind_eq_ok h
    cases h

theorem checkSubjects_final (h : checkSubjects subjects s = .ok () s') :
    ∀ x ∈ subjects, ∃ d ts, s.engine.store.resolve x.2 = .data d ts := by
  induction subjects generalizing s with
  | nil => simp
  | cons x rest ih =>
    obtain ⟨_, s₁, hfirst, hrest⟩ := bind_eq_ok h
    have hkept := (checkSubject_looks hs hfirst).kept
    refine forall_mem_cons.2 ⟨checkSubject_final hs hfirst, fun y hy => ?_⟩
    rw [← hkept.view.resolve_eq]
    exact ih hkept.valid hrest y hy

theorem finalTypes_eq_ok {nodes : List (Serial × (Phrase × Ty))} {final : List (Serial × Ty)}
    (h : finalTypes nodes s = .ok final s') :
    final = nodes.map (fun x => (x.1, s.engine.store.resolve x.2.2)) ∧
      (∀ x ∈ final, x.2.cellOccurrences = []) ∧ Looks s s' := by
  induction nodes generalizing s final with
  | nil =>
    cases h
    exact ⟨rfl, forall_mem_nil _, .refl hs⟩
  | cons x rest ih =>
    obtain ⟨n, site, t⟩ := x
    unfold finalTypes at h
    obtain ⟨u, s₁, hu, h⟩ := bind_eq_ok h
    have hlooks := resolve_looks hs hu
    have hresolve := resolve_eq_ok hs hu
    split at h
    · cases h
    · next hcells =>
      obtain ⟨more, s₂, hmore, h⟩ := bind_eq_ok h
      cases h
      obtain ⟨rfl, hclosed, hrest⟩ := ih hlooks.kept.valid hmore
      refine ⟨?_, forall_mem_cons.2 ⟨?_, hclosed⟩, hlooks.trans hrest⟩
      · rw [map_cons, hresolve]
        refine congrArg _ (map_congr_left fun x _ => ?_)
        rw [hlooks.kept.view.resolve_eq]
      · simp only [Bool.not_eq_true, Bool.not_eq_false', List.isEmpty_iff] at hcells
        rw [eq_nil_iff_forall_not_mem]
        intro c hc
        have hmem := Ty.mem_cells.2 hc
        rw [hcells] at hmem
        exact absurd hmem List.not_mem_nil

end

/-- Marks have been added, and paths in the store may have been shortened. -/
structure Annotates (types : List (Serial × Ty)) (typeArgs : List (Serial × List Ty))
    (s s' : State) : Prop where
  kept : s.engine.store.Kept s'.engine.store
  types_eq : s'.session.marks.types = types ++ s.session.marks.types
  typeArgs_eq : s'.session.marks.typeArgs = typeArgs ++ s.session.marks.typeArgs
  rest_eq : s' = { s with engine := s'.engine, session := s'.session }

namespace Annotates

variable {types types' : List (Serial × Ty)} {typeArgs typeArgs' : List (Serial × List Ty)}

theorem refl (hs : s.engine.store.Valid) : Annotates [] [] s s := ⟨.refl hs, rfl, rfl, rfl⟩

theorem trans {s'' : State} (h : Annotates types typeArgs s s')
    (h' : Annotates types' typeArgs' s' s'') :
    Annotates (types' ++ types) (typeArgs' ++ typeArgs) s s'' where
  kept := h.kept.trans h'.kept
  types_eq := by rw [h'.types_eq, h.types_eq, append_assoc]
  typeArgs_eq := by rw [h'.typeArgs_eq, h.typeArgs_eq, append_assoc]
  rest_eq := by rw [h'.rest_eq, h.rest_eq]

theorem schemes_eq (h : Annotates types typeArgs s s') : s'.schemes = s.schemes := by
  rw [h.rest_eq]

end Annotates

theorem Looks.annotates (h : Looks s s') : Annotates [] [] s s' where
  kept := h.kept
  types_eq := by rw [h.rest_eq]; rfl
  typeArgs_eq := by rw [h.rest_eq]; rfl
  rest_eq := by rw [h.rest_eq]

theorem types_foldl_setType (final : List (Serial × Ty)) (m : Marks) :
    (final.foldl (fun m (n, t) => m.setType n t) m).types = final.reverse ++ m.types ∧
      (final.foldl (fun m (n, t) => m.setType n t) m).typeArgs = m.typeArgs := by
  induction final generalizing m with
  | nil => exact ⟨rfl, rfl⟩
  | cons x final ih =>
    obtain ⟨htypes, hargs⟩ := ih (m.setType x.1 x.2)
    rw [foldl_cons, htypes, hargs, reverse_cons, append_assoc]
    exact ⟨rfl, rfl⟩

section

variable (hs : s.engine.store.Valid)

include hs

theorem mark_annotates (final : List (Serial × Ty))
    (h : onSession (SessionM.mark fun m => final.foldl (fun m (n, t) => m.setType n t) m) s =
      .ok () s') : Annotates final.reverse [] s s' := by
  cases h
  obtain ⟨htypes, hargs⟩ := types_foldl_setType final s.session.marks
  exact ⟨.refl hs, htypes, hargs, rfl⟩

theorem markCalls_annotates {calls : List (Serial × List Ty)} (h : markCalls calls s = .ok () s') :
    Annotates [] (calls.map fun x => (x.1, x.2.map s.engine.store.resolve)).reverse s s' := by
  induction calls generalizing s with
  | nil =>
    cases h
    exact .refl hs
  | cons x rest ih =>
    obtain ⟨n, ts⟩ := x
    obtain ⟨us, s₁, hus, h⟩ := bind_eq_ok h
    obtain ⟨_, s₂, hmark, hrest⟩ := bind_eq_ok h
    obtain ⟨rfl, hlooks⟩ := resolveAll_looks hs hus
    have hfirst : Annotates [] [(n, ts.map s.engine.store.resolve)] s₁ s₂ := by
      cases hmark
      exact ⟨.refl hlooks.kept.valid, rfl, rfl, rfl⟩
    have hmore := hlooks.annotates.trans (hfirst.trans (ih hfirst.kept.valid hrest))
    have hresolve : s₂.engine.store.resolve = s.engine.store.resolve :=
      funext (hlooks.kept.trans hfirst.kept).view.resolve_eq
    rw [hresolve] at hmore
    simpa using hmore

/-- Every node that was noted is marked with its final type, and every call with its final type
arguments. -/
theorem annotate_annotates (h : annotate s = .ok () s') :
    Annotates (s.nodeTypes.entries.map fun x => (x.1, s.engine.store.resolve x.2.2)).reverse
        (s.callArgs.entries.map fun x => (x.1, x.2.map s.engine.store.resolve)).reverse s s' ∧
      ∀ x ∈ s.nodeTypes.entries, (s.engine.store.resolve x.2.2).cellOccurrences = [] := by
  unfold annotate at h
  rw [get_bind] at h
  obtain ⟨_, s₁, hsubjects, h⟩ := bind_eq_ok h
  rw [get_bind] at h
  obtain ⟨final, s₂, hfinal, h⟩ := bind_eq_ok h
  obtain ⟨_, s₃, hmark, hmarkCalls⟩ := bind_eq_ok h
  rw [get_bind] at hmarkCalls
  have h₁ := checkSubjects_looks hs hsubjects
  obtain ⟨rfl, hclosed, h₂⟩ := finalTypes_eq_ok h₁.kept.valid hfinal
  have h₁₂ := h₁.trans h₂
  have h₃ := mark_annotates h₁₂.kept.valid _ hmark
  have h₄ := markCalls_annotates h₃.kept.valid hmarkCalls
  have hresolve₁ : s₁.engine.store.resolve = s.engine.store.resolve :=
    funext h₁.kept.view.resolve_eq
  have hresolve₃ : s₃.engine.store.resolve = s.engine.store.resolve :=
    funext (h₁₂.kept.trans h₃.kept).view.resolve_eq
  have hnodes : s₁.nodeTypes = s.nodeTypes := by rw [h₁.rest_eq]
  have hcalls : s₃.callArgs = s.callArgs := by rw [h₃.rest_eq, h₁₂.rest_eq]
  rw [hresolve₁, hnodes] at h₃ hclosed
  rw [hresolve₃, hcalls] at h₄
  constructor
  · simpa using h₁₂.annotates.trans (h₃.trans h₄)
  · intro x hx
    exact hclosed _ (mem_map_of_mem hx)

theorem annotate_subjects (h : annotate s = .ok () s') :
    ∀ x ∈ s.scrutinees, ∃ d ts, s.engine.store.resolve x.2 = .data d ts := by
  unfold annotate at h
  rw [get_bind] at h
  obtain ⟨_, s₁, hsubjects, -⟩ := bind_eq_ok h
  exact checkSubjects_final hs hsubjects

end

def symbols (m : Module) : List Serial :=
  m.functions.keys.map (fun g => g.serial) ++
    m.dataTypes.values.flatMap fun d => d.ctors.map fun c => c.serial

def MarkOf (s : State) (g : Global) (x : Serial × Ty) : Prop :=
  ∃ sig, s.schemes.get? g = some sig ∧ x = (g.serial, sig.toTy)

theorem map_fst_of_markOf {types : List (Serial × Ty)} (h : List.Forall₂ (MarkOf s) gs types) :
    types.map Prod.fst = gs.map fun g => g.serial := by
  induction h with
  | nil => rfl
  | cons hmark _ ih =>
    obtain ⟨sig, -, rfl⟩ := hmark
    rw [map_cons, map_cons, ih]

theorem recordSignatures_eq_ok {m' : Module} (hs : s.engine.store.Valid)
    (h : recordSignatures gs m s = .ok m' s') :
    (∃ types, Annotates types.reverse [] s s' ∧ List.Forall₂ (MarkOf s) gs types) ∧
      ∀ g, m'.signature? g = if g ∈ gs then s.schemes.get? g else m.signature? g := by
  induction gs generalizing s m with
  | nil =>
    cases h
    exact ⟨⟨[], .refl hs, .nil⟩, fun g => by simp⟩
  | cons g gs ih =>
    unfold recordSignatures at h
    rw [get_bind] at h
    cases hget : s.schemes.get? g with
    | none =>
      simp only [hget] at h
      cases h
    | some sig =>
      simp only [hget] at h
      obtain ⟨_, s₁, hmark, hrest⟩ := bind_eq_ok h
      have hfirst := mark_annotates hs [(g.serial, sig.toTy)] hmark
      obtain ⟨⟨types, hmore, htypes⟩, hsignatures⟩ := ih hfirst.kept.valid hrest
      refine ⟨⟨(g.serial, sig.toTy) :: types, ?_, ?_⟩, fun k => ?_⟩
      · rw [reverse_cons]
        exact hfirst.trans hmore
      · unfold MarkOf at htypes ⊢
        rw [hfirst.schemes_eq] at htypes
        exact .cons ⟨sig, hget, rfl⟩ htypes
      · rw [hsignatures, hfirst.schemes_eq, Module.signature?, Table.get?_insert]
        by_cases hk : k = g
        · simp [hk, hget]
        · simp [hk, Module.signature?]

def ctorMarks (ds : List DataType) : List (Serial × Ty) :=
  ds.flatMap fun d => d.ctors.map fun c => (c.serial, (d.ctorSignature c).toTy)

theorem map_fst_ctorMarks (ds : List DataType) :
    (ctorMarks ds).map Prod.fst = ds.flatMap fun d => d.ctors.map fun c => c.serial := by
  simp only [ctorMarks, map_flatMap, map_map]
  rfl

theorem markCtors_annotates {ds : List DataType} (hs : s.engine.store.Valid)
    (h : ds.forM markCtors s = .ok () s') : Annotates (ctorMarks ds).reverse [] s s' := by
  induction ds generalizing s with
  | nil =>
    cases h
    exact .refl hs
  | cons d ds ih =>
    obtain ⟨_, s₁, hmark, hrest⟩ := bind_eq_ok h
    have hfirst : Annotates
        (d.ctors.map fun c => (c.serial, (d.ctorSignature c).toTy)).reverse [] s s₁ := by
      refine mark_annotates hs _ ?_
      rw [← hmark, markCtors]
      simp only [foldl_map]
    rw [ctorMarks, flatMap_cons, reverse_append]
    exact hfirst.trans (ih hfirst.kept.valid hrest)

theorem lookup_of_mem [BEq κ] [LawfulBEq κ] {es : List (κ × α)} (h : (es.map Prod.fst).Nodup)
    {k : κ} (hmem : (k, a) ∈ es) : es.lookup k = some a := by
  induction es with
  | nil => cases hmem
  | cons e es ih =>
    rw [map_cons, nodup_cons] at h
    rw [lookup_cons]
    rcases mem_cons.1 hmem with rfl | hmem
    · simp
    · have hne : (k == e.1) = false := by
        rw [beq_eq_false_iff_ne]
        rintro rfl
        exact h.1 (mem_map.2 ⟨_, hmem, rfl⟩)
      rw [hne]
      exact ih h.2 hmem

theorem lookup_reverse_append [BEq κ] [LawfulBEq κ] {es : List (κ × α)}
    (h : (es.map Prod.fst).Nodup) {k : κ} (hmem : (k, a) ∈ es) (older : List (κ × α)) :
    (es.reverse ++ older).lookup k = some a := by
  have hnodup : (es.reverse.map Prod.fst).Nodup := by rwa [map_reverse, nodup_reverse]
  rw [lookup_append, lookup_of_mem hnodup (mem_reverse.2 hmem), Option.some_or]

theorem lookup_marked {β : Type} {entries : List (Serial × α)} (f : α → β)
    (h : (entries.map Prod.fst).Nodup) {n : Serial} (hn : entries.lookup n = some a)
    {newer older : List (Serial × β)} (hnewer : n ∉ newer.map Prod.fst) :
    (newer ++ (entries.map fun x => (x.1, f x.2)).reverse ++ older).lookup n = some (f a) := by
  have hnone : newer.lookup n = none := by
    rw [lookup_eq_none_iff]
    intro e he
    rw [bne_iff_ne]
    rintro rfl
    exact hnewer (mem_map_of_mem he)
  obtain ⟨before, after, rfl, -⟩ := lookup_eq_some_iff.1 hn
  have hmem : (n, f a) ∈ ((before ++ (n, a) :: after).map fun x => (x.1, f x.2)).reverse := by
    simp
  have hnodup : ((((before ++ (n, a) :: after).map fun x => (x.1, f x.2)).reverse).map
      Prod.fst).Nodup := by
    rw [map_reverse, nodup_reverse, map_map]
    exact h
  rw [append_assoc, lookup_append, hnone, Option.none_or, lookup_append,
    lookup_of_mem hnodup hmem, Option.some_or]

theorem finish_evolves {e e' : Engine} (he : e.Valid) (h : EngineM.finish registry e = .ok () e') :
    e.store.Evolves e'.store := by
  have hadvances : Engine.Advances registry e (endState (EngineM.finish registry) e) :=
    EngineM.finish_advances he
  rw [endState_of_ok h] at hadvances
  exact hadvances.evolves he

/-- How a module is checked: its groups are typed up to the state `s`, what is left is decided up to
the engine `e`, and the module is given the signatures found. What was noted is marked. -/
structure CheckRun (Γ : Context) (session : Session) (m : Module) (s : State) (e : Engine)
    (s' : State) : Prop where
  solved : solveGroups Γ Γ.groups (start session) = .ok () s
  ready : Ready Γ.groups s
  finished : EngineM.finish Γ.registry s.engine = .ok () e
  kept : e.store.Kept s'.engine.store
  signatures : ∀ g ∈ Γ.module.functions.keys, m.signature? g = s.schemes.get? g
  types : s.nodeTypes.keys.Nodup → ∀ {n site t}, s.nodeTypes.get? n = some (site, t) →
    n ∉ symbols Γ.module → s'.session.marks.type? n = some (e.store.resolve t)
  typeArgs : s.callArgs.keys.Nodup → ∀ {n ts}, s.callArgs.get? n = some ts →
    s'.session.marks.typeArgs? n = some (ts.map e.store.resolve)
  subjects : ∀ x ∈ s.scrutinees, ∃ d ts, e.store.resolve x.2 = .data d ts
  complete : ∀ x ∈ s.nodeTypes.entries, (e.store.resolve x.2.2).cellOccurrences = []
  marked : ∃ functions, List.Forall₂ (MarkOf s) Γ.module.functions.keys functions ∧
    s'.session.marks.types = (functions ++ ctorMarks Γ.module.dataTypes.values).reverse ++
      (s.nodeTypes.entries.map fun x => (x.1, e.store.resolve x.2.2)).reverse ++
      s.session.marks.types
  functions : (symbols Γ.module).Nodup → ∀ {g sig}, g ∈ Γ.module.functions.keys →
    s.schemes.get? g = some sig → s'.session.marks.type? g.serial = some sig.toTy
  ctors : (symbols Γ.module).Nodup → ∀ d ∈ Γ.module.dataTypes.values, ∀ c ∈ d.ctors,
    s'.session.marks.type? c.serial = some (d.ctorSignature c).toTy

theorem CheckRun.evolves {e : Engine} (h : CheckRun Γ session m s e s') :
    s.engine.store.Evolves s'.engine.store :=
  (finish_evolves h.ready.valid h.finished).trans h.kept.evolves

theorem checkModule_eq_ok (hΓ : Γ.groups = Γ.module.groups)
    (h : checkModule Γ (start session) = .ok m s') : ∃ s e, CheckRun Γ session m s e s' := by
  unfold checkModule at h
  obtain ⟨_, s, hsolve, h⟩ := bind_eq_ok h
  obtain ⟨_, s₁, hfinish, h⟩ := bind_eq_ok h
  obtain ⟨_, s₂, hannotate, h⟩ := bind_eq_ok h
  obtain ⟨m', s₃, hrecord, h⟩ := bind_eq_ok h
  obtain ⟨_, s₄, hctors, h⟩ := bind_eq_ok h
  cases h
  have hall : Γ.groups = [] ++ (Γ.groups ++ []) := by simp
  have hready := (solveGroups_ready hΓ hall (start_ready session) hsolve).1
  obtain ⟨hrun, hstate⟩ := onEngine_eq_ok hfinish
  have hvalid := (finish_evolves hready.valid hrun).valid
  -- After the engine has finished nothing but the marks and the length of paths changes.
  obtain ⟨h₁, hclosed⟩ := annotate_annotates hvalid hannotate
  obtain ⟨⟨types, h₂, hfunctions⟩, hsignatures⟩ := recordSignatures_eq_ok h₁.kept.valid hrecord
  have h₃ := markCtors_annotates h₂.kept.valid hctors
  have hall := h₁.trans (h₂.trans h₃)
  rw [← reverse_append] at hall
  have hfunctions : List.Forall₂ (MarkOf s) Γ.module.functions.keys types := by
    unfold MarkOf at hfunctions ⊢
    rwa [h₁.schemes_eq, hstate] at hfunctions
  have hsymbols : (types ++ ctorMarks Γ.module.dataTypes.values).map Prod.fst =
      symbols Γ.module := by
    rw [map_append, map_fst_of_markOf hfunctions, map_fst_ctorMarks, symbols]
  have hnodes : s₁.nodeTypes = s.nodeTypes := by rw [hstate]
  have hcalls : s₁.callArgs = s.callArgs := by rw [hstate]
  refine ⟨s, s₁.engine, hsolve, hready, hrun, hall.kept, fun g hg => ?_, ?_, ?_, ?_, hnodes ▸ hclosed,
    ⟨types, hfunctions, ?_⟩, ?_, ?_⟩
  · rw [hsignatures, if_pos hg, h₁.schemes_eq, hstate]
  · intro hnodup n site t hn hsymbol
    rw [Marks.type?, hall.types_eq, hnodes]
    refine lookup_marked (fun x => s₁.engine.store.resolve x.2) hnodup hn fun hmem => hsymbol ?_
    rwa [map_reverse, mem_reverse, hsymbols] at hmem
  · intro hnodup n ts hn
    rw [Marks.typeArgs?, hall.typeArgs_eq, hcalls]
    exact lookup_marked _ hnodup hn (by simp)
  · have hsubjects : s₁.scrutinees = s.scrutinees := by rw [hstate]
    rw [← hsubjects]
    exact annotate_subjects hvalid hannotate
  · rw [hall.types_eq, hstate]
  · intro hnodup g sig hg hsig
    obtain ⟨x, hx, sig', hsig', rfl⟩ := exists_of_mem_forall₂ hfunctions hg
    cases hsig.symm.trans hsig'
    rw [Marks.type?, hall.types_eq, append_assoc]
    exact lookup_reverse_append (hsymbols ▸ hnodup) (mem_append_left _ hx) _
  · intro hnodup d hd c hc
    rw [Marks.type?, hall.types_eq, append_assoc]
    refine lookup_reverse_append (hsymbols ▸ hnodup) (mem_append_right _ ?_) _
    exact mem_flatMap.2 ⟨d, hd, mem_map_of_mem hc⟩

theorem checkModule_of_check {operators : Operators} {report : Report}
    (h : (m.check operators registry report session).outcome = .ok true) :
    ∃ s', checkModule ⟨m, operators, registry, m.groups, report.verbose⟩ (start session) =
        .ok (m.check operators registry report session).module s' ∧
      (m.check operators registry report session).session = s'.session := by
  simp only [Module.check] at h ⊢
  cases hrun : checkModule ⟨m, operators, registry, m.groups, report.verbose⟩ (start session) with
  | ok m' s' => exact ⟨s', rfl, rfl⟩
  | error f s' =>
    simp only [hrun] at h
    cases f with
    | issue i =>
      dsimp only at h
      split at h <;> simp at h
    | _ => simp at h

end TensorTyping.Inference
