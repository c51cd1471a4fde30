import TensorTyping.Proofs.Inference.Bodies

/-!
# The order in which bodies are typed

The groups of a module are typed dependencies first. So whatever function of the module a body
mentions is being typed together with it or has its signature, and the step that types a function
on demand is never taken: the run stays the same, with success or not, whatever that step is
(`solveGroups_eq_typeGroups`).
-/
namespace TensorTyping

open List

namespace GroupSearch

variable {graph : List (Global × List Global)} {s : GroupSearch} {g : Global}

/-- Nothing has been met but what has a place in the graph. -/
def Inside (graph : List (Global × List Global)) (s : GroupSearch) : Prop :=
  ∀ g ∈ s.groups.flatten ++ s.stack, g ∈ graph.map Prod.fst

theorem Inside.enter (h : Inside graph s) (hg : g ∈ graph.map Prod.fst) :
    Inside graph (s.enter g).2 := by
  intro r hr
  rw [GroupSearch.enter, ← append_assoc, mem_append, mem_singleton] at hr
  rcases hr with hr | hr
  · exact h r hr
  · rw [hr]
    exact hg

theorem Inside.close (h : Inside graph s) (i : Nat) : Inside graph (s.close i) := by
  intro r hr
  apply h r
  simp only [GroupSearch.close, flatten_append, flatten_singleton,
    mem_append] at hr ⊢
  rcases hr with (hr | hr) | hr
  · exact .inl hr
  · exact .inr (mem_of_mem_drop hr)
  · exact .inr (mem_of_mem_take hr)

theorem visit_inside (hgraph : ∀ e ∈ graph, ∀ r ∈ e.2, r ∈ graph.map Prod.fst) (fuel : Nat)
    (h : Inside graph s) (hg : g ∈ graph.map Prod.fst) : Inside graph (visit graph fuel g s).2 := by
  induction fuel generalizing s g with
  | zero => exact h
  | succ fuel ih =>
    have hlook : ∀ (rs : List Global) (acc : Nat × GroupSearch),
        (∀ r ∈ rs, r ∈ graph.map Prod.fst) → Inside graph acc.2 →
        Inside graph (rs.foldl (look graph fuel) acc).2 := by
      intro rs
      induction rs with
      | nil => exact fun acc _ hacc => hacc
      | cons r rs ihrs =>
        intro acc hrs hacc
        apply ihrs _ fun q hq => hrs q (.tail _ hq)
        unfold look
        split
        · exact ih hacc (hrs r (.head _))
        · exact hacc
    have hsuccessors : ∀ r ∈ successors graph g, r ∈ graph.map Prod.fst := by
      intro r hr
      obtain ⟨e, he, hr⟩ := mem_successors hr
      exact hgraph e he r hr
    have hall := hlook (successors graph g) (s.stack.length, (s.enter g).2) hsuccessors (h.enter hg)
    rw [visit_succ]
    dsimp only
    split
    · exact hall.close _
    · exact hall

end GroupSearch

theorem Module.mem_keys_of_mem_groups {m : Module} {g : Global} (hg : g ∈ m.groups.flatten) :
    g ∈ m.functions.keys := by
  have hinside : ∀ (gs : List Global) (s : GroupSearch), (∀ g ∈ gs, g ∈ m.functions.keys) →
      s.Inside m.referenceGraph →
      (gs.foldl (GroupSearch.visitNew m.referenceGraph) s).Inside m.referenceGraph := by
    intro gs
    induction gs with
    | nil => exact fun s _ hs => hs
    | cons g gs ih =>
      intro s hgs hs
      apply ih _ fun q hq => hgs q (.tail _ hq)
      unfold GroupSearch.visitNew
      split
      · exact hs
      · apply GroupSearch.visit_inside m.referenceGraph_keys _ hs
        rw [m.map_fst_referenceGraph]
        exact hgs g (.head _)
  have hall := hinside m.functions.keys {} (fun _ h => h) (forall_mem_nil _)
  rw [← m.map_fst_referenceGraph]
  exact hall g (mem_append_left _ hg)

theorem Module.count_groups (m : Module) (g : Global) :
    m.groups.flatten.count g = if m.functions.contains g then 1 else 0 := by
  obtain ⟨hnodup, -, hkeys, -⟩ := m.groups_spec
  split
  · next hg => exact count_eq_one_of_mem hnodup (hkeys g (Module.mem_keys_of_contains hg))
  · next hg =>
    apply count_eq_zero.2
    intro hmem
    apply hg
    obtain ⟨⟨k, f⟩, hentry, rfl⟩ := mem_map.1 (Module.mem_keys_of_mem_groups hmem)
    rw [Table.contains, Table.get?, ← Option.ne_none_iff_isSome, Ne, lookup_eq_none_iff]
    intro hnone
    exact absurd (hnone (k, f) hentry) (by simp)

namespace Inference

variable {Γ : Context} {s s' : State}
variable {r : Global} {sig : Signature}

/-- Type groups one after the other, with the step `onDemand` for functions that are not known. -/
def typeGroups (Γ : Context) (onDemand : Global → InferM Unit) : List (List Global) → InferM Unit
  | [] => return ()
  | group :: rest => do
    typeGroup Γ onDemand group
    typeGroups Γ onDemand rest

theorem typeGroups_eq (hΓ : Γ.groups = Γ.module.groups) {before rest after : List (List Global)}
    (onDemand : Global → InferM Unit) (hgroups : Γ.groups = before ++ (rest ++ after))
    (hready : Ready before s) : solveGroups Γ rest s = typeGroups Γ onDemand rest s := by
  induction rest generalizing before s with
  | nil => rfl
  | cons group rest ih =>
    have hmodule : Γ.module.groups = before ++ group :: (rest ++ after) := hΓ ▸ hgroups
    have hgroup : typeGroup Γ (solveWithin Γ Γ.groups.length) group s =
        typeGroup Γ onDemand group s := hready.typeGroup_coincide hmodule
    rw [solveGroups_cons hΓ hgroups hready]
    unfold typeGroups
    apply bind_run_congr hgroup
    intro _ s' htyped
    obtain ⟨opened, typed, spans, e, hrun⟩ := typeGroup_eq_ok hready hmodule htyped
    exact ih (by simpa using hgroups) (hrun.ready hready)

/-- The groups of a module are typed one after the other, each by itself. -/
theorem solveGroups_eq_typeGroups (hΓ : Γ.groups = Γ.module.groups)
    {before rest : List (List Global)} (onDemand : Global → InferM Unit)
    (hgroups : Γ.groups = before ++ rest) (hready : Ready before s) :
    solveGroups Γ rest s = typeGroups Γ onDemand rest s :=
  typeGroups_eq hΓ onDemand (hgroups.trans (by rw [append_nil])) hready

/-- A reference to the function stands for the type and takes no type arguments. -/
def SeenAsOf (Γ : Context) (onDemand : Global → InferM Unit) (s : State) (r : Global) (t : Ty) :
    Prop :=
  ∀ explicit site attrs, reference Γ onDemand (.global r) explicit site attrs s =
    (do
      checkWritten Γ (explicit.getD []) site
      if !(explicit.getD []).isEmpty then
        complain (.typeArgumentArity 0 (explicit.getD []).length (some site))
      return some (t, [])) s

/-- A reference to the function takes an instance of the signature. -/
def SeenAt (Γ : Context) (onDemand : Global → InferM Unit) (s : State) (r : Global)
    (sig : Signature) : Prop :=
  ∀ explicit site attrs, reference Γ onDemand (.global r) explicit site attrs s =
    (do
      checkWritten Γ (explicit.getD []) site
      return some (← instantiate Γ sig explicit site attrs)) s

theorem seenAsOf_of_provisional {onDemand : Global → InferM Unit} {t : Ty}
    (hp : s.provisional.get? r = some t) : SeenAsOf Γ onDemand s r t := by
  intro explicit site attrs
  unfold reference
  apply bind_run_congr rfl
  intro _ s' hwritten
  rw [(checkWritten_ok_iff.1 hwritten).2, get_bind, hp]

theorem seenAt_of_signatureOf {onDemand : Global → InferM Unit} (hp : s.provisional.get? r = none)
    (hsig : signatureOf Γ onDemand r s = .ok sig s) : SeenAt Γ onDemand s r sig := by
  intro explicit site attrs
  unfold reference
  apply bind_run_congr rfl
  intro _ s' hwritten
  rw [(checkWritten_ok_iff.1 hwritten).2, get_bind, hp]
  exact bind_of_ok hsig

/-- The body of the next function of a group begins in the state `s`: the groups `before` are done,
which was so in the state `idle`, then the group was opened and the functions `earlier` of it were
typed. -/
def Begins (Γ : Context) (onDemand : Global → InferM Unit) (session : Session)
    (before : List (List Global)) (group earlier : List Global) (idle s : State) : Prop :=
  typeGroups Γ onDemand before (start session) = .ok () idle ∧
    ∃ opened spans, openGroup Γ group idle = .ok () opened ∧
      typeBodies Γ onDemand earlier opened = .ok spans s

/-- The signature is what the function has whenever some more of the groups are done, and in the
module when all are. -/
def Final (Γ : Context) (onDemand : Global → InferM Unit) (session : Session)
    (before : List (List Global)) (r : Global) (sig : Signature) : Prop :=
  (∀ more rest s, Γ.groups = (before ++ more) ++ rest →
    typeGroups Γ onDemand (before ++ more) (start session) = .ok () s →
    s.schemes.get? r = some sig) ∧
  ∀ m s, checkModule Γ (start session) = .ok m s → m.signature? r = some sig

theorem typeGroups_append (onDemand : Global → InferM Unit) (gs more : List (List Global)) :
    typeGroups Γ onDemand (gs ++ more) =
      (do typeGroups Γ onDemand gs; typeGroups Γ onDemand more) := by
  induction gs with
  | nil => rfl
  | cons g gs ih =>
    have hcons : ∀ rest, typeGroups Γ onDemand (g :: rest) =
        (do typeGroup Γ onDemand g; typeGroups Γ onDemand rest) := fun _ => rfl
    rw [cons_append, hcons, hcons, ih, bind_assoc]

section Moments

variable {onDemand : Global → InferM Unit} {session : Session}
  {before after : List (List Global)} {group earlier later : List Global} {idle : State}
variable {opened : State}

section

variable (hΓ : Γ.groups = Γ.module.groups)

include hΓ

theorem typeGroups_ready {gs : List (List Global)} (hgroups : Γ.groups = before ++ (gs ++ after))
    (hready : Ready before s) (h : typeGroups Γ onDemand gs s = .ok () s') :
    Ready (before ++ gs) s' ∧ ∀ g ∈ before.flatten, s'.schemes.get? g = s.schemes.get? g := by
  rw [← typeGroups_eq hΓ onDemand hgroups hready] at h
  obtain ⟨hready', -, hschemes⟩ := solveGroups_ready hΓ hgroups hready h
  exact ⟨hready', hschemes⟩

theorem final_of_idle (hgroups : Γ.groups = before ++ after)
    (hidle : typeGroups Γ onDemand before (start session) = .ok () idle) (hr : r ∈ before.flatten)
    (hsig : idle.schemes.get? r = some sig) : Final Γ onDemand session before r sig := by
  have hstart : Γ.groups = [] ++ (before ++ after) := by rw [hgroups]; rfl
  have hready : Ready before idle := by
    simpa using (typeGroups_ready hΓ hstart (start_ready session) hidle).1
  have hmore : ∀ more rest s, Γ.groups = (before ++ more) ++ rest →
      typeGroups Γ onDemand (before ++ more) (start session) = .ok () s →
      s.schemes.get? r = some sig := by
    intro more rest s hall h
    rw [typeGroups_append, bind_of_ok hidle] at h
    rw [append_assoc] at hall
    rw [(typeGroups_ready hΓ hall hready h).2 r hr, hsig]
  constructor
  · exact hmore
  · intro m s' h
    obtain ⟨s, e, hcheck⟩ := checkModule_eq_ok hΓ h
    have hsolved := hcheck.solved
    rw [solveGroups_eq_typeGroups hΓ onDemand (nil_append _).symm (start_ready session),
      hgroups] at hsolved
    have hkey : r ∈ Γ.module.functions.keys := by
      apply Module.mem_keys_of_mem_groups
      rw [← hΓ, hgroups, flatten_append]
      exact mem_append_left _ hr
    rw [hcheck.signatures r hkey]
    apply hmore after [] s _ hsolved
    rw [append_nil]
    exact hgroups

/-- While a body of a group is typed, exactly the functions of the group are being typed, and what
is known of functions is what was known when the group was opened. -/
theorem Begins.moment {g : Global} {f : Function} (hgroups : Γ.groups = before ++ group :: after)
    (hgroup : group = earlier ++ g :: later) (hf : Γ.module.functions.get? g = some f)
    (h : Begins Γ onDemand session before group earlier idle s)
    (hchanges : Changes Γ onDemand (· ∈ f.toExpr.mentions) s s') :
    Ready before idle ∧ ∃ opened, Opens Γ group idle opened ∧ Grows opened s' := by
  obtain ⟨hidle, opened, spans, hopen, hbodies⟩ := h
  have hstart : Γ.groups = [] ++ (before ++ group :: after) := by rw [hgroups]; rfl
  have hready : Ready before idle := by
    simpa using (typeGroups_ready hΓ hstart (start_ready session) hidle).1
  have hopens := openGroup_opens hready.valid.store hopen
  have hvalid := hopens.rests.valid hready.valid
  have hknown : ∀ g ∈ group, ∀ f, Γ.module.functions.get? g = some f → ∀ r ∈ f.body.mentions,
      Known Γ opened r :=
    fun g hg f hf r hr => hready.known (hΓ ▸ hgroups) hopens hg hf hr
  have hearlier : ∀ g ∈ earlier, g ∈ group := by
    intro g hg
    rw [hgroup]
    exact mem_append_left _ hg
  have hg : g ∈ group := by
    rw [hgroup]
    exact mem_append_right _ (.head _)
  obtain ⟨hgrows, -⟩ := typeBodies_grows hvalid (fun g hg => hknown g (hearlier g hg)) hbodies
  have hlater : Grows s s' :=
    hchanges.grows (hgrows.valid hvalid) fun r hr => hgrows.known (hknown g hg f hf r hr)
  exact ⟨hready, opened, hopens, hgrows.trans hlater⟩

theorem Ready.seenAt_done (hgroups : Γ.groups = before ++ group :: after)
    (hready : Ready before idle) (hopens : Opens Γ group idle opened) (hgrows : Grows opened s)
    (hr : r ∈ before.flatten) (hf : Γ.module.functions.contains r = true) :
    ∃ sig, idle.schemes.get? r = some sig ∧ SeenAt Γ onDemand s r sig := by
  have hother : r ∉ group := fun hmem => (groupOf_eq hΓ hgroups hmem).1 hr
  have hprovisional : s.provisional.get? r = none := by
    rw [hgrows.provisional_eq, hopens.others r fun hmem => hother (mem_undeclared.1 hmem).1,
      hready.provisional_eq]
  have hschemes : s.schemes = idle.schemes := by rw [hgrows.schemes_eq, hopens.schemes_eq]
  have hdone := (hready.done_iff r).2 hr
  obtain ⟨sig, hsig⟩ := Option.isSome_iff_exists.1 hdone
  refine ⟨sig, hsig, seenAt_of_signatureOf hprovisional ?_⟩
  apply signatureOf_ok_iff.2
  rw [hschemes]
  refine ⟨hf, .inr ⟨fun hused => ?_, .inr ⟨hdone, rfl⟩, hsig⟩⟩
  have hsolving := hused.2
  rw [hgrows.solving_eq, hopens.solving_eq, hready.solving_eq, nil_append,
    contains_iff_mem] at hsolving
  exact hother hsolving

end

theorem Ready.seen_member (hready : Ready before idle) (hopens : Opens Γ group idle opened)
    (hgrows : Grows opened s) (hr : r ∈ group) (hf : Γ.module.functions.contains r = true) :
    (Γ.declared? r = none ∧ ∃ t, s.provisional.get? r = some t ∧ SeenAsOf Γ onDemand s r t) ∨
      ∃ sig, Γ.declared? r = some sig ∧ SeenAt Γ onDemand s r sig := by
  cases hd : Γ.declared? r with
  | none =>
    left
    have hstarted : s.provisional.get? r ≠ none := by
      rw [hgrows.provisional_eq]
      exact hopens.started r (mem_undeclared.2 ⟨hr, hd⟩)
    obtain ⟨t, ht⟩ := Option.ne_none_iff_exists'.1 hstarted
    exact ⟨rfl, t, ht, seenAsOf_of_provisional ht⟩
  | some sig =>
    right
    have hother : r ∉ Γ.undeclared group := by
      intro hmem
      have hnone := (mem_undeclared.1 hmem).2
      rw [hd] at hnone
      contradiction
    have hprovisional : s.provisional.get? r = none := by
      rw [hgrows.provisional_eq, hopens.others r hother, hready.provisional_eq]
    refine ⟨sig, rfl, seenAt_of_signatureOf hprovisional ?_⟩
    apply signatureOf_ok_iff.2
    refine ⟨hf, .inl ⟨⟨by rw [hd]; rfl, ?_⟩, hd, rfl⟩⟩
    rw [hgrows.solving_eq, hopens.solving_eq, contains_iff_mem]
    exact mem_append_right _ hr

/-- Dependencies are typed first. Every function of the module stands in one place of the groups,
and the run is the same whatever is done on demand, so that no group is begun in the middle of
another. While a body is typed, each function of the module that it mentions is of the same group,
and seen at its provisional type or its declared signature, or has its final signature. -/
theorem dependencies_typed_first (hΓ : Γ.groups = Γ.module.groups) (session : Session)
    (onDemand : Global → InferM Unit) :
    (∀ g, Γ.groups.flatten.count g = if Γ.module.functions.contains g then 1 else 0) ∧
    solveGroups Γ Γ.groups (start session) = typeGroups Γ onDemand Γ.groups (start session) ∧
    ∀ before group after earlier g later f idle s, Γ.groups = before ++ group :: after →
      group = earlier ++ g :: later → Γ.module.functions.get? g = some f →
      Begins Γ onDemand session before group earlier idle s →
      idle.solving = [] ∧
      ∀ s', Changes Γ onDemand (· ∈ f.toExpr.mentions) s s' →
        s'.solving = group ∧
        ∀ r ∈ f.toExpr.mentions, Γ.module.functions.contains r = true →
          (r ∈ group ∧
            ((Γ.declared? r = none ∧ ∃ t, s'.provisional.get? r = some t ∧
              SeenAsOf Γ onDemand s' r t) ∨
            ∃ sig, Γ.declared? r = some sig ∧ SeenAt Γ onDemand s' r sig)) ∨
          (r ∈ before.flatten ∧ ∃ sig, SeenAt Γ onDemand s' r sig ∧
            Final Γ onDemand session before r sig) := by
  refine ⟨fun g => ?_, ?_, ?_⟩
  · rw [hΓ]
    exact Γ.module.count_groups g
  · exact solveGroups_eq_typeGroups hΓ onDemand (List.nil_append _).symm (start_ready session)
  intro before group after earlier g later f idle s hgroups hgroup hf hbegins
  obtain ⟨hready, -⟩ := hbegins.moment hΓ hgroups hgroup hf .refl
  refine ⟨hready.solving_eq, fun s' hchanges => ?_⟩
  obtain ⟨-, opened, hopens, hgrows⟩ := hbegins.moment hΓ hgroups hgroup hf hchanges
  constructor
  · rw [hgrows.solving_eq, hopens.solving_eq, hready.solving_eq, List.nil_append]
  intro r hr hfunction
  have hg : g ∈ group := by simp [hgroup]
  rcases Module.mentions_settled (hΓ ▸ hgroups) hg hf hr hfunction with hbefore | hmember
  · right
    obtain ⟨sig, hsig, hseen⟩ := hready.seenAt_done hΓ hgroups hopens hgrows hbefore hfunction
    exact ⟨hbefore, sig, hseen, final_of_idle hΓ hgroups hbegins.1 hbefore hsig⟩
  · left
    exact ⟨hmember, hready.seen_member hopens hgrows hmember hfunction⟩

end Moments

/-! Two functions that refer to one another, and to a third one. -/

namespace Parity

def x : Var := ⟨⟨1, "x"⟩, none⟩
def y : Var := ⟨⟨2, "y"⟩, none⟩
def z : Var := ⟨⟨3, "z"⟩, none⟩
def even : Global := ⟨⟨4, "even"⟩⟩
def odd : Global := ⟨⟨5, "odd"⟩⟩
def id : Global := ⟨⟨6, "id"⟩⟩

/-- The function `fn(x) { if true then id(x) else odd(x) }`. -/
def bodyOfEven : Function where
  node := 7
  params := [x]
  body := .cond 8 (.constant 9 ⟨"bool", [], .bool true⟩)
    (.call 10 (.global id) [.var x] none .empty) (.call 11 (.global odd) [.var x] none .empty)

def bodyOfOdd : Function where
  node := 12
  params := [y]
  body := .call 13 (.global even) [.var y] none .empty

def bodyOfId : Function := { node := 14, params := [z], body := .var z }

def module : Module where
  functions := ⟨[(even, bodyOfEven), (odd, bodyOfOdd), (id, bodyOfId)]⟩

def context : Context where
  module := module
  operators := (Operators.standard ⟨50⟩).1
  registry := .standard
  groups := module.groups

def session : Session := { supply := ⟨200⟩ }

def idle : State := endState (typeGroups context refuse [[id]]) (start session)

def opened : State := endState (openGroup context [even, odd]) idle

theorem begins : Begins context refuse session [[id]] [even, odd] [] idle opened := by
  have hid : succeeds (typeGroups context refuse [[id]]) (start session) = true := by decide +kernel
  have hopen : succeeds (openGroup context [even, odd]) idle = true := by decide +kernel
  obtain ⟨_, hidle⟩ := succeeds_iff.1 hid
  obtain ⟨_, hopened⟩ := succeeds_iff.1 hopen
  exact ⟨hidle, opened, [], hopened, rfl⟩

end Parity

/-- When the body of `even` begins, `odd` is being typed and `id` is done. -/
theorem dependencies_typed_first_parity :
    Parity.context.groups = [[Parity.id], [Parity.even, Parity.odd]] ∧
      Begins Parity.context refuse Parity.session [[Parity.id]] [Parity.even, Parity.odd] []
        Parity.idle Parity.opened ∧
      Parity.idle.solving = [] ∧ Parity.opened.solving = [Parity.even, Parity.odd] ∧
      (∃ t, Parity.opened.provisional.get? Parity.odd = some t ∧
        SeenAsOf Parity.context refuse Parity.opened Parity.odd t) ∧
      ∃ sig, SeenAt Parity.context refuse Parity.opened Parity.id sig ∧
        Final Parity.context refuse Parity.session [[Parity.id]] Parity.id sig := by
  have hgroups : Parity.context.groups = [[Parity.id], [Parity.even, Parity.odd]] := by
    decide +kernel
  obtain ⟨-, -, hbodies⟩ := dependencies_typed_first (Γ := Parity.context) rfl Parity.session refuse
  obtain ⟨hidle, hmoments⟩ := hbodies [[Parity.id]] [Parity.even, Parity.odd] [] [] Parity.even
    [Parity.odd] Parity.bodyOfEven Parity.idle Parity.opened hgroups rfl rfl Parity.begins
  obtain ⟨hsolving, hseen⟩ := hmoments Parity.opened .refl
  refine ⟨hgroups, Parity.begins, hidle, hsolving, ?_, ?_⟩
  · rcases hseen Parity.odd (by decide +kernel) rfl with ⟨-, ⟨-, hodd⟩ | ⟨sig, hsig, -⟩⟩ | ⟨hmem, -⟩
    · exact hodd
    · cases hsig
    · exact absurd hmem (by decide)
  · rcases hseen Parity.id (by decide +kernel) rfl with ⟨hmem, -⟩ | ⟨-, hid⟩
    · exact absurd hmem (by decide)
    · exact hid

end Inference

end TensorTyping
