import TensorTyping.Proofs.Inference.Closedness
import TensorTyping.Proofs.Inference.Enclosure

/-!
# Type parameters stay inside their function

A local function is checked with its type parameters as they are, so they should not come up in the
types of what is around it. They do if the function shares a cell with what is around it: if it uses
a variable whose type is not written, or if a cell is left in its own type, which all its calls then
share. A function that is sealed against that, and that is only called, keeps its parameters to itself
in every module that checks: whatever is marked outside of it has a type in which they are not free.

When a group is closed the cells that are left become new parameters, and the relations that are left
inside the function go into the signature of the function around it, which is then generic in these
parameters as well.
-/
namespace TensorTyping

open List

variable {p : TypeParam} {last : Serial}

namespace Ty

theorem constituent_of_mem_free {t : Ty} (hp : p ∈ t.paramOccurrences []) :
    .param p ∈ t.constituents := by
  induction t using induction_children with
  | step t ih =>
    rcases mem_free.1 hp with rfl | ⟨u, hu, hp, -⟩
    · simp [constituents]
    · exact mem_constituents.2 (.inr ⟨u, hu, ih u hu hp⟩)

end Ty

namespace Divide

variable {D : Divide} {side : Side} {s s' : Store} {t : Ty}

theorem On.not_free (h : D.On .outside s t) (hp : p ∈ D.params) :
    p ∉ (s.resolve t).paramOccurrences [] := fun hfree =>
  (Ty.everywhere_iff_constituents.1 h.2 _ (Ty.constituent_of_mem_free hfree)).2 hp

theorem On.limited (h : D.On side s t) (ht : (s.resolve t).cellOccurrences = []) :
    (s.resolve t).Limited D.params (D.scope side) where
  complete := ht
  binders u hu := (Ty.everywhere_iff_constituents.1 h.2 u hu).1
  free p hp hmem := by
    cases side with
    | inside => exact hmem
    | outside => exact absurd hp (h.not_free hmem)

/-- The divide with all cells of a store on one side. -/
def allOn (side : Side) (params : List TypeParam) (s : Store) : Divide where
  params := params
  side? c := if s.owns c then some side else none

theorem allOn_unborn (params : List TypeParam) (s : Store) : (allOn side params s).Unborn s :=
  fun c hc => by simp [allOn, hc]

theorem On.named (h : D.On side s t) (hnames : s.Names last s') (hevolves : s.Evolves s')
    (hlast : ∀ p ∈ D.params, p.serial ≤ last) : (allOn side D.params s').On side s' t := by
  let all : Divide := ⟨D.params, fun _ => some side⟩
  have hholds : s.Holds (all.part side) t := by
    refine Ty.Everywhere.of_cells h.2 fun u hu _ => ⟨hu.1, ?_⟩
    have hu := hu.2
    cases u with
    | cell c => exact rfl
    | _ => cases side <;> exact hu
  have hwithin : s.Within (all.part side) s' := by
    refine hnames _ (all.part_steady side) (fun c => part_cell.2 rfl) fun p hp => ?_
    refine ⟨by simp, ?_⟩
    cases side with
    | inside => trivial
    | outside => exact fun hmem => absurd (hlast p hmem) (Nat.not_le.2 hp)
  have howned := hevolves.later.ownsAll h.1
  refine ⟨howned, Ty.Everywhere.of_cells (hwithin.holds t hholds) fun u hu hcells => ⟨hu.1, ?_⟩⟩
  have hu := hu.2
  cases u with
  | cell c =>
    have hc := (hevolves.valid.free_of_mem_resolve howned (hcells c rfl)).1
    simp [leaf, allOn, hc]
  | _ => cases side <;> exact hu

end Divide

namespace LocalFunction

open Inference

variable {F : LocalFunction} {D D' : Divide} {Γ : Context} {s s' : State}
variable {sig : Signature} {gs : List Global} {span : Span} {session : Session}

theorem Generic.named {s s' : Store} {t : Ty} (h : F.Generic s t) (hnames : s.Names last s') :
    F.Generic s' t := by
  obtain ⟨as, r, rs, htop, hlimited⟩ := h
  refine ⟨as, r, rs, ?_, hlimited⟩
  have hwithin := hnames (fun _ => True) (fun _ _ _ => trivial) (fun _ => trivial) fun _ _ => trivial
  cases t with
  | cell c =>
    have hpeek : s.peek c = .func as r F.params rs := htop
    exact (hwithin.peek_eq c (by rw [hpeek]; rfl)).trans hpeek
  | _ => exact htop

theorem Noted.not_free {s : Store} {t : Ty} (h : F.Noted D s t) (hs : s.Valid)
    (hparams : D.params = F.params) (hp : p ∈ F.params) :
    p ∉ (s.resolve t).paramOccurrences [] := by
  rcases h with h | ⟨as, r, rs, htop, -⟩
  · exact h.not_free (hparams ▸ hp)
  · rw [← hs.resolve_top, htop, Store.resolve_eq, Ty.mapCells_func]
    intro hfree
    rcases Ty.mem_free.1 hfree with heq | ⟨u, -, -, hu⟩
    · cases heq
    · exact hu hp

/-! ## Groups -/

theorem startProvisional_stands (h : F.Stands D s) (hrun : startProvisional gs s = .ok () s') :
    ∃ D', F.Stands D' s' ∧ s'.session = s.session := by
  induction gs generalizing D s with
  | nil =>
    cases hrun
    exact ⟨D, h, rfl⟩
  | cons g gs ih =>
    unfold startProvisional at hrun
    obtain ⟨t, s₁, hfresh, hrun⟩ := bind_ok_iff.1 hrun
    obtain ⟨D₁, h₁, hon⟩ := fresh_goes h .outside hfresh
    rw [modify_bind] at hrun
    have h₂ : F.Stands D₁ { s₁ with provisional := s₁.provisional.insert g t } :=
      { h₁.stands with
        provisional := fun {k u} hk => by
          simp only [Table.get?_insert] at hk
          split at hk
          · cases hk
            exact hon
          · exact h₁.stands.provisional hk }
    obtain ⟨D', h', hsession⟩ := ih h₂ hrun
    exact ⟨D', h', hsession.trans h₁.session_eq⟩

theorem openGroup_stands {group : List Global} (h : F.Stands D s)
    (hrun : openGroup Γ group s = .ok () s') : ∃ D', F.Stands D' s' ∧ s'.session = s.session := by
  unfold openGroup at hrun
  obtain ⟨_, s₁, htell, hrun⟩ := bind_ok_iff.1 hrun
  rw [modify_bind, tell_eq_ok htell] at hrun
  have h₁ : F.Goes .outside D s D { s with told := s₁.told, solving := s.solving ++ group } :=
    .of_same h rfl rfl rfl rfl rfl
  obtain ⟨D', h', hsession⟩ := startProvisional_stands h₁.stands hrun
  exact ⟨D', h', hsession⟩

theorem typeBody_goes {g : Global} {f : Function} (hF : F.Sealed) (hΓ : F.Serves Γ)
    (hf : Γ.module.functions.get? g = some f) (hbody : F.Admits .outside f.toExpr)
    (hsilent : F.Silent .outside f.toExpr s) (h : F.Stands D s)
    (hrun : typeBody Γ refuse g s = .ok span s') : ∃ D', F.Goes .outside D s D' s' := by
  unfold typeBody at hrun
  simp only [hf] at hrun
  rw [get_bind] at hrun
  obtain ⟨t, s₁, hinfer, hrun⟩ := bind_ok_iff.1 hrun
  rw [get_bind, get_bind] at hrun
  obtain ⟨D₁, h₁, hon⟩ := infer_encloses hF hΓ hbody h (forall_mem_nil _)
    hsilent hinfer
  cases hg : s₁.provisional.get? g with
  | none =>
    simp only [hg] at hrun
    cases hrun
    exact ⟨D₁, h₁⟩
  | some u =>
    simp only [hg] at hrun
    obtain ⟨_, s₂, hunify, hrun⟩ := bind_ok_iff.1 hrun
    cases hrun
    exact ⟨D₁, h₁.trans (unify_goes h₁.stands (h₁.stands.provisional hg) hon hunify)⟩

/-- The function stands in a module. -/
structure Inhabits (F : LocalFunction) (m : Module) : Prop where
  isSealed : F.Sealed
  bodies : ∀ f ∈ m.functions.values, F.Admits .outside f.toExpr
  unbound : ∀ group ∈ m.groups, ∀ k ∈ group, ∀ f ∈ m.functions.get? k, F.expr ∈ f.toExpr.parts →
    ∀ g ∈ F.expr.mentions, g ∈ group → ∀ f' ∈ m.functions.get? g, f'.isDeclared = true

theorem Admits.node_of_fn {n : Serial} {params : List Var} {body : Expr} {ret : Option Ty}
    {typeParams : List TypeParam} {relations : List TypeRelation} {side : Side}
    (h : F.Admits side (.fn n params body ret typeParams relations)) :
    F.Node side (.fn n params body ret typeParams relations) := by
  cases h with
  | node here => exact here

theorem Inhabits.fine {m : Module} (h : F.Inhabits m) {f : Function} (hf : f ∈ m.functions.values)
    (hsig : f.declared? = some sig) : F.Fine sig := by
  obtain ⟨hargs, hret, hrelations⟩ := Function.declared?_eq_some hsig
  intro u hu
  refine ((h.bodies f hf).node_of_fn.written u ?_).mono (nil_subset _)
  simp only [Signature.toTy, Ty.mem_children_func, hargs, hrelations] at hu
  simp only [Expr.written, mem_append, hret, Option.toList_some, mem_singleton,
    mem_flatMap]
  tauto

theorem typeBodies_goes {spans : List Span} (hm : F.Inhabits Γ.module) (hΓ : F.Serves Γ)
    (hgs : ∀ g ∈ gs, ∀ f ∈ Γ.module.functions.get? g, F.Silent .outside f.toExpr s)
    (h : F.Stands D s) (hrun : typeBodies Γ refuse gs s = .ok spans s') :
    ∃ D', F.Goes .outside D s D' s' := by
  induction gs generalizing D s spans with
  | nil =>
    obtain ⟨-, rfl⟩ := pure_ok_iff.1 hrun
    exact ⟨D, .refl h⟩
  | cons g gs ih =>
    obtain ⟨span, s₁, rest, hbody, hrest, -⟩ := typeBodies_cons hrun
    obtain ⟨f, -, -, hf, -⟩ := typeBody_eq_ok hbody
    rw [forall_mem_cons] at hgs
    obtain ⟨D₁, h₁⟩ := typeBody_goes hm.isSealed hΓ hf
      (hm.bodies f (Table.mem_values_of_get? hf)) (hgs.1 f hf) h hbody
    obtain ⟨D₂, h₂⟩ := ih (fun k hk f hf => (hgs.2 k hk f hf).goes h₁) h₁.stands hrest
    exact ⟨D₂, h₁.trans h₂⟩

structure Rests (F : LocalFunction) (s : State) : Prop where
  stands : F.Stands (.allOn .outside F.params s.engine.store) s
  supply : ∀ p ∈ F.params, p.serial ≤ s.session.supply.last

theorem rests_start (h : ∀ p ∈ F.params, p.serial ≤ session.supply.last) :
    F.Rests (start session) where
  stands :=
    { params_eq := rfl
      valid := (start_ready session).valid
      unborn := Divide.allOn_unborn _ _
      slots := forall_mem_nil _
      provisional := nofun
      schemes := nofun
      notes := nofun }
  supply p hp := (h p hp).trans (Nat.le_succ _)

/-- While a group is open, no function that the inside refers to has a provisional type. -/
theorem Inhabits.silent (h : F.Inhabits Γ.module)
    {before after : List (List Global)} {group : List Global} (hready : Ready before s)
    (hgroups : Γ.module.groups = before ++ group :: after) (hopens : Opens Γ group s s')
    {k : Global} (hk : k ∈ group) {f : Function} (hf : f ∈ Γ.module.functions.get? k) :
    F.Silent .outside f.toExpr s' := by
  rintro g ⟨hpart, hg⟩
  by_cases hmem : g ∈ Γ.undeclared group
  · obtain ⟨hgroup, hnone⟩ := mem_undeclared.1 hmem
    have hin : group ∈ Γ.module.groups := by
      rw [hgroups]
      simp
    have hkey : g ∈ Γ.module.functions.keys :=
      Module.mem_keys_of_mem_groups (mem_flatten.2 ⟨group, hin, hgroup⟩)
    obtain ⟨f', hf'⟩ := Option.isSome_iff_exists.1 (Table.contains_iff_mem_keys.2 hkey)
    have hdeclared := h.unbound group hin k hk f hf hpart g hg hgroup f' hf'
    rw [Context.declared?, hf', Option.bind_some] at hnone
    rw [Function.isDeclared, hnone] at hdeclared
    cases hdeclared
  · rw [hopens.others g hmem]
    exact hready.provisional_eq g

section

variable {before after : List (List Global)} {group : List Global} {opened typed : State}
  {spans : List Span} {e : Engine}

theorem Stands.propagated (h : F.Stands D typed)
    (hclosed : Closes Γ group spans s.engine.added typed e s') :
    Divide.Keeps .outside D typed.engine.store D e.store ∧
      ∀ i ∈ e.waiting, D.Sided e.store i := by
  have hsteps := EngineM.propagate_eq_ok hclosed.propagated
  have hkeeps := Divide.steps_keeps h.valid h.slots hsteps
  refine ⟨hkeeps, fun i hi => (h.slots i ?_).keeps hkeeps⟩
  exact (Engine.Steps.advances hsteps h.valid).waiting_sublist.subset hi

/-- The signature that is found for a function does not have the parameters but as its own. -/
theorem fine_of_recorded (hm : F.Inhabits Γ.module) (h : F.Stands D typed)
    (hsupply : ∀ p ∈ F.params, p.serial ≤ typed.session.supply.last)
    (hclosed : Closes Γ group spans s.engine.added typed e s') (hspan : span ∈ spans)
    (hd : Γ.declared? span.function = none) (hsig : s'.schemes.get? span.function = some sig) :
    F.Fine sig := by
  obtain ⟨hkeeps, hslots⟩ := h.propagated hclosed
  have hlast : ∀ p ∈ D.params, p.serial ≤ typed.session.supply.last := h.params_eq ▸ hsupply
  obtain ⟨t, ht, ⟨f, sig', hf, hsig', ⟨ps, rs, htype⟩, hrels, hparams⟩, hcomplete⟩ :=
    hclosed.recorded span hspan hd
  obtain rfl : sig' = sig := Option.some.inj (hsig'.symm.trans hsig)
  have hon : ∀ {side t}, D.On side e.store t →
      (Divide.allOn side F.params s'.engine.store).On side s'.engine.store t := fun ht =>
    h.params_eq ▸ ht.named hclosed.names hclosed.evolves hlast
  -- The type that is found is on the outside.
  have hclosedType : (s'.engine.store.resolve t).Limited F.params [] :=
    (hon (hkeeps.on (h.provisional ht))).limited hcomplete
  intro u hu
  simp only [Signature.toTy, Ty.mem_children_func, hrels, mem_append] at hu
  rcases hu with hu | rfl | ⟨x, hx | hx, hu⟩
  · refine (hclosedType.child ?_).mono (nil_subset _)
    simp [htype, hu]
  · refine (hclosedType.child ?_).mono (nil_subset _)
    simp [htype]
  · refine ((hm.bodies f (Table.mem_values_of_get? hf)).node_of_fn.written u ?_).mono
      (nil_subset _)
    simp only [Expr.written, mem_append, mem_flatMap]
    exact .inr ⟨x, hx, hu⟩
  · -- A relation that is left may be one of the inside, but what is free in it is quantified over.
    have hfree : ∀ p ∈ u.paramOccurrences [], p ∈ sig'.params := by
      intro p hp
      rw [hparams, mem_addParams]
      right
      exact Ty.mem_freeParamsOf.2
        ⟨u, .tail _ (mem_flatMap.2 ⟨x, hx, hu⟩), hp⟩
    obtain ⟨i, hi, rfl⟩ := mem_map.1 hx
    obtain ⟨a, ha, rfl⟩ := mem_map.1 hu
    obtain ⟨hi, hcovers⟩ := mem_filter.1 hi
    rw [Bool.and_eq_true, Bool.not_eq_true'] at hcovers
    obtain ⟨side, hside⟩ := hslots i hi
    have hlimited := (hon (hside a ha)).limited
      (hclosed.complete span hspan hd i hi hcovers.1 hcovers.2 a ha)
    exact ⟨hlimited.complete, hlimited.binders, fun p hp _ => hfree p hp⟩

theorem Rests.step {solve : Global → InferM Unit} (hm : F.Inhabits Γ.module) (hΓ : F.Serves Γ)
    (hgroups : Γ.module.groups = before ++ group :: after) (hready : Ready before s)
    (h : F.Rests s) (hrun : typeGroup Γ solve group s = .ok () s') : F.Rests s' := by
  replace hrun := hready.typeGroup hgroups hrun
  obtain ⟨opened, typed, spans, e, run⟩ := typeGroup_eq_ok hready hgroups hrun
  have hready' := run.ready hready
  obtain ⟨D₀, h₀, hopened⟩ := openGroup_stands h.stands run.opens
  obtain ⟨D₁, h₁⟩ := typeBodies_goes hm hΓ
    (fun k hk f hf => hm.silent hready hgroups run.opened_eq hk hf) h₀ run.bodies
  have htyped := h₁.stands
  have hsupply : ∀ p ∈ F.params, p.serial ≤ typed.session.supply.last := by
    rw [h₁.session_eq, hopened]
    exact h.supply
  obtain ⟨hkeeps, -⟩ := htyped.propagated run.closes
  have hlast : ∀ p ∈ D₁.params, p.serial ≤ typed.session.supply.last :=
    htyped.params_eq ▸ hsupply
  refine ⟨?_, fun p hp => (hsupply p hp).trans run.closes.supply_le⟩
  refine
    { params_eq := rfl
      valid := hready'.valid
      unborn := Divide.allOn_unborn _ _
      slots := by simp [hready'.idle]
      provisional := fun {g t} hg => by simp [hready'.provisional_eq g] at hg
      schemes := fun {g sig} hsig => ?_
      notes := fun {n t} hn hout => ?_ }
  · by_cases hg : g ∈ group
    · cases hd : Γ.declared? g with
      | some sig' =>
        rw [run.closes.declared g hg sig' hd] at hsig
        cases hsig
        exact hΓ.declared hd
      | none =>
        obtain ⟨span, hspan, rfl⟩ := mem_map.1 (run.functions_eq.symm ▸ hg)
        exact fine_of_recorded hm htyped hsupply run.closes hspan hd hsig
    · rw [run.closes.others g hg, h₁.schemes_eq, run.opened_eq.schemes_eq] at hsig
      exact h.stands.schemes hsig
  · rw [State.note?, run.closes.notes_eq.1] at hn
    rcases (htyped.notes hn hout).keeps hkeeps with hon | hgeneric
    · exact .inl (htyped.params_eq ▸ hon.named run.closes.names run.closes.evolves hlast)
    · exact .inr (hgeneric.named run.closes.names)

end

theorem Fine.not_free (h : F.Fine sig) (hp : p ∈ F.params) : p ∉ freeParamsOf [sig.toTy] := by
  rw [Ty.mem_freeParamsOf_singleton]
  intro hfree
  rcases Ty.mem_free.1 hfree with heq | ⟨u, hu, hfree, hown⟩
  · cases heq
  · exact hown ((h u hu).free p hfree hp)

theorem Rests.solveGroups (hm : F.Inhabits Γ.module) (hΓ : F.Serves Γ)
    (hgroups : Γ.groups = Γ.module.groups)
    (hserials : ∀ p ∈ F.params, p.serial ≤ session.supply.last)
    (hrun : Inference.solveGroups Γ Γ.groups (start session) = .ok () s) : F.Rests s := by
  have hall : Γ.groups = [] ++ (Γ.groups ++ []) := by simp
  exact (solveGroups_keeps (P := fun _ => F.Rests) hgroups
    (fun hsplit hready h hrun => h.step hm hΓ (hgroups ▸ hsplit) hready hrun) hall
    (start_ready session) (rests_start hserials) hrun).2

end LocalFunction

namespace Inference

open LocalFunction

/-- In a module that checks, the type parameters of a local function are free neither in the types
that nodes and variables outside of it are marked with nor in any signature, if the function is sealed
against what is around it. -/
theorem typeParams_stay_inside {m : Module} {operators : Operators} {registry : Registry}
    {report : Report} {session : Session} {F : LocalFunction} (inhabits : F.Inhabits m)
    (fine : ∀ sig ∈ operators.table.values, F.Fine sig)
    (old : ∀ p ∈ F.params, p.serial ≤ session.supply.last)
    (apart : ∀ f ∈ m.functions.values, ∀ n ∈ f.toExpr.serials, n ∉ symbols m)
    (checks : (m.check operators registry report session).outcome = .ok true) :
    (∀ g f, m.functions.get? g = some f → ∀ n ∈ f.toExpr.serials, n ∉ F.serials →
      ∃ t, (m.check operators registry report session).session.marks.type? n = some t ∧
        ∀ p ∈ F.params, p ∉ freeParamsOf [t]) ∧
    ∀ g ∈ m.functions.keys,
      ∃ sig, (m.check operators registry report session).module.signature? g = some sig ∧
        ∀ p ∈ F.params, p ∉ freeParamsOf [sig.toTy] := by
  obtain ⟨s', hrun, hsession⟩ := checkModule_of_check checks
  obtain ⟨V, e, hcheck⟩ := checkModule_eq_ok rfl hrun
  have hserves : F.Serves ⟨m, operators, registry, m.groups, report.verbose⟩ := by
    refine ⟨fun hget => fine _ (Table.mem_values_of_get? hget), fun {g sig} hsig => ?_⟩
    obtain ⟨f, hf, hsig⟩ := Option.bind_eq_some_iff.1 hsig
    exact inhabits.fine (Table.mem_values_of_get? hf) hsig
  have hrests := Rests.solveGroups inhabits hserves rfl old hcheck.solved
  have hkeeps := Divide.steps_keeps hrests.stands.valid hrests.stands.slots
    (EngineM.propagate_eq_ok (EngineM.finish_eq_ok hcheck.finished).1)
  have hsurveyed :=
    solveGroups_surveyed rfl (List.nil_append _).symm (start_ready session) hcheck.solved
  constructor
  · intro g f hf n hn hout
    have hmem : g ∈ m.groups.flatten :=
      (Module.groups_spec m).2.2.1 g (Module.mem_keys_of_contains (by simp [Table.contains, hf]))
    obtain ⟨t, hnote⟩ := Option.ne_none_iff_exists'.1
      (hsurveyed.noted n (List.mem_flatMap.2 ⟨g, hmem, by rwa [serialsIn_eq hf]⟩))
    obtain ⟨site, hget⟩ := get?_of_note? hnote
    refine ⟨e.store.resolve t, ?_, fun p hp => ?_⟩
    · rw [hsession]
      exact hcheck.types (hsurveyed.spares.noteKeys List.nodup_nil) hget
        (apart f (Table.mem_values_of_get? hf) n hn)
    · rw [Ty.mem_freeParamsOf_singleton]
      exact ((hrests.stands.notes hnote hout).keeps hkeeps).not_free hkeeps.evolves.valid rfl hp
  · intro g hg
    have hdone : V.schemes.contains g = true :=
      (hcheck.ready.done_iff g).2 ((Module.groups_spec m).2.2.1 g hg)
    obtain ⟨sig, hsig⟩ := Option.isSome_iff_exists.1 hdone
    exact ⟨sig, (hcheck.signatures g hg).trans hsig,
      fun p hp => (hrests.stands.schemes hsig).not_free hp⟩

namespace Picking

def T : TypeParam := ⟨⟨1, "T"⟩, .type⟩

def c : Var := ⟨⟨2, "c"⟩, some .bool⟩

def y : Var := ⟨⟨3, "y"⟩, none⟩

def x : Var := ⟨⟨4, "x"⟩, some (.param T)⟩

def z : Var := ⟨⟨5, "z"⟩, some (.param T)⟩

def f : Var := ⟨⟨6, "f"⟩, none⟩

def k : Var := ⟨⟨7, "k"⟩, none⟩

/-- The function `fn<T>(x: T, z: T) { if c then x else z }`. -/
def pick : LocalFunction where
  function :=
    { node := 8, params := [x, z], body := .cond 9 (.var c) (.var x) (.var z), typeParams := [T] }
  names := [f.serial, k.serial]
  given := [c.serial]

/-- The calls `(k(y, y), f(1, 2))`. -/
def calls : Expr :=
  .tuple 10
    [.call 11 (.var k) [.var y, .var y] none .empty,
      .call 12 (.var f) [.constant 13 ⟨"int32", [], .int 1⟩, .constant 14 ⟨"int32", [], .int 2⟩] none
        .empty]

def g : Global := ⟨⟨15, "g"⟩⟩

/-- The function `fn(c: bool, y) { let f = pick; let k = f; (k(y, y), f(1, 2)) }`. -/
def bodyOfG : Function where
  node := 16
  params := [c, y]
  body := .letIn 17 f pick.expr (.letIn 18 k (.var f) calls)

def module : Module where
  functions := ⟨[(g, bodyOfG)]⟩

theorem pick_sealed : pick.Sealed where
  generic := cons_ne_nil _ _
  settled := by decide +kernel
  written := by decide +kernel
  given := by decide +kernel
  names := by decide +kernel
  body := by
    refine .node (by decide +kernel) ?_
    simp only [pick, Expr.children, forall_mem_cons]
    exact ⟨.node (by decide +kernel) (forall_mem_nil _),
      .node (by decide +kernel) (forall_mem_nil _),
      .node (by decide +kernel) (forall_mem_nil _), forall_mem_nil _⟩

theorem pick_calls : pick.Admits .outside calls := by
  have hy : pick.Admits .outside (.var y) := .node (by decide +kernel) (forall_mem_nil _)
  refine .node (by decide +kernel) ?_
  simp only [calls, Expr.children, forall_mem_cons]
  refine ⟨.call (by decide +kernel) (.inr ⟨k, rfl, by decide⟩) ?_,
    .call (by decide +kernel) (.inr ⟨f, rfl, by decide⟩) ?_, forall_mem_nil _⟩
  · simpa using hy
  · simp only [forall_mem_cons]
    exact ⟨.node (by decide +kernel) (forall_mem_nil _),
      .node (by decide +kernel) (forall_mem_nil _), forall_mem_nil _⟩

theorem pick_inhabits : pick.Inhabits module where
  isSealed := pick_sealed
  bodies := by
    have hbody : pick.Admits .outside bodyOfG.body :=
      .bind (by decide) (.inl rfl) (by decide) rfl
        (.bind (by decide) (.inr ⟨f, rfl, by decide⟩) (by decide) rfl pick_calls)
    intro f hf
    obtain rfl : f = bodyOfG := by simpa [module, Table.values] using hf
    exact .node (by decide +kernel) (by simpa [bodyOfG, Function.toExpr] using hbody)
  unbound := by
    rintro group - k - f - - h hg
    exact absurd hg (by decide +kernel +revert)

/-- The function `fn<T>(x: T) { if true then x else y }`. -/
def orElse : Expr :=
  .fn 8 [x] (.cond 9 (.constant 13 ⟨"bool", [], .bool true⟩) (.var x) (.var y)) none [T] []

/-- The module with `g = fn(y) { let f = orElse; y }`. -/
def sharing : Module where
  functions := ⟨[(g, { node := 16, params := [y], body := .letIn 17 f orElse (.var y) })]⟩

/-- Whether `y` is marked with the parameter of the function that is bound to `f`. -/
def escaped (marks : Marks) : Bool :=
  match marks.type? y.serial with
  | some (.param p) => p == T
  | _ => false

theorem param_of_escaped {marks : Marks} (h : escaped marks = true) :
    marks.type? y.serial = some (.param T) := by
  unfold escaped at h
  split at h
  · next p hp => rwa [← beq_iff_eq.1 h]
  · cases h

end Picking

/-- A generic function that uses a parameter of the function around it is called at two types. -/
theorem typeParams_stay_inside_picking :
    (Picking.module.check (Operators.standard ⟨50⟩).1 .standard {}
        { supply := ⟨200⟩ }).outcome.toOption = some true ∧
      ∃ t, (Picking.module.check (Operators.standard ⟨50⟩).1 .standard {}
          { supply := ⟨200⟩ }).session.marks.type? Picking.y.serial = some t ∧
        ∀ p ∈ Picking.pick.params, p ∉ freeParamsOf [t] := by
  have hoption : (Picking.module.check (Operators.standard ⟨50⟩).1 .standard {}
      { supply := ⟨200⟩ }).outcome.toOption = some true := by decide +kernel
  have hfine : ∀ sig ∈ (Operators.standard ⟨50⟩).1.table.values, Picking.pick.Fine sig := by
    decide +kernel
  have hapart : ∀ f ∈ Picking.module.functions.values, ∀ n ∈ f.toExpr.serials,
      n ∉ symbols Picking.module := by decide +kernel
  have hout := typeParams_stay_inside Picking.pick_inhabits hfine (by decide) hapart
    (eq_ok_of_toOption hoption)
  exact ⟨hoption, hout.1 Picking.g Picking.bodyOfG rfl Picking.y.serial (by decide +kernel)
    (by decide +kernel)⟩

/-- A function that shares a variable with what is around it gives its parameter away, and the module
checks. -/
theorem typeParam_escapes_by_variable :
    (Picking.sharing.check (Operators.standard ⟨50⟩).1 .standard {}
        { supply := ⟨200⟩ }).outcome.toOption = some true ∧
      (Picking.sharing.check (Operators.standard ⟨50⟩).1 .standard {}
        { supply := ⟨200⟩ }).session.marks.type? Picking.y.serial = some (.param Picking.T) := by
  have hescaped : Picking.escaped (Picking.sharing.check (Operators.standard ⟨50⟩).1 .standard {}
      { supply := ⟨200⟩ }).session.marks = true := by decide +kernel
  exact ⟨by decide +kernel, Picking.param_of_escaped hescaped⟩

end Inference

end TensorTyping
