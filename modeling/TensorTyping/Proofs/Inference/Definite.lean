import TensorTyping.Proofs.Inference.Consistency
import TensorTyping.Proofs.Inference.Failure
import TensorTyping.Proofs.Inference.LocalCalls
import TensorTyping.Proofs.Inference.Promises

/-!
# What a successful check leaves open

When a module checks, no cell is left in any type that its syntax is marked with, nor in any
signature that is recorded, the slots of relations included: every noted type is looked at in the
end, and generalisation turns every cell of a signature into a parameter.

Nobody looks at the type arguments of calls. Those that are given are complete. The others start as
new cells, one for each parameter of what is called, and such a cell is sure to be settled only if
its parameter occurs in the type of the call or in that of an argument which is marked itself. The
argument of a parameter that occurs in neither may be left open.
-/
namespace TensorTyping

open List

variable {sig : Signature}

/-- No cell occurs in a signature, the slots of its relations included. -/
def Signature.Definite (sig : Signature) : Prop := sig.toTy.cellOccurrences = []

namespace Signature

theorem definite_iff :
    sig.Definite ↔ (∀ a ∈ sig.args, a.cellOccurrences = []) ∧ sig.ret.cellOccurrences = [] ∧
      ∀ r ∈ sig.relations, ∀ a ∈ r.args, a.cellOccurrences = [] := by
  rw [Definite, Ty.cellOccurrences_eq_nil_iff]
  simp only [toTy, Ty.isCell, Ty.children, forall_mem_append, forall_mem_cons,
    forall_mem_flatMap, true_and]

/-- A call settles a parameter of what it calls if the parameter occurs in the result, or outside
relations in the type that an argument is to have. Symbols that are shared have no marks at their
places and do not count. -/
def SettledBy (sig : Signature) (args : List Expr) (p : TypeParam) : Prop :=
  p ∈ freeParamsOf [sig.ret] ∨
    ∃ x ∈ sig.args.zip args, x.2.isShared = false ∧ p ∈ freeParamsOf [x.1.bare]

instance (sig : Signature) (args : List Expr) (p : TypeParam) : Decidable (sig.SettledBy args p) :=
  inferInstanceAs (Decidable (_ ∨ _))

end Signature

namespace Ty

variable {p : TypeParam} {f : TypeParam → Ty} {g : Cell → Ty} {t u : Ty}

theorem cellOccurrences_of_replace (hp : p ∈ t.paramOccurrences [])
    (h : (t.replace f g).cellOccurrences = []) : (f p).cellOccurrences = [] := by
  induction t using induction_children with
  | step t ih =>
    rcases mem_free.1 hp with rfl | ⟨u, hu, hpu, -⟩
    · exact h
    · refine ih u hu hpu ?_
      have hleaf : t.isLeaf = false := by cases t <;> first | rfl | cases hu
      rw [replace_of_not_leaf _ _ hleaf, cellOccurrences_eq_nil_iff, children_mapChildren] at h
      exact h.2 _ (mem_map_of_mem hu)

/-- What is like a complete type is complete outside relations. -/
theorem cellOccurrences_bare_of_alike (h : t.alike u = true) (hu : u.cellOccurrences = []) :
    t.bare.cellOccurrences = [] := by
  induction t using induction_children generalizing u with
  | step t ih =>
    rw [cellOccurrences_eq_nil_iff] at hu ⊢
    have hparts : Parallel (fun v _ => v.bare.cellOccurrences = []) t u :=
      (alike_iff.1 h).1.imp fun v hv w hw hvw => ih v hv hvw (hu.2 w hw)
    have hall {ts us : List Ty}
        (hts : List.Forall₂ (fun v _ => v.bare.cellOccurrences = []) ts us) :
        ∀ v ∈ ts, v.bare.cellOccurrences = [] := by
      induction hts <;> simp_all
    cases hparts with
    | tuple hts => simpa [bare, bareList_eq_map] using hall hts
    | func _ _ _ _ has hr =>
      simpa [bare, bareList_eq_map, or_imp, forall_and, hr] using hall has
    | data k has => simpa [bare, bareList_eq_map] using hall has
    | cell c => exact hu
    | tensor | param | handle => simp [bare]

end Ty

namespace Inference

variable {t : Ty} {n : Serial} {callee : Expr} {typeArgs : Option (List Ty)}

variable {Γ : Context} {s s' : State}
variable {session : Session} {m : Module} {e : Expr} {ts : List Ty} {args : List Expr}
  {attrs : Attrs}
variable {solve : Global → InferM Unit} {report : Report}

@[mk_iff]
structure Written (m : Module) : Prop where
  functions : ∀ f ∈ m.functions.values, ∀ d ∈ f.toExpr.parts, ∀ t ∈ d.written,
    t.cellOccurrences = []
  ctors : ∀ d ∈ m.dataTypes.values, ∀ c ∈ d.ctors, ∀ t ∈ c.inputs, t.cellOccurrences = []

instance (m : Module) : Decidable (Written m) :=
  decidable_of_iff _ (written_iff m).symm

/-! ## Signatures -/

def SchemesDefinite (s : State) : Prop :=
  ∀ {g sig}, s.schemes.get? g = some sig → sig.Definite

section

variable (hm : Written Γ.module)

include hm

theorem Written.self {g : Global} {f : Function} (hf : Γ.module.functions.get? g = some f)
    (ht : t ∈ f.toExpr.written) : t.cellOccurrences = [] :=
  hm.functions f (Table.mem_values_of_get? hf) _ (Expr.self_mem_parts _) t ht

theorem Written.slots {g : Global} {f : Function} (hf : Γ.module.functions.get? g = some f)
    {r : TypeRelation} (hr : r ∈ f.relations) :
    ∀ a ∈ r.args, a.cellOccurrences = [] := fun _ ha =>
  hm.self hf (mem_append_right _ (mem_flatMap.2 ⟨r, hr, ha⟩))

theorem Written.declared {g : Global} (hd : Γ.declared? g = some sig) : sig.Definite := by
  obtain ⟨f, hf, hsig⟩ := Option.bind_eq_some_iff.1 hd
  obtain ⟨hargs, hret, hrelations⟩ := Function.declared?_eq_some hsig
  rw [Signature.definite_iff, hargs, hrelations]
  refine ⟨fun a ha => hm.self hf ?_, hm.self hf ?_, fun r hr => hm.slots hf hr⟩
  · exact mem_append_left _ (mem_append_left _ ha)
  · exact mem_append_left _ (mem_append_right _ (by simp [hret]))

/-- What a group records is complete: cells have become parameters, and the rest is written. -/
theorem GroupRun.schemesDefinite {group : List Global} {opened typed : State} {spans : List Span}
    {e : Engine} (h : GroupRun Γ solve group s opened typed spans e s') (hs : SchemesDefinite s) :
    SchemesDefinite s' := by
  intro g sig hsig
  by_cases hg : g ∈ group
  · cases hd : Γ.declared? g with
    | some declared =>
      obtain rfl : declared = sig := Option.some.inj ((h.closes.declared g hg _ hd).symm.trans hsig)
      exact hm.declared hd
    | none =>
      obtain ⟨span, hspan, rfl⟩ := mem_map.1 (h.functions_eq.symm ▸ hg)
      obtain ⟨t, -, ⟨f, sig', hf, hsig', ⟨ps, rs, hfunc⟩, hrelations, -⟩, hclosed⟩ :=
        h.closes.recorded span hspan hd
      cases hsig'.symm.trans hsig
      rw [hfunc, Ty.cellOccurrences_eq_nil_iff] at hclosed
      rw [Signature.definite_iff]
      refine ⟨fun a ha => hclosed.2 a (by simp [ha]),
        hclosed.2 _ (by simp), fun r hr => ?_⟩
      rw [hrelations, mem_append] at hr
      rcases hr with hr | hr
      · exact hm.slots hf hr
      · obtain ⟨i, hi, rfl⟩ := mem_map.1 hr
        obtain ⟨hi, hkept⟩ := mem_filter.1 hi
        rw [Bool.and_eq_true, Bool.not_eq_true'] at hkept
        intro a ha
        obtain ⟨u, hu, rfl⟩ := mem_map.1 ha
        exact h.closes.complete span hspan hd i hi hkept.1 hkept.2 u hu
  · exact hs ((h.schemes_eq hg).symm.trans hsig)

theorem solveGroups_schemesDefinite (hΓ : Γ.groups = Γ.module.groups)
    (h : solveGroups Γ Γ.groups (start session) = .ok () s') : SchemesDefinite s' := by
  have hall : Γ.groups = [] ++ (Γ.groups ++ []) := by simp
  intro g sig hsig
  refine (solveGroups_keeps (P := fun _ => SchemesDefinite) hΓ ?_ hall (start_ready session)
    (fun hsig => by cases hsig) h).2 hsig
  intro before group after s s₁ hgroups hready hs hrun
  obtain ⟨opened, typed, spans, e, hgroup⟩ := typeGroup_eq_ok hready (hΓ ▸ hgroups) hrun
  exact hgroup.schemesDefinite hm hs

end

/-! ## Marks -/

theorem ctorSignature_definite {d : DataType} {c : Ctor}
    (hc : ∀ t ∈ c.inputs, t.cellOccurrences = []) : (d.ctorSignature c).Definite := by
  refine Signature.definite_iff.2 ⟨hc, ?_, forall_mem_nil _⟩
  rw [Ty.cellOccurrences_eq_nil_iff]
  simp [DataType.ctorSignature, DataType.selfType, Ty.cellOccurrences]

/-- Every type that a successful check marks is complete, and so is every signature it records. All
that was noted while the groups were typed is marked. -/
theorem checkModule_definite (hΓ : Γ.groups = Γ.module.groups) (hm : Written Γ.module)
    (h : checkModule Γ (start session) = .ok m s') :
    (∃ V types, solveGroups Γ Γ.groups (start session) = .ok () V ∧
        s'.session.marks.types = types ++ session.marks.types ∧
        (∀ x ∈ types, x.2.cellOccurrences = []) ∧ V.nodeTypes.keys ⊆ types.map Prod.fst) ∧
      ∀ g ∈ Γ.module.functions.keys, ∃ sig, m.signature? g = some sig ∧ sig.Definite := by
  obtain ⟨s, e, hcheck⟩ := checkModule_eq_ok hΓ h
  have hschemes : SchemesDefinite s := solveGroups_schemesDefinite hm hΓ hcheck.solved
  have hmarks := (@solveGroups_leavesMarks Γ Γ.groups (start session)).marks_eq
  rw [endState_of_ok hcheck.solved] at hmarks
  obtain ⟨functions, hfunctions, htypes⟩ := hcheck.marked
  rw [show s.session.marks = session.marks from hmarks] at htypes
  refine ⟨⟨s, _, hcheck.solved, htypes, fun x hx => ?_, ?_⟩, fun g hg => ?_⟩
  · rw [mem_append, mem_reverse, mem_reverse, mem_append] at hx
    rcases hx with (hx | hx) | hx
    · obtain ⟨g, -, sig, hsig, rfl⟩ := exists_of_mem_forall₂ hfunctions.flip hx
      exact hschemes hsig
    · obtain ⟨d, hd, hx⟩ := mem_flatMap.1 hx
      obtain ⟨c, hc, rfl⟩ := mem_map.1 hx
      exact ctorSignature_definite (hm.ctors d hd c hc)
    · obtain ⟨y, hy, rfl⟩ := mem_map.1 hx
      exact hcheck.complete y hy
  · simp only [Table.keys, map_append, map_reverse, map_map]
    exact fun n hn => mem_append_right _ (mem_reverse.2 hn)
  · have hdone : s.schemes.contains g = true := by
      rw [hcheck.ready.done_iff, hΓ]
      exact (Module.groups_spec Γ.module).2.2.1 g hg
    obtain ⟨sig, hsig⟩ := Option.isSome_iff_exists.1 hdone
    exact ⟨sig, (hcheck.signatures g hg).trans hsig, hschemes hsig⟩

/-! ## Type arguments -/

/-- The signature of what is called in the body of the function `g`, as it is recorded in the end.
A function of the same group that declares no signature is called at its provisional type and has
none. -/
def calleeSignature? (Γ : Context) (m : Module) (g : Global) : Expr → Option Signature
  | .global k => if k ∈ Γ.undeclared (Γ.groupOf g) then none else m.signature? k
  | .ctor c => (Γ.module.dataTypeOf? c).map fun d => d.ctorSignature c
  | .op _ name => Γ.operators.table.get? name
  | _ => none

theorem instance_of_refers {marks : Marks} {g : Global}
    (h : (annotated Γ m marks g).Refers Γ e ts t) :
    ts = [] ∨ ∃ sig, calleeSignature? Γ m g e = some sig ∧ sig.HasInstance ts t := by
  cases e with
  | «global» k =>
    obtain ⟨sig, hsig, hinst⟩ := h
    split at hinst
    · exact .inl hinst.1
    · exact .inr ⟨sig, by simp [calleeSignature?, *], hinst⟩
  | ctor c =>
    obtain ⟨d, hd, hinst⟩ := h
    exact .inr ⟨_, by simp [calleeSignature?, hd], hinst⟩
  | op n name =>
    obtain ⟨sig, hsig, hinst⟩ := h
    exact .inr ⟨sig, hsig, hinst⟩
  | _ => exact h.elim

/-- The type argument of a parameter that occurs in the result is complete if the result is. One of a
parameter that occurs in the type of an argument is complete, outside relations, if the argument is
marked with a complete type. -/
theorem definite_of_settled {as us : List Ty} {r : Ty} {relations : List TypeRelation}
    (hinst : sig.HasInstance ts (.func as r [] relations)) (hr : r.cellOccurrences = [])
    (hagree : List.Forall₂ (fun a u => a.alike u = true) as us)
    (hargs : List.Forall₂ (fun (e : Expr) u => e.isShared = false → u.cellOccurrences = []) args us)
    (p : TypeParam) :
    (p ∈ freeParamsOf [sig.ret] →
      ((Substitution.ofParams sig.params ts).onParam p).cellOccurrences = []) ∧
    (sig.SettledBy args p →
      ((Substitution.ofParams sig.params ts).onParam p).bare.cellOccurrences = []) := by
  obtain ⟨-, _, hfunc⟩ := hinst
  cases hfunc
  have hret (hp : p ∈ freeParamsOf [sig.ret]) :
      ((Substitution.ofParams sig.params ts).onParam p).cellOccurrences = [] :=
    Ty.cellOccurrences_of_replace (Ty.mem_freeParamsOf_singleton.1 hp) hr
  refine ⟨hret, ?_⟩
  rintro (hp | ⟨⟨a, e⟩, hx, hshared, hp⟩)
  · exact Ty.cellOccurrences_bare_of_alike (Ty.alike_self _) (hret hp)
  · rw [forall₂_map_left_iff] at hagree
    obtain ⟨u, hau, hu⟩ : ∃ u,
        ((Substitution.ofParams sig.params ts).apply a).alike u = true ∧ u.cellOccurrences = [] := by
      obtain ⟨k, hk, hget⟩ := mem_iff_getElem.1 hx
      rw [length_zip, Nat.lt_min] at hk
      rw [getElem_zip, Prod.mk.injEq] at hget
      have hku : k < us.length := hargs.length_eq ▸ hk.2
      refine ⟨us[k], ?_, ?_⟩
      · rw [← hget.1]
        exact hagree.get hk.1 hku
      · exact hargs.get hk.2 hku (by rw [get_eq_getElem, hget.2]; exact hshared)
    have hbare := Ty.cellOccurrences_bare_of_alike hau hu
    rw [Substitution.apply, Ty.bare_replace] at hbare
    exact Ty.cellOccurrences_of_replace (Ty.mem_freeParamsOf_singleton.1 hp) hbare

theorem applyTo_direct {site : Expr} {f : Ty} {direct given : List Ty}
    (h : applyTo Γ site f (some direct) args ts attrs s = .ok (t, given) s') : given = direct := by
  obtain ⟨found, s₁, -, happly⟩ := applyTo_ok_iff.1 h
  cases found with
  | cell c => exact happly.1
  | func as r ps rs =>
    obtain ⟨_, _, _, _, ⟨hnone, -⟩ | ⟨-, -, -, hgiven, -⟩, -⟩ := happly
    · simp at hnone
    · exact hgiven
  | _ => exact happly.elim

theorem ReferenceRun.given {explicit : Option (List Ty)} {site : Phrase}
    (h : ReferenceRun Γ solve e explicit site attrs s (t, ts) s') (hne : explicit.getD [] ≠ []) :
    ts = explicit.getD [] := by
  obtain ⟨-, ⟨-, hnil, -⟩ | ⟨sig, s₁, -, hinst⟩⟩ := h
  · exact absurd hnil hne
  · cases explicit with
    | none => exact absurd rfl hne
    | some us =>
      obtain ⟨hlen, -, hrun⟩ := instantiate_some_ok_iff.1 hinst
      have hparams : sig.params.isEmpty = false := by
        cases hps : sig.params with
        | nil => simp_all
        | cons => rfl
      simp only [InstanceRun, hparams, Bool.false_eq_true, if_false] at hrun
      obtain ⟨_, hus, -⟩ := hrun
      exact (pure_ok_iff.1 hus).1

theorem Inferred.given {marks : Marks} (h : Inferred e marks)
    (hcall : .call n callee args typeArgs attrs ∈ e.parts) (hne : typeArgs.getD [] ≠ [])
    (hclosed : ∀ t ∈ typeArgs.getD [], t.cellOccurrences = []) :
    marks.typeArgs? n = some (typeArgs.getD []) := by
  obtain ⟨Γ, solve, foreign, W, S, s₁, u, s₂, hW, -, -, hreads, hvisit⟩ := h.visit
  obtain ⟨env', s₃, v, s₄, hpart⟩ := hvisit.part hW hcall rfl
  obtain ⟨f, direct, ts, given, s₅, s₆, hsteps⟩ := hpart.call hW
  cases href : callee.isReference with
  | true =>
    obtain ⟨direct', _, hrefers, rfl, -⟩ := hsteps.referred href
    have hgiven : given = typeArgs.getD [] :=
      (applyTo_direct hsteps.applied).trans (hrefers.given hne)
    have hresolve : (typeArgs.getD []).map S.resolve = typeArgs.getD [] := by
      conv_rhs => rw [← Ty.map_mapCells_closed hclosed S.value]
      exact map_congr_left fun t _ => S.resolve_eq t
    rw [hreads.typeArgs hsteps.called, hgiven, hresolve]
  | false =>
    -- Only references are called with type arguments.
    obtain ⟨-, -, -, -, -, -, -, ⟨href', -⟩ | ⟨-, hnil, -⟩, -⟩ := infer_call_ok_iff.1 hpart.run
    · rw [href] at href'
      cases href'
    · exact absurd hnil hne

theorem lookup_append_of_mem {κ α : Type} [BEq κ] [LawfulBEq κ] {l l' : List (κ × α)} {k : κ}
    (hk : k ∈ l.map Prod.fst) : (l ++ l').lookup k = l.lookup k := by
  induction l with
  | nil => cases hk
  | cons e l ih =>
    rw [cons_append, lookup_cons, lookup_cons]
    cases hbeq : k == e.1 with
    | true => rfl
    | false =>
      refine ih ((mem_cons.1 hk).resolve_left fun heq => ?_)
      simp [heq] at hbeq

/-- In a module that checks, a call and its arguments are marked with complete types. -/
theorem check_call_definite {operators : Operators} {registry : Registry} (hw : Written m)
    (hm : Tidy m) (h : (m.check operators registry report session).outcome = .ok true) {g : Global}
    {f : Function} (hf : m.functions.get? g = some f)
    (hcall : .call n callee args typeArgs attrs ∈ f.toExpr.parts)
    (he : e = .call n callee args typeArgs attrs ∨ e ∈ args) (hshared : e.isShared = false)
    (ht : (m.check operators registry report session).session.marks.type? e.serial = some t) :
    t.cellOccurrences = [] := by
  obtain ⟨s', hrun, hsession⟩ := checkModule_of_check h
  obtain ⟨⟨V, types, hsolve, hmarks, hclosed, hkeys⟩, -⟩ := checkModule_definite rfl hw hrun
  obtain ⟨run⟩ := BodyRun.of_solved (g := g) rfl hsolve
    (Module.mem_keys_of_contains (by simp [Table.contains, hf]))
  obtain rfl : f = run.body := Option.some.inj (hf.symm.trans run.body_eq)
  have hW : (run.whole V).Secluded refuse fun _ => False :=
    ⟨refuse_within _, fun _ _ => id,
      (nodup_flatMap.1 hm.serials_nodup).1 _ (Table.mem_values_of_get? hf)⟩
  obtain ⟨_, _, _, _, hpart⟩ := (run.visit rfl hm.serials_nodup hsolve).part hW hcall rfl
  obtain ⟨_, _, _, _, _, _, hsteps⟩ := hpart.call hW
  have hnoted : ∃ u, V.note? e.serial = some u := by
    rcases he with rfl | he
    · exact ⟨_, hsteps.noted⟩
    · obtain ⟨u, -, _, _, harg⟩ := exists_of_mem_forall₂ hsteps.argsTyped he
      exact ⟨u, (harg.type rfl hshared).2⟩
  obtain ⟨u, hu⟩ := hnoted
  obtain ⟨site, hget⟩ := get?_of_note? hu
  have hkey : e.serial ∈ types.map Prod.fst :=
    hkeys (mem_map_of_mem (Table.mem_entries_of_get? hget))
  rw [hsession, Marks.type?, hmarks, lookup_append_of_mem hkey] at ht
  exact hclosed _ (Table.mem_entries_of_get? (t := ⟨types⟩) ht)

/-- The type arguments of a call that are sure to be complete. Those that are given are, and there
are none if what is called has no signature. With different parameters that all occur in the result
they all are, and outside relations also with parameters that the call settles. -/
structure ClosesArgs (sig? : Option Signature) (given : List Ty) (args : List Expr)
    (ts : List Ty) : Prop where
  given : given ≠ [] → ∀ t ∈ ts, t.cellOccurrences = []
  none : sig? = none → ts = []
  result : ∀ {sig}, sig? = some sig → sig.params.Nodup →
    (∀ p ∈ sig.params, p ∈ freeParamsOf [sig.ret]) → ∀ t ∈ ts, t.cellOccurrences = []
  settled : ∀ {sig}, sig? = some sig → sig.params.Nodup →
    (∀ p ∈ sig.params, sig.SettledBy args p) → ∀ t ∈ ts, t.bare.cellOccurrences = []

theorem ClosesArgs.nil (sig? : Option Signature) (given : List Ty) (args : List Expr) :
    ClosesArgs sig? given args [] where
  given _ _ ht := absurd ht not_mem_nil
  none _ := rfl
  result _ _ _ _ ht := absurd ht not_mem_nil
  settled _ _ _ _ ht := absurd ht not_mem_nil

theorem ClosesArgs.complete {sig? : Option Signature} {given : List Ty}
    (h : ClosesArgs sig? given args ts) (hsig : ∀ sig ∈ sig?, sig.params.Nodup ∧
      ∀ p ∈ sig.params, p ∈ freeParamsOf [sig.ret]) : ∀ t ∈ ts, t.cellOccurrences = [] := by
  cases sig? with
  | none => simp [h.none rfl]
  | some sig => exact h.result rfl (hsig sig rfl).1 (hsig sig rfl).2

theorem check_closes_args {supply : Supply} (hw : Written m) (hm : Tidy m)
    (h : (m.check (Operators.standard supply).1 .standard report session).outcome = .ok true)
    {g : Global} {f : Function} (hf : m.functions.get? g = some f)
    (hcall : .call n callee args typeArgs attrs ∈ f.toExpr.parts) :
    ∃ ts, (m.check (Operators.standard supply).1 .standard report
        session).session.marks.typeArgs? n = some ts ∧
      ClosesArgs (calleeSignature? (.standard m supply report.verbose)
        (m.check (Operators.standard supply).1 .standard report session).module g callee)
        (typeArgs.getD []) args ts := by
  obtain ⟨s', hrun, hsession⟩ := checkModule_of_check h
  obtain ⟨as, r, relations, us, hcallee, hargs, hagree, hr⟩ :=
    annotated_obeys (Γ := .standard m supply report.verbose) rfl hm (hm.suits supply report.verbose)
      rfl hrun hf _ hcall
  rw [← hsession] at hcallee hargs hr
  unfold Annotation.HasCallee at hcallee
  split at hcallee
  · obtain ⟨-, ts, hts, hrefers⟩ := hcallee
    refine ⟨ts, hts, ?_⟩
    rcases instance_of_refers hrefers with rfl | ⟨sig, hsig, hinst⟩
    · exact .nil ..
    have hmarked : List.Forall₂ (fun (e : Expr) u => e.isShared = false → u.cellOccurrences = [])
        args us := by
      refine forall₂_iff_zip.2 ⟨hargs.length_eq, fun {e u} hmem hshared => ?_⟩
      have htype := (forall₂_iff_zip.1 hargs).2 hmem
      rw [ Annotation.HasType, if_neg (by simp [hshared])] at htype
      exact check_call_definite hw hm h hf hcall (.inr (of_mem_zip hmem).1) hshared htype
    have hclosed := definite_of_settled hinst
      (check_call_definite hw hm h hf hcall (.inl rfl) rfl hr) hagree hmarked
    refine ⟨fun hne => ?_, fun hnone => ?_, fun {sig'} hsig' hps hall => ?_,
      fun {sig'} hsig' hps hall => ?_⟩
    · have hexplicit : ∀ t ∈ typeArgs.getD [], t.cellOccurrences = [] := fun t ht =>
        hw.functions f (Table.mem_values_of_get? hf) _ hcall t ht
      have hgiven := (Inferred.body hm.serials_nodup hm.not_symbol h hf).given hcall hne hexplicit
      cases hgiven.symm.trans hts
      exact hexplicit
    · rw [hsig] at hnone
      cases hnone
    all_goals
      cases hsig.symm.trans hsig'
      rw [← Substitution.map_onParam hps hinst.1]
      refine forall_mem_map.2 fun p hp => ?_
    · exact (hclosed p).1 (hall p hp)
    · exact (hclosed p).2 (hall p hp)
  · exact ⟨[], hcallee.2, .nil ..⟩

/-- A successful check leaves nothing open in types and signatures. If no type that is written in a
module holds a cell and the module checks, then no cell is left in any type that the check marks, nor
in any signature that it records, the slots of relations included. Where no node is used twice, only
functions that declare a signature have type parameters and the types written are simple, it leaves
no cell in the type arguments of calls either, as far as the call settles the parameters. -/
theorem check_leaves_nothing_open {m : Module} {operators : Operators} {registry : Registry}
    {report : Report} {session : Session} (hw : Written m)
    (h : (m.check operators registry report session).outcome = .ok true) :
    let checked := m.check operators registry report session
    (∃ types, checked.session.marks.types = types ++ session.marks.types ∧
        ∀ x ∈ types, x.2.cellOccurrences = []) ∧
      (∀ g ∈ m.functions.keys, ∃ sig, checked.module.signature? g = some sig ∧
        sig.toTy.cellOccurrences = []) ∧
      ∀ supply, operators = (Operators.standard supply).1 → registry = .standard → Tidy m →
        ∀ {g f}, m.functions.get? g = some f → ∀ {n callee args typeArgs attrs},
          .call n callee args typeArgs attrs ∈ f.toExpr.parts →
          ∃ ts, checked.session.marks.typeArgs? n = some ts ∧
            ClosesArgs (calleeSignature? (.standard m supply report.verbose) checked.module g callee)
              (typeArgs.getD []) args ts := by
  intro checked
  obtain ⟨s', hrun, hsession⟩ := checkModule_of_check h
  obtain ⟨⟨V, types, -, hmarks, hclosed, -⟩, hsignatures⟩ := checkModule_definite rfl hw hrun
  refine ⟨⟨types, hsession ▸ hmarks, hclosed⟩, hsignatures, ?_⟩
  rintro supply rfl rfl hm g f hf n callee args typeArgs attrs hcall
  exact check_closes_args hw hm h hf hcall

/-! ## A parameter that occurs nowhere

The parameter of `f` occurs in none of its types, so that nothing is found out about it at the call
`f(k(1))`. The parameter of `k` is its argument and its result. -/

namespace Phantom

def T : TypeParam := ⟨⟨1, "T"⟩, .type⟩
def S : TypeParam := ⟨⟨2, "S"⟩, .type⟩
def x : Var := ⟨⟨3, "x"⟩, some (.scalar "int32")⟩
def y : Var := ⟨⟨4, "y"⟩, some (.param S)⟩
def f : Global := ⟨⟨5, "f"⟩⟩
def k : Global := ⟨⟨6, "k"⟩⟩
def g : Global := ⟨⟨7, "g"⟩⟩

/-- The function `fn<T>(x: int32) -> int32 { x }`. -/
def bodyOfF : Function where
  node := 8
  params := [x]
  body := .var x
  ret := some (.scalar "int32")
  typeParams := [T]

/-- The function `fn<S>(y: S) -> S { y }`. -/
def bodyOfK : Function where
  node := 9
  params := [y]
  body := .var y
  ret := some (.param S)
  typeParams := [S]

def inner : Expr := .call 10 (.global k) [.constant 11 ⟨"int32", [], .int 1⟩] none .empty

/-- The function `fn() { f(k(1)) }`. -/
def bodyOfG : Function where
  node := 12
  params := []
  body := .call 13 (.global f) [inner] none .empty

def module : Module where
  functions := ⟨[(f, bodyOfF), (k, bodyOfK), (g, bodyOfG)]⟩

theorem inner_mem : inner ∈ bodyOfG.toExpr.parts := by
  simp [bodyOfG, Function.toExpr, Expr.parts, Expr.partsList, inner]

end Phantom

/-- The module checks, its types and signatures are complete, and so is the type argument of `k`. -/
theorem check_leaves_nothing_open_phantom :
    (Written Phantom.module ∧ Tidy Phantom.module ∧
        (Phantom.module.check (Operators.standard ⟨50⟩).1 .standard {}
          { supply := ⟨200⟩ }).outcome.toOption = some true) ∧
      (∀ x ∈ (Phantom.module.check (Operators.standard ⟨50⟩).1 .standard {}
        { supply := ⟨200⟩ }).session.marks.types, x.2.cellOccurrences = []) ∧
      (∃ sig, (Phantom.module.check (Operators.standard ⟨50⟩).1 .standard {}
          { supply := ⟨200⟩ }).module.signature? Phantom.g = some sig ∧
        sig.toTy.cellOccurrences = []) ∧
      ∃ ts, (Phantom.module.check (Operators.standard ⟨50⟩).1 .standard {}
          { supply := ⟨200⟩ }).session.marks.typeArgs? 10 = some ts ∧
        ∀ t ∈ ts, t.cellOccurrences = [] := by
  have hw : Written Phantom.module := by decide +kernel
  have hm : Tidy Phantom.module := by decide +kernel
  have hoption : (Phantom.module.check (Operators.standard ⟨50⟩).1 .standard {}
      { supply := ⟨200⟩ }).outcome.toOption = some true := by decide +kernel
  obtain ⟨⟨types, htypes, hclosed⟩, hsignatures, hargs⟩ :=
    check_leaves_nothing_open hw (eq_ok_of_toOption hoption)
  obtain ⟨ts, hts, hcloses⟩ := hargs ⟨50⟩ rfl rfl hm (g := Phantom.g) rfl Phantom.inner_mem
  refine ⟨⟨hw, hm, hoption⟩, ?_, hsignatures Phantom.g (by decide), ts, hts,
    hcloses.complete (by decide +kernel)⟩
  rw [htypes, List.append_nil]
  exact hclosed

/-- The type argument of `f` is left open. -/
theorem phantom_argument_left_open :
    Written Phantom.module ∧
      (Phantom.module.check (Operators.standard ⟨50⟩).1 .standard {}
        { supply := ⟨200⟩ }).outcome.toOption = some true ∧
      ∃ ts ∈ (Phantom.module.check (Operators.standard ⟨50⟩).1 .standard {}
        { supply := ⟨200⟩ }).session.marks.typeArgs? 13, ∃ t ∈ ts, t.cellOccurrences ≠ [] := by
  decide +kernel

end Inference
end TensorTyping
