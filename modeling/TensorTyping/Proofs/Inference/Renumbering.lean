import TensorTyping.Proofs.Engine.Renumbering
import TensorTyping.Proofs.Expr.Parts
import TensorTyping.Proofs.Inference.Inversion
import TensorTyping.Proofs.Inference.Soundness

/-!
# Typing with other serial numbers

Two runs that differ in the numbers of their stores and of the parameters that they make type the
same expressions alike. The second may be in the context of a larger module, so long as that has
everything the first refers to, and its operators may be declared anew. What is written keeps its
numbers.
-/
namespace TensorTyping

open List

namespace Table

variable {κ α β : Type} [DecidableEq κ]

def mapValues (f : α → β) (t : Table κ α) : Table κ β := ⟨t.entries.map fun e => (e.1, f e.2)⟩

section

variable (f : α → β) (t : Table κ α) (k : κ)

include f t k

theorem get?_mapValues : (t.mapValues f).get? k = (t.get? k).map f := by
  unfold get? mapValues
  induction t.entries with
  | nil => rfl
  | cons e es ih =>
    rw [map_cons, lookup_cons, lookup_cons]
    cases k == e.1 with
    | true => rfl
    | false => exact ih

theorem contains_mapValues : (t.mapValues f).contains k = t.contains k := by
  rw [contains, contains, get?_mapValues, Option.isSome_map]

theorem insert_mapValues (a : α) : (t.mapValues f).insert k (f a) = (t.insert k a).mapValues f := by
  unfold insert mapValues
  congr 1
  induction t.entries with
  | nil => rfl
  | cons e es ih =>
    simp only [map_cons, put]
    split
    · rfl
    · rw [map_cons, ih]

theorem erase_mapValues : (t.mapValues f).erase k = (t.erase k).mapValues f := by
  unfold erase mapValues
  rw [filter_map]
  rfl

end

end Table

variable {ρ : Serial ↪ Serial}

/-- Two signatures whose instances differ in serial numbers only. -/
structure Signature.Alike (ρ : Serial → Serial) (sig sig' : Signature) : Prop where
  kinds : sig'.params.map (fun p => p.kind) = sig.params.map fun p => p.kind
  bare : sig.params = [] → sig' = sig.renumber ρ
  args {ts : List Ty} : ts.length = sig.params.length →
    sig'.args.map (Substitution.ofParams sig'.params (ts.map (Ty.renumber ρ))).apply =
      (sig.args.map (Substitution.ofParams sig.params ts).apply).map (Ty.renumber ρ)
  ret {ts : List Ty} : ts.length = sig.params.length →
    (Substitution.ofParams sig'.params (ts.map (Ty.renumber ρ))).apply sig'.ret =
      ((Substitution.ofParams sig.params ts).apply sig.ret).renumber ρ
  relations {ts : List Ty} : ts.length = sig.params.length →
    sig'.relations.map (Substitution.ofParams sig'.params (ts.map (Ty.renumber ρ))).applyRelation =
      (sig.relations.map (Substitution.ofParams sig.params ts).applyRelation).map
        (TypeRelation.renumber ρ)

theorem Signature.Alike.of_renumber (ρ : Serial ↪ Serial) (sig : Signature) :
    sig.Alike ρ (sig.renumber ρ) where
  kinds := map_map
  bare _ := rfl
  args {ts} _ := by
    simp only [renumber, map_map, map_inj_left, Function.comp_apply]
    exact fun t _ => Ty.apply_ofParams_renumber ρ sig.params ts t
  ret {ts} _ := Ty.apply_ofParams_renumber ρ sig.params ts sig.ret
  relations {ts} _ := by
    simp only [renumber, map_map, map_inj_left, Function.comp_apply,
      Substitution.applyRelation, TypeRelation.renumber, Relation.mk.injEq, true_and, and_true]
    exact fun r _ t _ => Ty.apply_ofParams_renumber ρ sig.params ts t

theorem Function.params_of_declared? {f : Function} {sig : Signature}
    (h : f.declared? = some sig) : sig.params = f.typeParams := by
  unfold declared? at h
  split at h
  · cases h
    rfl
  · cases h

namespace Inference

variable {e : Expr} {s t s' : State} {ts : List Ty} {site : Phrase} {sig : Signature}
  {attrs : Attrs}

/-- Everything written in an expression keeps its serial numbers. -/
structure Fixes (ρ : Serial → Serial) (e : Expr) : Prop where
  written : ∀ d ∈ e.parts, ∀ t ∈ d.written, t.renumber ρ = t
  typeParams : ∀ d ∈ e.parts, ∀ p ∈ d.typeParams, p.renumber ρ = p

/-- The context `Γ'` has all that can be referred to in `Γ`. Operators may have other numbers; what
is written has the same. -/
structure Widens (ρ : Serial → Serial) (Γ Γ' : Context) : Prop where
  registry : Γ'.registry = Γ.registry
  functions {g : Global} {f : Function} : Γ.module.functions.get? g = some f →
    Γ'.module.functions.get? g = some f
  written {g : Global} {f : Function} : Γ.module.functions.get? g = some f → Fixes ρ f.toExpr
  dataTypes {h : Handle} {d : DataType} : Γ.module.dataTypes.get? h = some d →
    Γ'.module.dataTypes.get? h = some d
  ctors {c : Ctor} {d : DataType} : Γ.module.dataTypeOf? c = some d →
    Γ'.module.dataTypeOf? c = some d
  params {c : Ctor} {d : DataType} : Γ.module.dataTypeOf? c = some d →
    ∀ p ∈ d.params, p.renumber ρ = p
  operators {name : String} {sig : Signature} : Γ.operators.table.get? name = some sig →
    ∃ sig', Γ'.operators.table.get? name = some sig' ∧ sig.Alike ρ sig'

/-- States that differ in serial numbers only, as far as later steps can tell. -/
structure Twins (ρ : Serial → Serial) (s t : State) : Prop where
  engine : t.engine = s.engine.renumber ρ
  nodeTypes : t.nodeTypes = s.nodeTypes.mapValues (Prod.map id (Ty.renumber ρ))
  callArgs : t.callArgs = s.callArgs.mapValues (List.map (Ty.renumber ρ))
  scope : t.scope = s.scope
  schemes : t.schemes = s.schemes.mapValues (Signature.renumber ρ)
  provisional : t.provisional = s.provisional.mapValues (Ty.renumber ρ)
  solving : t.solving = s.solving
  scrutinees : t.scrutinees = s.scrutinees.map (Prod.map id (Ty.renumber ρ))
  /-- The next serial numbers to be given out correspond. -/
  supply (k : Nat) : ρ (s.session.supply.last + k + 1) = t.session.supply.last + k + 1

def Env.renumber (ρ : Serial → Serial) (env : Env) : Env :=
  List.map (Prod.map id (Ty.renumber ρ)) env

variable {α β : Type} {A : α → β → Prop} {Γ Γ' : Context}
variable {u : Ty} {ps : List TypeParam} {sig' : Signature} {r : Ty × List Ty}
  {explicit : Option (List Ty)} {g : Global}

theorem Fixes.child {c : Expr} (h : Fixes ρ e) (hc : c ∈ e.children) : Fixes ρ c where
  written d hd := h.written d (Expr.parts_of_child hc hd)
  typeParams d hd := h.typeParams d (Expr.parts_of_child hc hd)

theorem onEngine_tracks {x : EngineM α} {y : EngineM β}
    (h : Tracks (Image (Engine.renumber ρ)) A x y) :
    Tracks (Twins ρ) A (onEngine x) (onEngine y) := by
  intro s t hst a s' hrun
  unfold onEngine at hrun ⊢
  cases hx : x s.engine with
  | error f e => simp [hx] at hrun
  | ok a' e =>
    obtain ⟨rfl, rfl⟩ : a' = a ∧ { s with engine := e } = s' := by simpa [hx] using hrun
    obtain ⟨b, e', hy, hab, he⟩ := h hst.engine hx
    refine ⟨b, { t with engine := e' }, by rw [hy], hab, ?_⟩
    exact { hst with engine := he }

theorem find_tracks (t : Ty) :
    Tracks (Twins ρ) (Image (Ty.renumber ρ)) (find t) (find (t.renumber ρ)) :=
  onEngine_tracks (EngineM.onStore_tracks (StoreM.find_tracks t))

theorem resolve_tracks (t : Ty) :
    Tracks (Twins ρ) (Image (Ty.renumber ρ)) (resolve t) (resolve (t.renumber ρ)) :=
  onEngine_tracks (EngineM.onStore_tracks (StoreM.resolve_tracks t))

theorem resolveAll_tracks (ts : List Ty) :
    Tracks (Twins ρ) (Image (List.map (Ty.renumber ρ))) (resolveAll ts)
      (resolveAll (ts.map (Ty.renumber ρ))) :=
  onEngine_tracks (EngineM.resolveAll_tracks ts)

theorem unify_tracks (a b : Ty) (site : Phrase) :
    Tracks (Twins ρ) (fun _ _ => True) (unify a b site)
      (unify (a.renumber ρ) (b.renumber ρ) site) :=
  onEngine_tracks (EngineM.onStore_tracks (StoreM.unify_tracks a b (some site)))

theorem fresh_tracks : Tracks (Twins ρ) (Image (Ty.renumber ρ)) fresh fresh :=
  onEngine_tracks (EngineM.onStore_tracks StoreM.fresh_tracks)

theorem freshFor_tracks {l : List α} {l' : List β} (hlength : l'.length = l.length) :
    Tracks (Twins ρ) (fun ts us => us = ts.map (Ty.renumber ρ) ∧ ts.length = l.length)
      (freshFor l) (freshFor l') := by
  induction l generalizing l' with
  | nil =>
    obtain rfl := length_eq_zero_iff.1 hlength
    exact .pure ⟨rfl, rfl⟩
  | cons a l ih =>
    obtain ⟨b, l', rfl⟩ := exists_cons_of_length_eq_add_one hlength
    apply fresh_tracks.bind_image
    intro t
    apply (ih (by simpa using hlength)).bind
    rintro ts _ ⟨rfl, hts⟩
    exact .pure ⟨rfl, by simp [hts]⟩

theorem relate_tracks (hΓ : Widens ρ Γ Γ') (r : TypeRelation) (site : Phrase) (attrs : Attrs) :
    Tracks (Twins ρ) (fun _ _ => True) (relate Γ r site attrs)
      (relate Γ' (r.renumber ρ) site attrs) := by
  unfold relate
  rw [hΓ.registry]
  apply onEngine_tracks
  apply (EngineM.add_tracks Γ.registry r (some site) attrs).bind
  intro _ _ _
  exact .pure trivial

theorem relateAll_tracks (hΓ : Widens ρ Γ Γ') (site : Phrase) (attrs : Attrs)
    (rs : List TypeRelation) :
    Tracks (Twins ρ) (fun _ _ => True) (relateAll Γ site attrs rs)
      (relateAll Γ' site attrs (rs.map (TypeRelation.renumber ρ))) := by
  induction rs with
  | nil => exact .pure trivial
  | cons r rs ih => exact (relate_tracks hΓ r site attrs).bind_unit ih

theorem Twins.noted (h : Twins ρ s t) (n : Serial) (p : Phrase) (u : Ty) :
    Twins ρ (s.noted n p u) (t.noted n p (u.renumber ρ)) := by
  have hinsert : t.nodeTypes.insert n (p, u.renumber ρ) =
      (s.nodeTypes.insert n (p, u)).mapValues (Prod.map id (Ty.renumber ρ)) := by
    rw [h.nodeTypes, ← Table.insert_mapValues]
    rfl
  exact { h with nodeTypes := hinsert }

theorem Twins.notedExpr (h : Twins ρ s t) (e : Expr) (u : Ty) :
    Twins ρ (s.notedExpr e u) (t.notedExpr e (u.renumber ρ)) := by
  unfold State.notedExpr
  split
  · exact h
  · exact h.noted e.serial (.expr e) u

/-! ## Written types -/

theorem WellFormed.widen (hΓ : Widens ρ Γ Γ') {scope : List TypeParam}
    (h : WellFormed Γ.module scope ts) : WellFormed Γ'.module scope ts := by
  have htype (t : Ty) (scope : List TypeParam) (ht : misformed? Γ.module scope none t = none) :
      misformed? Γ'.module scope none t = none := by
    induction t using Ty.induction_children generalizing scope with
    | step t ih =>
      rw [misformed?_eq_none_iff] at ht ⊢
      obtain ⟨hscope, hstand, hoperands⟩ := ht
      refine ⟨hscope, ?_, fun u hu => ih u (Ty.mem_children.2 (.inl hu)) _ (hoperands u hu)⟩
      cases t with
      | data h as =>
        obtain ⟨d, hd, hlen⟩ := hstand
        exact ⟨d, hΓ.dataTypes hd, hlen⟩
      | _ => exact hstand
  rw [WellFormed, misformedList?_eq_none_iff] at h ⊢
  exact fun t ht => htype t scope (h t ht)

theorem Ascribed.twin (hΓ : Widens ρ Γ Γ') {ascription : Option Ty}
    (h : Ascribed Γ ascription u site s s') (hst : Twins ρ s t)
    (hfixed : ∀ a ∈ ascription.toList, a.renumber ρ = a) :
    ∃ t', Ascribed Γ' ascription (u.renumber ρ) site t t' ∧ Twins ρ s' t' := by
  cases ascription with
  | none =>
    obtain rfl : s' = s := h
    exact ⟨t, rfl, hst⟩
  | some a =>
    obtain ⟨hwritten, hunify⟩ := h
    obtain ⟨_, t', hunify', -, hst'⟩ := unify_tracks a u site hst hunify
    rw [hfixed a (mem_singleton.2 rfl)] at hunify'
    refine ⟨t', ⟨?_, hunify'⟩, hst'⟩
    rw [hst.scope]
    exact hwritten.widen hΓ

theorem renumber_map_of_fixed (h : ∀ t ∈ ts, t.renumber ρ = t) : ts.map (Ty.renumber ρ) = ts := by
  rw [map_congr_left h, map_id']

theorem params_of_fixed (h : ∀ p ∈ ps, p.renumber ρ = p) : ps.map (TypeParam.renumber ρ) = ps := by
  rw [map_congr_left h, map_id']

theorem relations_of_fixed {rs : List TypeRelation}
    (h : ∀ t ∈ rs.flatMap fun r => r.args, t.renumber ρ = t) :
    rs.map (TypeRelation.renumber ρ) = rs := by
  have hrelation : ∀ r ∈ rs, TypeRelation.renumber ρ r = r := by
    intro r hr
    rw [TypeRelation.renumber, renumber_map_of_fixed fun t ht => h t (mem_flatMap.2 ⟨r, hr, ht⟩)]
  rw [map_congr_left hrelation, map_id']

/-! ## Patterns -/

theorem inputs_renumber (hps : ∀ p ∈ ps, p.renumber ρ = p) {inputs : List Ty}
    (hinputs : ∀ t ∈ inputs, t.renumber ρ = t) (ts : List Ty) :
    inputs.map (Substitution.ofParams ps (ts.map (Ty.renumber ρ))).apply =
      (inputs.map (Substitution.ofParams ps ts).apply).map (Ty.renumber ρ) := by
  rw [map_map]
  apply map_congr_left
  intro t ht
  have happly := Ty.apply_ofParams_renumber ρ ps ts t
  rw [hinputs t ht, params_of_fixed hps] at happly
  exact happly

mutual

theorem checkPattern_tracks (hΓ : Widens ρ Γ Γ') (p : Pattern) (expected : Ty)
    (h : ∀ t ∈ p.written, t.renumber ρ = t) :
    Tracks (Twins ρ) (Image (Env.renumber ρ)) (checkPattern Γ p expected)
      (checkPattern Γ' p (expected.renumber ρ)) := by
  intro s t hst bound s' hrun
  cases p with
  | wildcard n =>
    obtain ⟨rfl, rfl⟩ := checkPattern_wildcard_ok_iff.1 hrun
    exact ⟨[], t, checkPattern_wildcard_ok_iff.2 ⟨rfl, rfl⟩, rfl, hst⟩
  | var n x =>
    obtain ⟨s₁, hasc, rfl, rfl⟩ := checkPattern_var_ok_iff.1 hrun
    obtain ⟨t₁, hasc', hst₁⟩ := hasc.twin hΓ hst h
    exact ⟨_, _, checkPattern_var_ok_iff.2 ⟨t₁, hasc', rfl, rfl⟩, rfl, hst₁.notedExpr _ expected⟩
  | ctor n c subs =>
    obtain ⟨d, ts, s₁, s₂, hd, hts, hunify, hlength, hsubs⟩ := checkPattern_ctor_ok_iff.1 hrun
    simp only [Pattern.written, forall_mem_append] at h
    obtain ⟨_, t₁, hts', ⟨rfl, -⟩, hst₁⟩ := freshFor_tracks (l := d.params) rfl hst hts
    obtain ⟨_, t₂, hunify', -, hst₂⟩ := unify_tracks expected _ _ hst₁ hunify
    obtain ⟨b, t', hsubs', hb, hst'⟩ := checkPatterns_tracks hΓ subs _ h.2 hst₂ hsubs
    rw [Ty.renumber_data] at hunify'
    rw [← inputs_renumber (hΓ.params hd) h.1 ts] at hsubs'
    exact ⟨b, t', checkPattern_ctor_ok_iff.2 ⟨d, _, t₁, t₂, hΓ.ctors hd, hts', hunify', hlength,
      hsubs'⟩, hb, hst'⟩

theorem checkPatterns_tracks (hΓ : Widens ρ Γ Γ') (ps : List Pattern) (ts : List Ty)
    (h : ∀ t ∈ Pattern.writtenList ps, t.renumber ρ = t) :
    Tracks (Twins ρ) (Image (Env.renumber ρ)) (checkPatterns Γ ps ts)
      (checkPatterns Γ' ps (ts.map (Ty.renumber ρ))) := by
  intro s t hst bound s' hrun
  cases ps with
  | nil =>
    obtain ⟨rfl, rfl⟩ := (checkPatterns_nil_ok_iff (.inl rfl)).1 hrun
    exact ⟨[], t, (checkPatterns_nil_ok_iff (.inl rfl)).2 ⟨rfl, rfl⟩, rfl, hst⟩
  | cons p ps =>
    cases ts with
    | nil =>
      obtain ⟨rfl, rfl⟩ := (checkPatterns_nil_ok_iff (.inr rfl)).1 hrun
      exact ⟨[], t, (checkPatterns_nil_ok_iff (.inr rfl)).2 ⟨rfl, rfl⟩, rfl, hst⟩
    | cons u ts =>
      simp only [Pattern.writtenList, forall_mem_append] at h
      obtain ⟨first, more, s₁, hfirst, hmore, rfl⟩ := checkPatterns_cons_ok_iff.1 hrun
      obtain ⟨_, t₁, hfirst', rfl, hst₁⟩ := checkPattern_tracks hΓ p u h.1 hst hfirst
      obtain ⟨_, t', hmore', rfl, hst'⟩ :=
        checkPatterns_tracks hΓ ps ts h.2 (hst₁.noted p.serial (.pattern p) u) hmore
      refine ⟨_, t', checkPatterns_cons_ok_iff.2 ⟨_, _, t₁, hfirst', hmore', rfl⟩, ?_, hst'⟩
      exact map_append.symm

end

theorem checkSubject_tracks (final : Bool) (subject : Expr) (t : Ty) :
    Tracks (Twins ρ) (fun _ _ => True) (checkSubject final subject t)
      (checkSubject final subject (t.renumber ρ)) := by
  apply (find_tracks t).bind_image
  intro u
  cases u with
  | cell c =>
    cases final with
    | true => exact .throw
    | false => exact .pure trivial
  | data h as =>
    rw [Ty.renumber_data]
    exact .pure trivial
  | _ =>
    intro s _ _ a s' hrun
    obtain ⟨_, _, -, hthrow⟩ := bind_eq_ok hrun
    cases hthrow

/-! ## References -/

theorem instanceRun_twin (hΓ : Widens ρ Γ Γ') (hsig : sig.Alike ρ sig')
    {choose choose' : InferM (List Ty)} (hchoose : Tracks (Twins ρ) (fun ts us =>
      us = ts.map (Ty.renumber ρ) ∧ ts.length = sig.params.length) choose choose')
    (h : InstanceRun Γ sig choose site attrs s r s') (hst : Twins ρ s t) :
    ∃ t', InstanceRun Γ' sig' choose' site attrs t
      (r.1.renumber ρ, r.2.map (Ty.renumber ρ)) t' ∧ Twins ρ s' t' := by
  have hlength : sig'.params.length = sig.params.length := by
    have hkinds := congrArg List.length hsig.kinds
    simpa using hkinds
  unfold InstanceRun at h ⊢
  split at h
  · next hempty =>
    have hparams : sig.params = [] := isEmpty_iff.1 hempty
    obtain ⟨rfl, hrel⟩ := h
    obtain ⟨_, t', hrel', -, hst'⟩ := relateAll_tracks hΓ site attrs sig.relations hst hrel
    obtain rfl := hsig.bare hparams
    refine ⟨t', ?_, hst'⟩
    rw [if_pos (by simp [Signature.renumber, hparams])]
    refine ⟨?_, hrel'⟩
    simp [Signature.toTy, Signature.renumber]
  · next hempty =>
    obtain ⟨s₁, hts, hrel, hret⟩ := h
    obtain ⟨_, t₁, hts', ⟨rfl, hcount⟩, hst₁⟩ := hchoose hst hts
    obtain ⟨_, t', hrel', -, hst'⟩ := relateAll_tracks hΓ site attrs _ hst₁ hrel
    rw [← hsig.relations hcount] at hrel'
    have hempty' : ¬ sig'.params.isEmpty = true := by
      rw [List.isEmpty_iff, ← List.length_eq_zero_iff] at hempty ⊢
      omega
    refine ⟨t', ?_, hst'⟩
    rw [if_neg hempty']
    refine ⟨t₁, hts', hrel', ?_⟩
    simp only
    rw [hret, hsig.args hcount, hsig.ret hcount, Ty.renumber_func]
    rfl

theorem instantiate_tracks (hΓ : Widens ρ Γ Γ') (hsig : sig.Alike ρ sig')
    (hexplicit : ∀ t ∈ explicit.getD [], t.renumber ρ = t) (site : Phrase) (attrs : Attrs) :
    Tracks (Twins ρ) (Image (Prod.map (Ty.renumber ρ) (List.map (Ty.renumber ρ))))
      (instantiate Γ sig explicit site attrs) (instantiate Γ' sig' explicit site attrs) := by
  have hlength : sig'.params.length = sig.params.length := by
    have hkinds := congrArg List.length hsig.kinds
    simpa using hkinds
  intro s t hst r s' hrun
  cases explicit with
  | none =>
    rw [instantiate_none_ok_iff] at hrun
    obtain ⟨t', hrun', hst'⟩ := instanceRun_twin hΓ hsig (freshFor_tracks hlength) hrun hst
    exact ⟨_, t', instantiate_none_ok_iff.2 hrun', rfl, hst'⟩
  | some ts =>
    obtain ⟨hcount, hkinds, hrun⟩ := instantiate_some_ok_iff.1 hrun
    have hpure : Tracks (Twins ρ) (fun ts us => us = ts.map (Ty.renumber ρ) ∧
        ts.length = sig.params.length) (pure ts : InferM (List Ty)) (pure ts) :=
      .pure ⟨(renumber_map_of_fixed hexplicit).symm, hcount⟩
    obtain ⟨t', hrun', hst'⟩ := instanceRun_twin hΓ hsig hpure hrun hst
    refine ⟨_, t', instantiate_some_ok_iff.2 ⟨hcount.trans hlength.symm, ?_, hrun'⟩, rfl, hst'⟩
    intro p hp
    have hkind : p.kind ∈ sig.params.map fun p => p.kind := by
      rw [← hsig.kinds]
      exact mem_map_of_mem hp
    obtain ⟨q, hq, hqp⟩ := mem_map.1 hkind
    rw [← hqp]
    exact hkinds q hq

theorem Widens.declared?_eq (hΓ : Widens ρ Γ Γ') (hg : Γ.module.functions.contains g = true) :
    Γ'.declared? g = Γ.declared? g := by
  obtain ⟨f, hf⟩ := Option.isSome_iff_exists.1 hg
  rw [Context.declared?, Context.declared?, hf, hΓ.functions hf]

theorem Widens.renumber_declared (hΓ : Widens ρ Γ Γ') (hd : Γ.declared? g = some sig) :
    sig.renumber ρ = sig := by
  obtain ⟨f, hf, hsig⟩ := Option.bind_eq_some_iff.1 hd
  obtain ⟨hargs, hret, hrelations⟩ := Function.declared?_eq_some hsig
  have hparams := Function.params_of_declared? hsig
  have hwritten := (hΓ.written hf).written _ (Expr.self_mem_parts _)
  have htypeParams := (hΓ.written hf).typeParams _ (Expr.self_mem_parts _)
  simp only [Function.toExpr, Expr.written, forall_mem_append] at hwritten
  rw [← hargs, hret, ← hrelations] at hwritten
  have hslots : sig.relations.map (TypeRelation.renumber ρ) = sig.relations := by
    apply relations_of_fixed
    exact hwritten.2
  cases sig with
  | mk args ret params relations =>
    simp only [Signature.renumber, Signature.mk.injEq]
    refine ⟨renumber_map_of_fixed hwritten.1.1, ?_, ?_, hslots⟩
    · exact hwritten.1.2 ret (mem_singleton.2 rfl)
    · obtain rfl : params = f.typeParams := hparams
      exact params_of_fixed htypeParams

variable {solve solve' : Global → InferM Unit}
variable {direct : Option (List Ty)} {result : Ty} {env : Env}

/-- The functions of the smaller module are typed alike on demand. -/
def SolvesAlike (ρ : Serial → Serial) (Γ : Context) (solve solve' : Global → InferM Unit) : Prop :=
  ∀ g, Γ.module.functions.contains g = true →
    Tracks (Twins ρ) (fun _ _ => True) (solve g) (solve' g)

section

variable (hΓ : Widens ρ Γ Γ')

include hΓ

section

variable (hsolve : SolvesAlike ρ Γ solve solve')

include hsolve

theorem signatureOf_tracks (g : Global) :
    Tracks (Twins ρ) (Image (Signature.renumber ρ)) (signatureOf Γ solve g)
      (signatureOf Γ' solve' g) := by
  intro s t hst sig s' hrun
  obtain ⟨hknown, hrun⟩ := signatureOf_ok_iff.1 hrun
  have hknown' : Γ'.module.functions.contains g = true := by
    obtain ⟨f, hf⟩ := Option.isSome_iff_exists.1 hknown
    exact Option.isSome_iff_exists.2 ⟨f, hΓ.functions hf⟩
  have hused : UsedAsDeclared Γ' t g ↔ UsedAsDeclared Γ s g := by
    rw [UsedAsDeclared, UsedAsDeclared, hΓ.declared?_eq hknown, hst.solving]
  have hlookup {s t : State} (hst : Twins ρ s t) :
      t.schemes.get? g = (s.schemes.get? g).map (Signature.renumber ρ) := by
    rw [hst.schemes, Table.get?_mapValues]
  have hcontains : t.schemes.contains g = s.schemes.contains g := by
    rw [hst.schemes, Table.contains_mapValues]
  rcases hrun with ⟨huse, hd, rfl⟩ | ⟨huse, hdemand, hsig⟩
  · refine ⟨_, t, signatureOf_ok_iff.2 ⟨hknown', .inl ⟨hused.2 huse, ?_, rfl⟩⟩, rfl, hst⟩
    rw [hΓ.declared?_eq hknown, hd, hΓ.renumber_declared hd]
  · rcases hdemand with ⟨hnew, hdemand⟩ | ⟨hdone, rfl⟩
    · obtain ⟨_, t', hdemand', -, hst'⟩ := hsolve g hknown hst hdemand
      refine ⟨_, t', signatureOf_ok_iff.2 ⟨hknown', .inr ⟨fun hd => huse (hused.1 hd), .inl ?_,
        ?_⟩⟩, rfl, hst'⟩
      · exact ⟨hcontains.trans hnew, hdemand'⟩
      · rw [hlookup hst', hsig]
        rfl
    · refine ⟨_, t, signatureOf_ok_iff.2 ⟨hknown', .inr ⟨fun hd => huse (hused.1 hd), .inr ?_,
        ?_⟩⟩, rfl, hst⟩
      · exact ⟨hcontains.trans hdone, rfl⟩
      · rw [hlookup hst, hsig]
        rfl

theorem SignatureRun.twin (he : Fixes ρ e)
    (h : SignatureRun Γ solve e s sig s') (hst : Twins ρ s t) :
    ∃ sig' t', SignatureRun Γ' solve' e t sig' t' ∧ sig.Alike ρ sig' ∧ Twins ρ s' t' := by
  cases e with
  | global g =>
    obtain ⟨hnone, hrun⟩ := h
    obtain ⟨_, t', hrun', rfl, hst'⟩ := signatureOf_tracks hΓ hsolve g hst hrun
    refine ⟨_, t', ⟨?_, hrun'⟩, .of_renumber ρ sig, hst'⟩
    rw [hst.provisional, Table.get?_mapValues, hnone]
    rfl
  | op n name =>
    obtain ⟨hsig, rfl⟩ := h
    obtain ⟨sig', hsig', halike⟩ := hΓ.operators hsig
    exact ⟨sig', t, ⟨hsig', rfl⟩, halike, hst⟩
  | ctor c =>
    obtain ⟨⟨d, hd, rfl⟩, rfl⟩ := h
    refine ⟨d.ctorSignature c, t, ⟨⟨d, hΓ.ctors hd, rfl⟩, rfl⟩, ?_, hst⟩
    have hsame : (d.ctorSignature c).renumber ρ = d.ctorSignature c := by
      have hparams := params_of_fixed (hΓ.params hd)
      have hinputs : c.inputs.map (Ty.renumber ρ) = c.inputs :=
        renumber_map_of_fixed (he.written _ (Expr.self_mem_parts _))
      have hself : (d.params.map Ty.param).map (Ty.renumber ρ) = d.params.map Ty.param := by
        apply renumber_map_of_fixed
        intro t ht
        obtain ⟨p, hp, rfl⟩ := mem_map.1 ht
        rw [Ty.renumber_param, hΓ.params hd p hp]
      simp only [Signature.renumber, DataType.ctorSignature, DataType.selfType, Ty.renumber_data,
        hparams, hinputs, hself, map_nil]
    have halike := Signature.Alike.of_renumber ρ (d.ctorSignature c)
    rwa [hsame] at halike
  | _ => exact h.elim

theorem ReferenceRun.twin (he : Fixes ρ e) (hexplicit : ∀ t ∈ explicit.getD [], t.renumber ρ = t)
    (h : ReferenceRun Γ solve e explicit site attrs s r s') (hst : Twins ρ s t) :
    ∃ t', ReferenceRun Γ' solve' e explicit site attrs t
      (r.1.renumber ρ, r.2.map (Ty.renumber ρ)) t' ∧ Twins ρ s' t' := by
  obtain ⟨hwritten, h⟩ := h
  have hwritten' : WellFormed Γ'.module t.scope (explicit.getD []) := by
    rw [hst.scope]
    exact hwritten.widen hΓ
  rcases h with ⟨hprovisional, hnone, hgiven, rfl⟩ | ⟨sig, s₁, hsig, hinstance⟩
  · refine ⟨t, ⟨hwritten', .inl ⟨?_, hnone, ?_, rfl⟩⟩, hst⟩
    · cases e with
      | global g =>
        change t.provisional.get? g = some (r.1.renumber ρ)
        rw [hst.provisional, Table.get?_mapValues]
        exact congrArg (Option.map (Ty.renumber ρ)) hprovisional
      | _ => exact hprovisional.elim
    · rw [hgiven]
      rfl
  · obtain ⟨sig', t₁, hsig', halike, hst₁⟩ := hsig.twin hΓ hsolve he hst
    obtain ⟨_, t', hinstance', rfl, hst'⟩ :=
      instantiate_tracks hΓ halike hexplicit site attrs hst₁ hinstance
    exact ⟨t', ⟨hwritten', .inr ⟨sig', t₁, hsig', hinstance'⟩⟩, hst'⟩

end

/-! ## Expressions -/

theorem paramTypes_tracks (xs : List Var)
    (h : ∀ t ∈ xs.filterMap fun x => x.ascription, t.renumber ρ = t) :
    Tracks (Twins ρ) (Image (List.map (Ty.renumber ρ))) (paramTypes Γ xs) (paramTypes Γ' xs) := by
  induction xs with
  | nil => exact .pure rfl
  | cons x xs ih =>
    intro s t hst ts s' hrun
    obtain ⟨u, s₁, us, hu, hus, rfl⟩ := paramTypes_cons_ok_iff.1 hrun
    have hrest : ∀ t ∈ xs.filterMap fun x => x.ascription, t.renumber ρ = t := by
      intro t ht
      obtain ⟨y, hy, hyt⟩ := mem_filterMap.1 ht
      exact h t (mem_filterMap.2 ⟨y, .tail _ hy, hyt⟩)
    obtain ⟨t₁, hu', hst₁⟩ : ∃ t₁, (x.ascription = none ∧ fresh t = .ok (u.renumber ρ) t₁ ∨
        x.ascription = some (u.renumber ρ) ∧ WellFormed Γ'.module t.scope [u.renumber ρ] ∧ t₁ = t) ∧
        Twins ρ s₁ t₁ := by
      rcases hu with ⟨hnone, hfresh⟩ | ⟨hsome, hwritten, rfl⟩
      · obtain ⟨_, t₁, hfresh', rfl, hst₁⟩ := fresh_tracks hst hfresh
        exact ⟨t₁, .inl ⟨hnone, hfresh'⟩, hst₁⟩
      · rw [h u (mem_filterMap.2 ⟨x, .head _, hsome⟩), hst.scope]
        exact ⟨t, .inr ⟨hsome, hwritten.widen hΓ, rfl⟩, hst⟩
    obtain ⟨_, t', hus', rfl, hst'⟩ := ih hrest (hst₁.notedExpr (.var x) u) hus
    exact ⟨_, t', paramTypes_cons_ok_iff.2 ⟨_, t₁, _, hu', hus', rfl⟩, rfl, hst'⟩

omit hΓ in
theorem unifyArgs_tracks (ps ts : List Ty) (es : List Expr) :
    Tracks (Twins ρ) (fun _ _ => True) (unifyArgs ps ts es)
      (unifyArgs (ps.map (Ty.renumber ρ)) (ts.map (Ty.renumber ρ)) es) := by
  induction ps generalizing ts es with
  | nil => exact .pure trivial
  | cons p ps ih =>
    cases ts with
    | nil => exact .pure trivial
    | cons t ts =>
      cases es with
      | nil => exact .pure trivial
      | cons e es => exact (unify_tracks p t (.expr e)).bind_unit (ih ts es)

omit hΓ in
theorem unifyBranches_tracks (result : Ty) (branches : List (Expr × Ty)) :
    Tracks (Twins ρ) (fun _ _ => True) (unifyBranches result branches)
      (unifyBranches (result.renumber ρ) (branches.map (Prod.map id (Ty.renumber ρ)))) := by
  induction branches with
  | nil => exact .pure trivial
  | cons b rest ih => exact (unify_tracks result b.2 (.expr b.1)).bind_unit ih

theorem ApplyRun.twin {site : Expr} {found : Ty} {args : List Expr} {given : List Ty}
    (h : ApplyRun Γ site found direct args ts attrs s result given s') (hst : Twins ρ s t) :
    ∃ t', ApplyRun Γ' site (found.renumber ρ) (direct.map (List.map (Ty.renumber ρ))) args
      (ts.map (Ty.renumber ρ)) attrs t (result.renumber ρ) (given.map (Ty.renumber ρ)) t' ∧
      Twins ρ s' t' := by
  have hgiven : (direct.map (List.map (Ty.renumber ρ))).getD [] =
      (direct.getD []).map (Ty.renumber ρ) := by
    cases direct <;> rfl
  cases found with
  | cell c =>
    obtain ⟨rfl, s₁, hfresh, hunify⟩ := h
    obtain ⟨_, t₁, hfresh', rfl, hst₁⟩ := fresh_tracks hst hfresh
    obtain ⟨_, t', hunify', -, hst'⟩ := unify_tracks _ _ _ hst₁ hunify
    rw [Ty.renumber_func] at hunify'
    exact ⟨t', ⟨hgiven.symm, t₁, hfresh', hunify'⟩, hst'⟩
  | func as ret ps rs =>
    rw [Ty.renumber_func]
    obtain ⟨as', ps', rs', s₁, hchoice, hlength, hunify⟩ := h
    have hcond : (!(ps.map (TypeParam.renumber ρ)).isEmpty &&
        (direct.map (List.map (Ty.renumber ρ))).isNone) = (!ps.isEmpty && direct.isNone) := by
      rw [isEmpty_map, Option.isNone_map]
    have hlength' : (as'.map (Ty.renumber ρ)).length = (ts.map (Ty.renumber ρ)).length := by
      simpa using hlength
    rcases hchoice with ⟨hc, hinstance⟩ | ⟨hc, rfl, rfl, rfl, rfl⟩
    · have halike := Signature.Alike.of_renumber ρ ⟨as, ret, ps, rs⟩
      have hnone : ∀ t ∈ (none : Option (List Ty)).getD [], t.renumber ρ = t :=
        forall_mem_nil _
      obtain ⟨_, t₁, hinstance', rfl, hst₁⟩ :=
        instantiate_tracks hΓ halike hnone (.expr site) attrs hst hinstance
      obtain ⟨_, t', hunify', -, hst'⟩ := unifyArgs_tracks as' ts args hst₁ hunify
      rw [Prod.map_apply, Ty.renumber_func] at hinstance'
      exact ⟨t', ⟨_, _, _, t₁, .inl ⟨hcond.trans hc, hinstance'⟩, hlength', hunify'⟩, hst'⟩
    · obtain ⟨_, t', hunify', -, hst'⟩ := unifyArgs_tracks as' ts args hst hunify
      exact ⟨t', ⟨_, [], [], t, .inr ⟨hcond.trans hc, rfl, rfl, hgiven.symm, rfl⟩, hlength',
        hunify'⟩, hst'⟩
  | _ => exact h.elim

theorem applyTo_tracks (site : Expr) (f : Ty) (direct : Option (List Ty)) (args : List Expr)
    (ts : List Ty) (attrs : Attrs) :
    Tracks (Twins ρ) (Image (Prod.map (Ty.renumber ρ) (List.map (Ty.renumber ρ))))
      (applyTo Γ site f direct args ts attrs)
      (applyTo Γ' site (f.renumber ρ) (direct.map (List.map (Ty.renumber ρ))) args
        (ts.map (Ty.renumber ρ)) attrs) := by
  intro s t hst r s' hrun
  obtain ⟨found, s₁, hfound, happly⟩ := applyTo_ok_iff.1 hrun
  obtain ⟨_, t₁, hfound', rfl, hst₁⟩ := find_tracks f hst hfound
  obtain ⟨t', happly', hst'⟩ := happly.twin hΓ hst₁
  exact ⟨_, t', applyTo_ok_iff.2 ⟨_, t₁, hfound', happly'⟩, rfl, hst'⟩

theorem projectFrom_tracks (site : Expr) (t : Ty) (index : Index) :
    Tracks (Twins ρ) (Image (Ty.renumber ρ)) (projectFrom Γ site t index)
      (projectFrom Γ' site (t.renumber ρ) index) := by
  unfold projectFrom
  extract_lets outOfRange
  apply (find_tracks t).bind_image
  intro found
  cases found with
  | tuple ts =>
    rw [Ty.renumber_tuple]
    apply Tracks.ite Iff.rfl
    · exact fun _ => .throw
    · intro _
      rw [getElem?_map]
      cases ts[index.toInt.toNat]? with
      | some u => exact .pure rfl
      | none => exact .throw
  | cell c =>
    apply Tracks.ite Iff.rfl
    · exact fun _ => .throw_bind
    · intro _
      apply fresh_tracks.bind_image
      intro out
      exact (relate_tracks hΓ ⟨"TupleGetItem", [t, out], 1, _⟩ _ _).bind_unit (.pure rfl)
  | _ =>
    apply Tracks.of_ite
    · exact fun _ => .throw_bind
    · exact fun _ => .throw

end

theorem Env.lookup_renumber (env : Env) (n : Serial) :
    (env.renumber ρ).lookup n = (env.lookup n).map (Ty.renumber ρ) := by
  induction env with
  | nil => rfl
  | cons b env ih =>
    have hkey : (n == (Prod.map id (Ty.renumber ρ) b).1) = (n == b.1) := rfl
    rw [Env.renumber, map_cons, lookup_cons, lookup_cons, hkey]
    cases n == b.1 with
    | true => rfl
    | false => exact ih

theorem extend_renumber (env : Env) (xs : List Var) (ts : List Ty) :
    extend (env.renumber ρ) xs (ts.map (Ty.renumber ρ)) = (extend env xs ts).renumber ρ := by
  simp [extend, Env.renumber, zip_map_right]

def InferTracks (ρ : Serial → Serial) (Γ Γ' : Context) (solve solve' : Global → InferM Unit)
    (e : Expr) : Prop :=
  ∀ env, Tracks (Twins ρ) (Image (Ty.renumber ρ)) (infer Γ solve e env)
    (infer Γ' solve' e (Env.renumber ρ env))

theorem inferList_tracks {es : List Expr} (h : ∀ e ∈ es, InferTracks ρ Γ Γ' solve solve' e)
    (env : Env) :
    Tracks (Twins ρ) (Image (List.map (Ty.renumber ρ))) (inferList Γ solve es env)
      (inferList Γ' solve' es (env.renumber ρ)) := by
  induction es with
  | nil =>
    unfold inferList
    exact .pure rfl
  | cons e es ih =>
    rw [forall_mem_cons] at h
    unfold inferList
    apply (h.1 env).bind_image
    intro t
    apply (ih h.2).bind_image
    intro ts
    exact .pure rfl

theorem inferClauses_tracks (hΓ : Widens ρ Γ Γ') (subject : Ty) {clauses : List (Pattern × Expr)}
    (hwritten : ∀ t ∈ clauses.flatMap fun c => c.1.written, t.renumber ρ = t)
    (h : ∀ e ∈ clauses.map Prod.snd, InferTracks ρ Γ Γ' solve solve' e) (env : Env) :
    Tracks (Twins ρ) (Image (List.map (Prod.map id (Ty.renumber ρ))))
      (inferClauses Γ solve subject clauses env)
      (inferClauses Γ' solve' (subject.renumber ρ) clauses (env.renumber ρ)) := by
  induction clauses with
  | nil =>
    unfold inferClauses
    exact .pure rfl
  | cons c clauses ih =>
    obtain ⟨p, body⟩ := c
    rw [map_cons, forall_mem_cons] at h
    simp only [flatMap_cons, forall_mem_append] at hwritten
    intro s t hst branches s' hrun
    obtain ⟨bound, u, more, s₁, s₂, hp, hu, hmore, rfl⟩ := inferClauses_cons_ok_iff.1 hrun
    obtain ⟨_, t₁, hp', rfl, hst₁⟩ := checkPattern_tracks hΓ p subject hwritten.1 hst hp
    obtain ⟨_, t₂, hu', rfl, hst₂⟩ := h.1 (bound ++ env) (hst₁.noted _ _ subject) hu
    obtain ⟨_, t', hmore', rfl, hst'⟩ := ih hwritten.2 h.2 hst₂ hmore
    rw [Env.renumber, map_append] at hu'
    exact ⟨_, t', inferClauses_cons_ok_iff.2 ⟨_, _, _, t₁, t₂, hp', hu', hmore', rfl⟩, rfl, hst'⟩

theorem renumber_ofEntries {c : Constant} {t : Ty} (h : Ty.ofEntries c.shape c.dtype = .ok t) :
    t.renumber ρ = t := by
  unfold Ty.ofEntries at h
  split at h
  · cases h
    rfl
  · cases h

theorem CalleeRun.twin (hΓ : Widens ρ Γ Γ') (hsolve : SolvesAlike ρ Γ solve solve')
    {site callee : Expr} (hfixes : Fixes ρ callee) (hinfer : InferTracks ρ Γ Γ' solve solve' callee)
    {typeArgs : Option (List Ty)} (htypeArgs : ∀ t ∈ typeArgs.getD [], t.renumber ρ = t) {f : Ty}
    (h : CalleeRun Γ solve site callee typeArgs attrs env s f direct s') (hst : Twins ρ s t) :
    ∃ t', CalleeRun Γ' solve' site callee typeArgs attrs (env.renumber ρ) t (f.renumber ρ)
      (direct.map (List.map (Ty.renumber ρ))) t' ∧ Twins ρ s' t' := by
  rcases h with ⟨hdirect, given, s₁, hreference, rfl, rfl⟩ | ⟨hother, hnone, rfl, hf⟩
  · obtain ⟨t₁, hreference', hst₁⟩ := hreference.twin hΓ hsolve hfixes htypeArgs hst
    exact ⟨_, .inl ⟨hdirect, _, t₁, hreference', rfl, rfl⟩, hst₁.notedExpr callee f⟩
  · obtain ⟨_, t', hf', rfl, hst'⟩ := hinfer env hst hf
    exact ⟨t', .inr ⟨hother, hnone, rfl, hf'⟩, hst'⟩

theorem ValueRun.twin {x : Var} {value : Expr} (hinfer : InferTracks ρ Γ Γ' solve solve' value)
    (h : ValueRun Γ solve x value env s u s') (hst : Twins ρ s t) :
    ∃ t', ValueRun Γ' solve' x value (env.renumber ρ) t (u.renumber ρ) t' ∧ Twins ρ s' t' := by
  rcases h with ⟨hfn, v, s₁, s₂, hfresh, hv, hunify⟩ | ⟨hfn, hu⟩
  · obtain ⟨_, t₁, hfresh', rfl, hst₁⟩ := fresh_tracks hst hfresh
    obtain ⟨_, t₂, hv', rfl, hst₂⟩ := hinfer _ hst₁ hv
    obtain ⟨_, t', hunify', -, hst'⟩ := unify_tracks u v _ hst₂ hunify
    exact ⟨t', .inl ⟨hfn, _, t₁, t₂, hfresh', hv', hunify'⟩, hst'⟩
  · obtain ⟨_, t', hu', rfl, hst'⟩ := hinfer env hst hu
    exact ⟨t', .inr ⟨hfn, hu'⟩, hst'⟩

theorem JoinRun.twin {subject : Expr} {v : Ty} {branches : List (Expr × Ty)}
    (h : JoinRun subject v branches s result s') (hst : Twins ρ s t) :
    ∃ t', JoinRun subject (v.renumber ρ) (branches.map (Prod.map id (Ty.renumber ρ))) t
      (result.renumber ρ) t' ∧ Twins ρ s' t' := by
  cases branches with
  | nil =>
    obtain ⟨_, t', hfresh, rfl, hst'⟩ := fresh_tracks hst h
    exact ⟨t', hfresh, hst'⟩
  | cons b rest =>
    obtain ⟨hresult, s₁, hunify, rfl⟩ := h
    obtain ⟨_, t₁, hunify', -, hst₁⟩ := unifyBranches_tracks _ rest hst hunify
    refine ⟨_, ⟨congrArg (Ty.renumber ρ) hresult, t₁, hunify', rfl⟩,
      { hst₁ with scrutinees := ?_ }⟩
    simp [hst₁.scrutinees]

theorem infer_fn_tracks (hΓ : Widens ρ Γ Γ') {n : Serial} {params : List Var} {body : Expr}
    {ret : Option Ty} {typeParams : List TypeParam} {relations : List TypeRelation}
    (he : Fixes ρ (.fn n params body ret typeParams relations))
    (hbody : InferTracks ρ Γ Γ' solve solve' body) :
    InferTracks ρ Γ Γ' solve solve' (.fn n params body ret typeParams relations) := by
  intro env s t hst u s' hrun
  have hwritten := he.written _ (Expr.self_mem_parts _)
  simp only [Expr.written, forall_mem_append] at hwritten
  obtain ⟨⟨hparams, hret⟩, hslots⟩ := hwritten
  have htypeParams : typeParams.map (TypeParam.renumber ρ) = typeParams :=
    params_of_fixed (he.typeParams _ (Expr.self_mem_parts _))
  have hrelations := relations_of_fixed hslots
  obtain ⟨ts, b, s₁, s₂, s₃, s₄, hts, hb, hasc, hwf, hrel, rfl, rfl⟩ := infer_fn_ok_iff.1 hrun
  have hscoped : Twins ρ { s with scope := s.scope ++ typeParams }
      { t with scope := t.scope ++ typeParams } := { hst with scope := by rw [hst.scope] }
  obtain ⟨_, t₁, hts', rfl, hst₁⟩ := paramTypes_tracks hΓ params hparams hscoped hts
  obtain ⟨_, t₂, hb', rfl, hst₂⟩ := hbody _ hst₁ hb
  obtain ⟨t₃, hasc', hst₃⟩ := hasc.twin hΓ hst₂ hret
  obtain ⟨t₄, hrel', hst₄⟩ : ∃ t₄, (typeParams.isEmpty = true ∧ relateAll Γ'
      (.expr (.fn n params body ret typeParams relations)) .empty relations t₃ = .ok () t₄ ∨
        ¬ typeParams.isEmpty = true ∧ t₄ = t₃) ∧ Twins ρ s₄ t₄ := by
    rcases hrel with ⟨hempty, hrel⟩ | ⟨hnonempty, rfl⟩
    · obtain ⟨_, t₄, hrel', -, hst₄⟩ := relateAll_tracks hΓ _ _ relations hst₃ hrel
      rw [hrelations] at hrel'
      exact ⟨t₄, .inl ⟨hempty, hrel'⟩, hst₄⟩
    · exact ⟨t₃, .inr ⟨hnonempty, rfl⟩, hst₃⟩
  have htype : (Ty.func ts (ret.getD b) typeParams relations).renumber ρ =
      .func (ts.map (Ty.renumber ρ)) (ret.getD (b.renumber ρ)) typeParams relations := by
    rw [Ty.renumber_func, htypeParams, hrelations]
    cases ret with
    | none => rfl
    | some r => rw [Option.getD_some, Option.getD_some, hret r (mem_singleton.2 rfl)]
  have hwf' : WellFormed Γ'.module t₃.scope (relations.flatMap fun r => r.args) := by
    rw [hst₃.scope]
    exact hwf.widen hΓ
  have hscope : Twins ρ { s₄ with scope := s.scope } { t₄ with scope := t.scope } :=
    { hst₄ with scope := hst.scope }
  rw [← extend_renumber] at hb'
  refine ⟨_, _, infer_fn_ok_iff.2 ⟨_, _, t₁, t₂, t₃, t₄, hts', hb', hasc', hwf', hrel', rfl, rfl⟩,
    htype.symm, ?_⟩
  rw [← htype]
  exact hscope.notedExpr _ _

theorem infer_tracks (hΓ : Widens ρ Γ Γ') (hsolve : SolvesAlike ρ Γ solve solve') (he : Fixes ρ e) :
    InferTracks ρ Γ Γ' solve solve' e := by
  induction e using Expr.induction_children with
  | step e ih =>
    have hchild : ∀ c ∈ e.children, InferTracks ρ Γ Γ' solve solve' c :=
      fun c hc => ih c hc (he.child hc)
    have hwritten : ∀ t ∈ e.written, t.renumber ρ = t := he.written e (Expr.self_mem_parts e)
    intro env s t hst u s' hrun
    by_cases href : e.isReference = true
    · obtain ⟨ts, s₁, hfound, rfl⟩ := (infer_reference_ok_iff href).1 hrun
      rcases reference_ok_iff.1 hfound with ⟨hnot, -⟩ | ⟨-, r, hr, hreference⟩
      · simp [hnot] at href
      · obtain rfl : (u, ts) = r := by simpa using hr
        obtain ⟨t₁, hreference', hst₁⟩ := hreference.twin hΓ hsolve he
          (forall_mem_nil _) hst
        refine ⟨_, _, (infer_reference_ok_iff href).2 ⟨_, t₁, reference_ok_iff.2 (.inr ⟨href, _, rfl,
          hreference'⟩), rfl⟩, rfl, hst₁.notedExpr e u⟩
    · cases e with
      | global | op | ctor => exact absurd rfl href
      | var x =>
        obtain ⟨hlookup, rfl⟩ := infer_var_ok_iff.1 hrun
        refine ⟨_, _, infer_var_ok_iff.2 ⟨?_, rfl⟩, rfl, hst.notedExpr (.var x) u⟩
        rw [Env.lookup_renumber, hlookup]
        rfl
      | constant n c =>
        obtain ⟨hc, rfl⟩ := infer_constant_ok_iff.1 hrun
        have hfixed := renumber_ofEntries (ρ := ρ) hc
        refine ⟨_, _, infer_constant_ok_iff.2 ⟨?_, rfl⟩, rfl, hst.notedExpr (.constant n c) u⟩
        rw [hfixed, hc]
      | fn n params body ret typeParams relations =>
        exact infer_fn_tracks hΓ he (hchild body (mem_singleton.2 rfl)) env hst hrun
      | call n callee args typeArgs attrs =>
        obtain ⟨f, direct, ts, given, s₁, s₂, s₃, hcallee, hts, happly, rfl⟩ :=
          infer_call_ok_iff.1 hrun
        have hmem : callee ∈ (Expr.call n callee args typeArgs attrs).children := .head _
        obtain ⟨t₁, hcallee', hst₁⟩ :=
          hcallee.twin hΓ hsolve (he.child hmem) (hchild callee hmem) hwritten hst
        obtain ⟨_, t₂, hts', rfl, hst₂⟩ := inferList_tracks
          (fun e he => hchild e (.tail _ he)) env hst₁ hts
        obtain ⟨_, t₃, happly', rfl, hst₃⟩ :=
          applyTo_tracks hΓ _ f direct args ts attrs hst₂ happly
        refine ⟨_, _, infer_call_ok_iff.2 ⟨_, _, _, _, t₁, t₂, t₃, hcallee', hts', happly', rfl⟩,
          rfl, ?_⟩
        apply Twins.notedExpr
        exact { hst₃ with callArgs := by rw [hst₃.callArgs, Table.insert_mapValues] }
      | letIn n x value body =>
        obtain ⟨v, s₁, s₂, s₃, hv, hasc, hbody, rfl⟩ := infer_letIn_ok_iff.1 hrun
        obtain ⟨t₁, hv', hst₁⟩ := hv.twin (hchild value (.head _)) hst
        obtain ⟨t₂, hasc', hst₂⟩ := hasc.twin hΓ hst₁ hwritten
        obtain ⟨_, t₃, hbody', rfl, hst₃⟩ := hchild body
          (.tail _ (.head _)) _ (hst₂.notedExpr (.var x) v) hbody
        exact ⟨_, _, infer_letIn_ok_iff.2 ⟨_, t₁, t₂, t₃, hv', hasc', hbody', rfl⟩, rfl,
          hst₃.notedExpr _ u⟩
      | tuple n fields =>
        obtain ⟨ts, s₁, hts, rfl, rfl⟩ := infer_tuple_ok_iff.1 hrun
        obtain ⟨_, t₁, hts', rfl, hst₁⟩ := inferList_tracks hchild env hst hts
        have hst' := hst₁.notedExpr (.tuple n fields) (.tuple ts)
        rw [Ty.renumber_tuple] at hst'
        exact ⟨_, _, infer_tuple_ok_iff.2 ⟨_, t₁, hts', rfl, rfl⟩, (Ty.renumber_tuple ts).symm, hst'⟩
      | proj n e index =>
        obtain ⟨v, s₁, s₂, hv, hu, rfl⟩ := infer_proj_ok_iff.1 hrun
        obtain ⟨_, t₁, hv', rfl, hst₁⟩ := hchild e (mem_singleton.2 rfl) env hst hv
        obtain ⟨_, t₂, hu', rfl, hst₂⟩ := projectFrom_tracks hΓ _ v index hst₁ hu
        exact ⟨_, _, infer_proj_ok_iff.2 ⟨_, t₁, t₂, hv', hu', rfl⟩, rfl, hst₂.notedExpr _ u⟩
      | cond n test whenTrue whenFalse =>
        obtain ⟨c, v, s₁, s₂, s₃, s₄, s₅, hc, hbool, hu, hv, hjoin, rfl⟩ := infer_cond_ok_iff.1 hrun
        obtain ⟨_, t₁, hc', rfl, hst₁⟩ := hchild test (by simp) env hst hc
        obtain ⟨_, t₂, hbool', -, hst₂⟩ := unify_tracks _ _ _ hst₁ hbool
        obtain ⟨_, t₃, hu', rfl, hst₃⟩ := hchild whenTrue (by simp) env hst₂ hu
        obtain ⟨_, t₄, hv', rfl, hst₄⟩ := hchild whenFalse (by simp) env hst₃ hv
        obtain ⟨_, t₅, hjoin', -, hst₅⟩ := unify_tracks _ _ _ hst₄ hjoin
        exact ⟨_, _, infer_cond_ok_iff.2 ⟨_, _, t₁, t₂, t₃, t₄, t₅, hc', hbool', hu', hv', hjoin',
          rfl⟩, rfl, hst₅.notedExpr _ u⟩
      | matchOn n subject clauses =>
        obtain ⟨v, branches, s₁, s₂, s₃, s₄, hv, hsubject, hbranches, hjoin, rfl⟩ :=
          infer_matchOn_ok_iff.1 hrun
        obtain ⟨_, t₁, hv', rfl, hst₁⟩ := hchild subject (.head _) env hst hv
        obtain ⟨_, t₂, hsubject', -, hst₂⟩ := checkSubject_tracks false subject v hst₁ hsubject
        obtain ⟨_, t₃, hbranches', rfl, hst₃⟩ := inferClauses_tracks hΓ v hwritten
          (fun e he => hchild e (.tail _ he)) env hst₂ hbranches
        obtain ⟨t₄, hjoin', hst₄⟩ := hjoin.twin hst₃
        exact ⟨_, _, infer_matchOn_ok_iff.2 ⟨_, _, t₁, t₂, t₃, t₄, hv', hsubject', hbranches', hjoin',
          rfl⟩, rfl, hst₄.notedExpr _ u⟩

end Inference

end TensorTyping
