import TensorTyping.Proofs.Inference.Entailment
import TensorTyping.Proofs.Inference.Visits
import TensorTyping.Proofs.Unify.MostGeneral

/-!
# Typing an expression is sound

When an expression has been typed, the types that are noted obey the typing rules at every node,
whatever the cells that are left turn out to be. How each node was typed is known from its visit.
What is left to see is that types which agree in the end also do so with types put in for cells.
-/
namespace TensorTyping

open List

variable {sig : Signature}

theorem Ty.cellOccurrences_ofEntries {shape : List DimEntry} {dtype : String} {t : Ty}
    (h : Ty.ofEntries shape dtype = .ok t) : t.cellOccurrences = [] := by
  unfold Ty.ofEntries at h
  split at h
  · cases h
    rfl
  · cases h

/-- The types of a signature satisfy a condition in every part and hold no cells. -/
structure Signature.Fit (q : Ty → Prop) (sig : Signature) : Prop where
  args : ∀ a ∈ sig.args, Ty.Everywhere q a ∧ a.cellOccurrences = []
  ret : Ty.Everywhere q sig.ret ∧ sig.ret.cellOccurrences = []
  toTy : sig.params = [] → Ty.Everywhere q sig.toTy

theorem Signature.HasInstance.mapCells {q : Ty → Prop} (hsig : sig.Fit q) {ts : List Ty} {t : Ty}
    (h : sig.HasInstance ts t) (f : Cell → Ty) :
    sig.HasInstance (ts.map (Ty.mapCells f)) (t.mapCells f) := by
  obtain ⟨hlen, rels, rfl⟩ := h
  refine ⟨by rw [length_map, hlen],
    rels.map fun rel => { rel with args := rel.args.map (Ty.mapCells f) }, ?_⟩
  rw [Ty.mapCells_func, Substitution.mapCells_apply f _ _ hsig.ret.2, map_map]
  congr 1
  exact map_congr_left fun a ha => Substitution.mapCells_apply f _ _ (hsig.args a ha).2

namespace Inference

variable {attrs : Attrs} {fn : Ty}

def Same (q : Ty → Prop) (t u : Ty) : Prop :=
  t.agree u = true ∧ Ty.Everywhere q t ∧ Ty.Everywhere q u

theorem Same.refl {q : Ty → Prop} {t : Ty} (ht : Ty.Everywhere q t) : Same q t t :=
  ⟨t.agree_self, ht, ht⟩

theorem Same.symm {q : Ty → Prop} {t u : Ty} (h : Same q t u) : Same q u t :=
  ⟨by rw [Ty.agree_comm]; exact h.1, h.2.2, h.2.1⟩

/-- The function has the signature: it declares it, or it has been typed and given it. -/
def HasSignature (Γ : Context) (s : State) (g : Global) (sig : Signature) : Prop :=
  Γ.module.functions.contains g = true ∧
    (Γ.declared? g = some sig ∨ s.schemes.get? g = some sig)

/-- The relation of a projection that waits for its tuple. -/
def projection (index : Index) (t u : Ty) : TypeRelation :=
  ⟨"TupleGetItem", [t, u], 1, .ofList [("index", index.toValue)]⟩

/-- What is noted in the end of an expression that has been typed, with types put in for cells. A
projection out of a type that was not known waits as an instance that was added on the way. -/
def Whole.reading (W : Whole) (Γ : Context) (q : Ty → Prop) (f : Cell → Ty) : Annotation where
  type n := (W.final.note? n).map (Ty.mapCells f)
  typeArgs n := (W.final.callArgs.get? n).map (List.map (Ty.mapCells f))
  uses g ts t :=
    (∃ u, W.ended.provisional.get? g = some u ∧ ts = [] ∧ t = u.mapCells f) ∨
      ∃ sig, HasSignature Γ W.ended g sig ∧ sig.HasInstance ts t
  agree := Same q
  projects index t u :=
    (∃ ts, t = .tuple ts ∧ 0 ≤ index.toInt ∧ ts[index.toInt.toNat]? = some u) ∨
      ∃ i ∈ W.ended.engine.waiting, ∃ a b, W.begun.engine.added < i.seq ∧
        i.relation = projection index a b ∧ i.attrs = i.relation.attrs.merge .empty ∧
        t = a.mapCells f ∧ u = b.mapCells f ∧ Ty.Everywhere q t ∧ Ty.Everywhere q u

/-- The signatures that can be referred to satisfy a condition, and functions that are being typed
have cells as their types. -/
structure Context.Fit (q : Ty → Prop) (Γ : Context) (s : State) : Prop where
  declared : ∀ {g sig}, Γ.declared? g = some sig → sig.Fit q
  operators : ∀ {name sig}, Γ.operators.table.get? name = some sig → sig.Fit q
  schemes : ∀ {g sig}, s.schemes.get? g = some sig → sig.Fit q
  provisional : ∀ {g t}, s.provisional.get? g = some t → t.isCell = true

/-- The type of a constant satisfies a condition, and that of a function does if the types of its
parameters and of its result do. This asks nothing of other expressions. -/
def Builds (q : Ty → Prop) : Expr → Prop
  | .constant _ c => ∀ t, Ty.ofEntries c.shape c.dtype = .ok t → Ty.Everywhere q t
  | .fn _ _ _ _ typeParams relations => ∀ as r, (∀ a ∈ as, Ty.Everywhere q a) →
      Ty.Everywhere q r → Ty.Everywhere q (.func as r typeParams relations)
  | _ => True

/-- The types written in an expression satisfy a condition and hold no cells, and the condition
passes to the types of the constants and functions inside it. -/
structure Neat (q : Ty → Prop) (e : Expr) : Prop where
  written : ∀ d ∈ e.parts, ∀ t ∈ d.written, Ty.Everywhere q t ∧ t.cellOccurrences = []
  builds : ∀ c ∈ e.children, ∀ d ∈ c.parts, Builds q d

namespace Neat

variable {q : Ty → Prop} {e c : Expr}

theorem child (h : Neat q e) (hc : c ∈ e.children) : Neat q c where
  written d hd := h.written d (Expr.parts_of_child hc hd)
  builds _ hb d hd := h.builds c hc d (Expr.parts_of_child hb hd)

theorem builds_child (h : Neat q e) (hc : c ∈ e.children) : Builds q c :=
  h.builds c hc c c.self_mem_parts

theorem self (h : Neat q e) {t : Ty} (ht : t ∈ e.written) :
    Ty.Everywhere q t ∧ t.cellOccurrences = [] :=
  h.written e e.self_mem_parts t ht

end Neat

/-- Types are put in for the cells that are left when a closed expression has been typed. They
respect what is known, and satisfy a condition in every part. -/
structure Reader (q : Ty → Prop) (W : Whole) (f : Cell → Ty) : Prop where
  shallow : Ty.Shallow q
  nodup : W.own.Nodup
  closed : W.env = []
  models : W.final.engine.store.Models f
  good : ∀ c, Ty.Everywhere q (f c)

section

variable {Γ : Context} {q : Ty → Prop} {W : Whole} {f : Cell → Ty} {env : Env} {e c : Expr}
  {t u : Ty} {s s' : State} {n : Serial} {ts : List Ty}
variable {site : Phrase} {explicit : Option (List Ty)}

theorem Whole.reading_type (h : W.final.note? n = some t) :
    (W.reading Γ q f).type n = some (t.mapCells f) := by
  simp [Whole.reading, h]

theorem Ty.isCell_everywhere (hq : Ty.Shallow q) (h : t.isCell = true) : Ty.Everywhere q t := by
  obtain ⟨c, rfl⟩ := Ty.isCell_iff.1 h
  exact .cell hq c

theorem isShared_of_not_reference (h : e.isReference = false) : e.isShared = false := by
  cases e <;> first | rfl | cases h

/-- A cell that a type was found to stand for comes to stand for what it is unified with. -/
theorem unify_found_cell {c : Cell} {s₁ s₂ : State} (hs : s.engine.Valid)
    (hfind : find fn s = .ok (.cell c) s₁) (hfresh : fresh s₁ = .ok t s₂)
    (hunify : unify (.cell c) u site s₂ = .ok () s') :
    s'.engine.store.resolve (.cell c) = s'.engine.store.resolve u := by
  have hlooks := find_looks hs.store hfind
  have htop := find_eq_ok hs.store hfind
  have hs₁ := hlooks.valid hs
  have hcell : (s₂.engine.store.resolve (.cell c)).isCell = true := by
    have hvalue : s₂.engine.store.value c = s₁.engine.store.value c := by
      rw [(fresh_eq_ok hfresh).2]
      exact hs₁.store.value_fresh c
    rw [s₂.engine.store.resolve_eq, Ty.mapCells_cell, hvalue, hlooks.kept.view.value_eq]
    rw [Store.value, htop, hs.store.resolve_top, ← hs.store.isCell_top, ← htop]
    rfl
  exact StoreM.unify_of_cell ((fresh_works.worked hfresh).valid hs₁).store hcell
    (EngineM.onStore_eq_ok (onEngine_eq_ok hunify).1)

theorem instantiate_instance (hq : Ty.Shallow q) (hsig : sig.Fit q)
    (hexplicit : ∀ t ∈ explicit.getD [], Ty.Everywhere q t) {r : Ty × List Ty}
    (h : instantiate Γ sig explicit site attrs s = .ok r s') :
    Ty.Everywhere q r.1 ∧ sig.HasInstance r.2 r.1 := by
  have key {choose : InferM (List Ty)} (hrun : InstanceRun Γ sig choose site attrs s r s')
      (hchoose : ∀ s₁, choose s = .ok r.2 s₁ →
        r.2.length = sig.params.length ∧ ∀ t ∈ r.2, Ty.Everywhere q t) :
      Ty.Everywhere q r.1 ∧ sig.HasInstance r.2 r.1 := by
    unfold InstanceRun at hrun
    split at hrun
    · next hp =>
      obtain ⟨rfl, -⟩ := hrun
      have hp := isEmpty_iff.1 hp
      refine ⟨hsig.toTy hp, by simp [hp], sig.relations, ?_⟩
      have hid : (Substitution.ofParams sig.params []).apply = id :=
        funext (Substitution.apply_ofParams_nil _)
      rw [hid, map_id, id, Signature.toTy, hp]
    · obtain ⟨s₁, hts, -, hr⟩ := hrun
      obtain ⟨hlen, hts⟩ := hchoose s₁ hts
      rw [hr]
      refine ⟨.func hq (fun t ht => ?_) (Substitution.apply_everywhere hq hts hsig.ret.1), hlen, [],
        rfl⟩
      obtain ⟨a, ha, rfl⟩ := mem_map.1 ht
      exact Substitution.apply_everywhere hq hts (hsig.args a ha).1
  cases explicit with
  | none =>
    refine key (instantiate_none_ok_iff.1 h) fun s₁ hts => ?_
    obtain ⟨hlen, hcells⟩ := freshFor_eq_ok hts
    exact ⟨hlen, fun t ht => Ty.isCell_everywhere hq (hcells t ht)⟩
  | some ts =>
    obtain ⟨hlen, -, hrun⟩ := instantiate_some_ok_iff.1 h
    refine key hrun fun s₁ hts => ?_
    rw [(pure_ok_iff.1 hts).1]
    exact ⟨hlen, hexplicit⟩

theorem ctorSignature_fit (hq : Ty.Shallow q) {c : Ctor} (d : DataType)
    (hc : ∀ t ∈ c.inputs, Ty.Everywhere q t ∧ t.cellOccurrences = []) :
    (d.ctorSignature c).Fit q where
  args := hc
  ret := by
    constructor
    · refine .data hq _ fun t ht => ?_
      obtain ⟨p, -, rfl⟩ := mem_map.1 ht
      exact .param hq p
    · rw [eq_nil_iff_forall_not_mem]
      intro x hx
      rcases Ty.mem_cellOccurrences.1 hx with h | ⟨u, hu, hx⟩
      · cases h
      · obtain ⟨p, -, rfl⟩ := mem_map.1 hu
        exact absurd hx not_mem_nil
  toTy hp := by
    have hself : d.selfType = .data d.handle (d.params.map .param) := rfl
    simp only [DataType.ctorSignature] at hp
    simp only [DataType.ctorSignature, Signature.toTy, hself, hp]
    exact .func hq (fun t ht => (hc t ht).1) (.data hq _ (by simp))

namespace Reader

variable (R : Reader q W f)

include R

theorem secluded : W.Secluded refuse fun _ => False := ⟨refuse_within _, fun _ _ => id, R.nodup⟩

theorem same (h : W.final.engine.store.Agrees (t, u)) (ht : Ty.Everywhere q t)
    (hu : Ty.Everywhere q u) : Same q (t.mapCells f) (u.mapCells f) := by
  refine ⟨?_, ht.mapCells R.shallow R.good, hu.mapCells R.shallow R.good⟩
  rw [← R.models.resolve t, ← R.models.resolve u]
  exact Ty.agree_mapCells f h

theorem grows (h : Visit Γ refuse W e env s t s') : Grows s W.ended :=
  Changes.grows_of_refuse ((h.touches R.secluded).changes.trans h.onward) h.valid

theorem refers (hgrows : Grows s W.ended) (hΓ : Γ.Fit q W.ended)
    (hwritten : ∀ t ∈ e.written, Ty.Everywhere q t ∧ t.cellOccurrences = [])
    (hexplicit : ∀ t ∈ explicit.getD [], Ty.Everywhere q t)
    (h : ReferenceRun Γ refuse e explicit site attrs s (t, ts) s') :
    Ty.Everywhere q t ∧
      (W.reading Γ q f).Refers Γ e (ts.map (Ty.mapCells f)) (t.mapCells f) := by
  obtain ⟨-, ⟨hprovisional, -, hts, -⟩ | ⟨sig, s₁, hsig, hinst⟩⟩ := h
  · cases e with
    | global g =>
      have ht : W.ended.provisional.get? g = some t := by
        rw [hgrows.provisional_eq]
        exact hprovisional
      obtain rfl : ts = [] := hts
      exact ⟨Ty.isCell_everywhere R.shallow (hΓ.provisional ht), .inl ⟨t, ht, rfl, rfl⟩⟩
    | _ => exact hprovisional.elim
  · have hfit : sig.Fit q ∧
        ∀ us v, sig.HasInstance us v → (W.reading Γ q f).Refers Γ e us v := by
      cases e with
      | global g =>
        obtain ⟨hf, ⟨-, hd, -⟩ | ⟨-, ⟨-, hsolve⟩ | ⟨-, rfl⟩, hd⟩⟩ := signatureOf_ok_iff.1 hsig.2
        · exact ⟨hΓ.declared hd, fun us v hv => .inr ⟨sig, ⟨hf, .inl hd⟩, hv⟩⟩
        · cases hsolve
        · rw [← hgrows.schemes_eq] at hd
          exact ⟨hΓ.schemes hd, fun us v hv => .inr ⟨sig, ⟨hf, .inr hd⟩, hv⟩⟩
      | op n name => exact ⟨hΓ.operators hsig.1, fun us v hv => ⟨sig, hsig.1, hv⟩⟩
      | ctor c =>
        obtain ⟨⟨d, hd, rfl⟩, -⟩ := hsig
        exact ⟨ctorSignature_fit R.shallow d hwritten, fun us v hv => ⟨d, hd, hv⟩⟩
      | _ => exact hsig.elim
    obtain ⟨hgood, hinst⟩ := instantiate_instance R.shallow hfit.1 hexplicit hinst
    exact ⟨hgood, hfit.2 _ _ (hinst.mapCells hfit.1 f)⟩

end Reader
end

mutual
theorem checkPattern_fits {Γ : Context} {q : Ty → Prop} {W : Whole} {f : Cell → Ty}
    (R : Reader q W f) {p : Pattern} {t : Ty} {bound : Env} {s s' : State} (hs : s.engine.Valid)
    (hp : p.inner.Nodup) (ht : Ty.Everywhere q t)
    (hwritten : ∀ u ∈ p.written, Ty.Everywhere q u ∧ u.cellOccurrences = [])
    (h : checkPattern Γ p t s = .ok bound s')
    (hevolves : s'.engine.store.Evolves W.final.engine.store)
    (hkept : ∀ n ∈ p.inner, ∀ v, s'.note? n = some v → W.final.note? n = some v)
    (hnote : W.final.note? p.serial = some t) :
    (W.reading Γ q f).Fits Γ p (t.mapCells f) ∧ ∀ b ∈ bound, Ty.Everywhere q b.2 := by
  match p with
  | .wildcard n =>
    obtain ⟨rfl, -⟩ := checkPattern_wildcard_ok_iff.1 h
    unfold Annotation.Fits
    exact ⟨W.reading_type hnote, forall_mem_nil _⟩
  | .var n x =>
    obtain ⟨s₁, hasc, rfl, rfl⟩ := checkPattern_var_ok_iff.1 h
    unfold Annotation.Fits
    refine ⟨⟨W.reading_type hnote, W.reading_type (hkept _ (.head _) _ (note?_noted_self ..)),
      fun a ha => ?_⟩, by simpa using ht⟩
    obtain ⟨hqa, hclosed⟩ := hwritten a (by simp [ha])
    have hsame := R.same (hasc.agrees hs hevolves ha) hqa ht
    rwa [Ty.mapCells_closed hclosed] at hsame
  | .ctor n c subs =>
    obtain ⟨d, ts, s₁, s₂, hd, hts, hunify, harity, hsubs⟩ := checkPattern_ctor_ok_iff.1 h
    obtain ⟨hlen, hcells⟩ := freshFor_eq_ok hts
    have hgood : ∀ u ∈ ts, Ty.Everywhere q u := fun u hu =>
      Ty.isCell_everywhere R.shallow (hcells u hu)
    have hs₁ := ((freshFor_works _).worked hts).valid hs
    have hs₂ := ((unify_works _ _ _).worked hunify).valid hs₁
    have hinputs : ∀ u ∈ c.inputs, Ty.Everywhere q u ∧ u.cellOccurrences = [] := fun u hu =>
      hwritten u (by simp [hu])
    have hlen' : subs.length = (c.inputs.map (Substitution.ofParams d.params ts).apply).length := by
      simpa [Ctor.arity] using harity
    have h₂ : Spares (fun _ => True) [] s₂ s' :=
      checkPatterns_spares hs₂ (fun _ _ => trivial) hlen' hsubs
    obtain ⟨hfits, hbound⟩ := checkPatterns_fits R hs₂ hp hlen' (fun u hu => by
      obtain ⟨a, ha, rfl⟩ := mem_map.1 hu
      exact Substitution.apply_everywhere R.shallow hgood (hinputs a ha).1)
      (fun u hu => hwritten u (by simp [hu])) hsubs hevolves hkept
    unfold Annotation.Fits
    refine ⟨⟨W.reading_type hnote, d, ts.map (Ty.mapCells f), hd, ?_, ?_, ?_⟩, hbound⟩
    · rw [length_map, hlen]
    · have hsame := R.same (unify_agrees hs₁ hunify (h₂.evolves.trans hevolves)) ht
        (.data R.shallow _ hgood)
      rwa [Ty.mapCells_data] at hsame
    · have hmap : c.inputs.map (Substitution.ofParams d.params (ts.map (Ty.mapCells f))).apply =
          (c.inputs.map (Substitution.ofParams d.params ts).apply).map (Ty.mapCells f) := by
        rw [map_map]
        exact map_congr_left fun a ha =>
          (Substitution.mapCells_apply f _ _ (hinputs a ha).2).symm
      rw [hmap]
      exact hfits
theorem checkPatterns_fits {Γ : Context} {q : Ty → Prop} {W : Whole} {f : Cell → Ty}
    (R : Reader q W f) {ps : List Pattern} {ts : List Ty} {bound : Env} {s s' : State}
    (hs : s.engine.Valid) (hps : (Pattern.serialsList ps).Nodup) (hlen : ps.length = ts.length)
    (hts : ∀ t ∈ ts, Ty.Everywhere q t)
    (hwritten : ∀ u ∈ Pattern.writtenList ps, Ty.Everywhere q u ∧ u.cellOccurrences = [])
    (h : checkPatterns Γ ps ts s = .ok bound s')
    (hevolves : s'.engine.store.Evolves W.final.engine.store)
    (hkept : ∀ n ∈ Pattern.serialsList ps, ∀ v, s'.note? n = some v → W.final.note? n = some v) :
    (W.reading Γ q f).FitAll Γ ps (ts.map (Ty.mapCells f)) ∧ ∀ b ∈ bound, Ty.Everywhere q b.2 := by
  match ps, ts with
  | [], [] =>
    obtain ⟨rfl, -⟩ := (checkPatterns_nil_ok_iff (.inl rfl)).1 h
    unfold Annotation.FitAll
    exact ⟨trivial, forall_mem_nil _⟩
  | p :: ps, t :: ts =>
    have hlen : ps.length = ts.length := by simpa using hlen
    rw [forall_mem_cons] at hts
    simp only [Pattern.writtenList, forall_mem_append] at hwritten
    obtain ⟨first, more, s₁, hp, hmore, rfl⟩ := checkPatterns_cons_ok_iff.1 h
    obtain ⟨hp', hps', -⟩ := nodup_append.1 hps
    obtain ⟨hs₂, hkeeps, hown⟩ := checkPatterns_keeps hs hps hlen hp hmore
    have h₂ : Spares (fun _ => True) [] (s₁.noted p.serial (.pattern p) t) s' :=
      checkPatterns_spares hs₂ (fun _ _ => trivial) hlen hmore
    have hinner (n : Serial) (hn : n ∈ p.inner) : n ∈ Pattern.serialsList (p :: ps) :=
      mem_append_left _ hn
    obtain ⟨hfits, hfirst⟩ := checkPattern_fits R hs hp' hts.1 hwritten.1 hp
      (Store.Evolves.trans h₂.evolves hevolves)
      (fun n hn v hv => hkept n (hinner n hn) v ((hkeeps n hn).trans hv))
      (hkept _ (mem_append_right _ (.head _)) t hown)
    obtain ⟨hrest, hlast⟩ := checkPatterns_fits R hs₂ (nodup_cons.1 hps').2 hlen hts.2
      hwritten.2 hmore hevolves fun n hn v hv =>
        hkept n (mem_append_right _ (.tail _ hn)) v hv
    unfold Annotation.FitAll
    exact ⟨⟨hfits, hrest⟩, forall_mem_append.2 ⟨hlast, hfirst⟩⟩
end

/-- The type that has been found for an expression is good, the expression has it in the end, and
its parts obey the rules. -/
structure Sound (Γ : Context) (q : Ty → Prop) (W : Whole) (f : Cell → Ty) (e : Expr) (t : Ty) :
    Prop where
  good : Builds q e → Ty.Everywhere q t
  type : (W.reading Γ q f).HasType Γ e (t.mapCells f)
  parts : ∀ d ∈ e.parts, (W.reading Γ q f).Obeys Γ d

/-- Typing the expression is sound, wherever it stands in the whole. -/
def InfersSoundly (Γ : Context) (q : Ty → Prop) (W : Whole) (f : Cell → Ty) (e : Expr) : Prop :=
  ∀ ⦃env s t s'⦄, Visit Γ refuse W e env s t s' → (∀ b ∈ env, Ty.Everywhere q b.2) →
    Sound Γ q W f e t

namespace Reader

variable {Γ : Context} {q : Ty → Prop} {W : Whole} {f : Cell → Ty} {env : Env} {e c : Expr}
  {t u : Ty} {s s' : State} {n : Serial} {ts : List Ty}
variable (R : Reader q W f)
variable {body : Expr} {args : List Expr}

include R

theorem sound (h : Visit Γ refuse W e env s t s') (hshared : e.isShared = false)
    (hgood : Builds q e → Ty.Everywhere q t)
    (hrule : (W.reading Γ q f).type e.serial = some (t.mapCells f) → (W.reading Γ q f).Obeys Γ e)
    (hparts : ∀ c ∈ e.children, ∀ d ∈ c.parts, (W.reading Γ q f).Obeys Γ d) :
    Sound Γ q W f e t := by
  have htype : (W.reading Γ q f).type e.serial = some (t.mapCells f) :=
    W.reading_type (h.type R.closed hshared).2
  refine ⟨hgood, ?_, fun d hd => ?_⟩
  · rw [ Annotation.HasType, hshared]
    exact htype
  · rcases Expr.mem_parts_iff.1 hd with rfl | ⟨c, hc, hd⟩
    · exact hrule htype
    · exact hparts c hc d hd

theorem sound_var (x : Var) : InfersSoundly Γ q W f (.var x) := fun _ _ _ _ h henv =>
  R.sound h rfl (fun _ => henv _ (mem_of_lookup (infer_var_ok_iff.1 h.run).1))
    (fun htype => ⟨_, htype⟩) fun _ hc => absurd hc not_mem_nil

theorem sound_constant (n : Serial) (c : Constant) : InfersSoundly Γ q W f (.constant n c) := by
  intro env s t s' h _
  obtain ⟨ht, -⟩ := infer_constant_ok_iff.1 h.run
  have hclosed : t.mapCells f = t := Ty.mapCells_closed (Ty.cellOccurrences_ofEntries ht) f
  refine R.sound h rfl (fun hbuilds => hbuilds t ht) (fun htype => ⟨t, ht, ?_⟩) fun c hc =>
    absurd hc not_mem_nil
  rwa [hclosed] at htype

theorem sound_reference (hΓ : Γ.Fit q W.ended) (hneat : Neat q e) (href : e.isReference = true) :
    InfersSoundly Γ q W f e := by
  intro env s t s' h _
  obtain ⟨ts, s₁, hrun, -⟩ := (infer_reference_ok_iff href).1 h.run
  obtain ⟨hno, -⟩ | ⟨-, r, hr, hrun⟩ := reference_ok_iff.1 hrun
  · rw [href] at hno
    cases hno
  cases hr
  obtain ⟨hgood, hrefers⟩ := R.refers (R.grows h) hΓ (fun t ht => hneat.self ht) (by simp) hrun
  cases e with
  | global | ctor =>
    refine ⟨fun _ => hgood, ⟨_, hrefers⟩, fun d hd => ?_⟩
    obtain rfl := mem_singleton.1 hd
    trivial
  | op n name =>
    exact R.sound h rfl (fun _ => hgood) (fun htype => ⟨_, _, hrefers, htype⟩) fun c hc =>
      absurd hc not_mem_nil
  | _ => cases href

omit R in
theorem sound_list {es : List Expr} (henv : ∀ b ∈ env, Ty.Everywhere q b.2)
    (ih : ∀ c ∈ es, Builds q c ∧ InfersSoundly Γ q W f c)
    (h : List.Forall₂ (fun c u => ∃ s₁ s₂, Visit Γ refuse W c env s₁ u s₂) es ts) :
    (∀ t ∈ ts, Ty.Everywhere q t) ∧
      List.Forall₂ ((W.reading Γ q f).HasType Γ) es (ts.map (Ty.mapCells f)) ∧
      ∀ c ∈ es, ∀ d ∈ c.parts, (W.reading Γ q f).Obeys Γ d := by
  induction h with
  | nil => simp
  | cons hc _ ih' =>
    obtain ⟨s₁, s₂, hc⟩ := hc
    rw [forall_mem_cons] at ih
    have hsound := ih.1.2 hc henv
    obtain ⟨hgood, htypes, hparts⟩ := ih' ih.2
    exact ⟨forall_mem_cons.2 ⟨hsound.good ih.1.1, hgood⟩, .cons hsound.type htypes,
      forall_mem_cons.2 ⟨hsound.parts, hparts⟩⟩

theorem sound_tuple {fields : List Expr}
    (ih : ∀ c ∈ fields, Builds q c ∧ InfersSoundly Γ q W f c) :
    InfersSoundly Γ q W f (.tuple n fields) := by
  intro env s t s' h henv
  obtain ⟨ts, hfields, rfl⟩ := h.tuple R.secluded
  obtain ⟨hgood, htypes, hparts⟩ := sound_list henv ih hfields
  refine R.sound h rfl (fun _ => .tuple R.shallow hgood) (fun htype => ⟨_, htypes, ?_⟩) hparts
  rwa [Ty.mapCells_tuple] at htype

theorem sound_cond {test whenTrue whenFalse : Expr}
    (ih : ∀ c ∈ [test, whenTrue, whenFalse], Builds q c ∧ InfersSoundly Γ q W f c) :
    InfersSoundly Γ q W f (.cond n test whenTrue whenFalse) := by
  intro env s t s' h henv
  simp only [forall_mem_cons, not_mem_nil, false_imp_iff, implies_true, and_true] at ih
  obtain ⟨⟨hbc, hc⟩, ⟨hbt, ht⟩, hbu, hu⟩ := ih
  obtain ⟨b, u, s₁, s₂, s₃, s₄, htest, htrue, hfalse, hbool, hagree⟩ := h.cond R.secluded
  have hc := hc htest henv
  have ht := ht htrue henv
  have hu := hu hfalse henv
  refine R.sound h rfl (fun _ => ht.good hbt) (fun htype => ?_) ?_
  · refine ⟨_, _, _, hc.type, ht.type, hu.type, ?_, R.same hagree (ht.good hbt) (hu.good hbu), htype⟩
    exact R.same hbool (.scalar R.shallow _) (hc.good hbc)
  · simp only [Expr.children, forall_mem_cons, not_mem_nil, false_imp_iff, implies_true,
      and_true]
    exact ⟨hc.parts, ht.parts, hu.parts⟩

theorem sound_letIn {x : Var} {value : Expr} (hneat : Neat q (.letIn n x value body))
    (hvalue : InfersSoundly Γ q W f value) (hbody : InfersSoundly Γ q W f body) :
    InfersSoundly Γ q W f (.letIn n x value body) := by
  intro env s t s' h henv
  have hbv : Builds q value := hneat.builds_child (by simp)
  have hbb : Builds q body := hneat.builds_child (by simp)
  obtain ⟨u, v, env', s₁, s₂, s₃, s₄, hv, hb, hcase, hagree, hasc⟩ := h.letIn R.secluded
  obtain ⟨henv', hu, heq⟩ : (∀ b ∈ env', Ty.Everywhere q b.2) ∧
      (Sound Γ q W f value v → Ty.Everywhere q u) ∧ (value.function? = none → v = u) := by
    rcases hcase with ⟨-, rfl, rfl⟩ | ⟨hfn, rfl, hcell⟩
    · exact ⟨henv, fun hsound => hsound.good hbv, fun _ => rfl⟩
    · have hu := Ty.isCell_everywhere R.shallow hcell
      exact ⟨forall_mem_cons.2 ⟨hu, henv⟩, fun _ => hu, fun hnone => absurd hnone hfn⟩
  have hv := hvalue hv henv'
  have hu := hu hv
  have hx : W.final.note? x.serial = some u := by
    rcases hb.bound lookup_cons_self with hnil | hx
    · rw [R.closed] at hnil
      cases hnil
    · exact hx.2
  have hb := hbody hb (forall_mem_cons.2 ⟨hu, henv⟩)
  refine R.sound h rfl (fun _ => hb.good hbb) (fun htype => ?_) ?_
  · refine ⟨_, _, _, hv.type, W.reading_type hx, (R.same hagree hu (hv.good hbv)).symm,
      fun hnone => by rw [heq hnone], fun a ha => ?_, hb.type, htype⟩
    obtain ⟨hqa, hclosed⟩ := hneat.self (t := a) (by simp [ha])
    have hsame := R.same (hasc a ha) hqa hu
    rwa [Ty.mapCells_closed hclosed] at hsame
  · simp only [Expr.children, forall_mem_cons, not_mem_nil, false_imp_iff, implies_true,
      and_true]
    exact ⟨hv.parts, hb.parts⟩

theorem sound_fn {params : List Var} {ret : Option Ty} {typeParams : List TypeParam}
    {relations : List TypeRelation} (hneat : Neat q (.fn n params body ret typeParams relations))
    (hbody : InfersSoundly Γ q W f body) :
    InfersSoundly Γ q W f (.fn n params body ret typeParams relations) := by
  intro env s t s' h henv
  have hbb : Builds q body := hneat.builds_child (by simp)
  have hwritten : ∀ x ∈ params, ∀ a, x.ascription = some a →
      Ty.Everywhere q a ∧ a.cellOccurrences = [] := fun x hx a ha =>
    hneat.self (by
      simp only [Expr.written, mem_append, mem_filterMap]
      exact .inl (.inl ⟨x, hx, ha⟩))
  have hrelations :
      (relations.map fun r => { r with args := r.args.map (Ty.mapCells f) }) = relations := by
    refine (map_congr_left fun r hr => ?_).trans (map_id _)
    rw [Ty.map_mapCells_closed fun a ha => (hneat.self (t := a) (by
      simp only [Expr.written, mem_append, mem_flatMap]
      exact .inr ⟨r, hr, ha⟩)).2, id]
  obtain ⟨ts, b, s₁, s₂, hparams, hb, hret, rfl⟩ := h.fn R.secluded
  obtain ⟨hlen, hzip⟩ := forall₂_iff_zip.1 hparams
  have hts : ∀ t ∈ ts, Ty.Everywhere q t := by
    intro t ht
    obtain ⟨x, hx, -, hasc | ⟨-, hcell⟩⟩ := exists_of_mem_forall₂ hparams.flip ht
    · exact (hwritten x hx t hasc).1
    · exact Ty.isCell_everywhere R.shallow hcell
  have hb := hbody hb fun b hb => by
    rcases mem_append.1 hb with hb | hb
    · obtain ⟨⟨x, t⟩, hx, rfl⟩ := mem_map.1 (mem_reverse.1 hb)
      exact hts t (of_mem_zip hx).2
    · exact henv b hb
  have hr : Ty.Everywhere q (ret.getD b) ∧
      (ret.getD b).mapCells f = ret.getD (b.mapCells f) ∧
      Same q ((ret.getD b).mapCells f) (b.mapCells f) := by
    cases ret with
    | none => exact ⟨hb.good hbb, rfl, .refl ((hb.good hbb).mapCells R.shallow R.good)⟩
    | some r =>
      obtain ⟨hqr, hclosed⟩ := hneat.self (t := r) (by simp)
      exact ⟨hqr, Ty.mapCells_closed hclosed f, R.same (hret r rfl) hqr (hb.good hbb)⟩
  refine R.sound h rfl (fun hbuilds => hbuilds ts _ hts hr.1) (fun htype => ?_) ?_
  · rw [Ty.mapCells_func, hrelations] at htype
    refine ⟨_, _, _, ?_, hb.type, hr.2.1, hr.2.2, htype⟩
    rw [forall₂_map_right_iff, forall₂_iff_zip]
    refine ⟨hlen, fun {x t} hmem => ⟨W.reading_type (hzip hmem).1, fun a ha => ?_⟩⟩
    rcases (hzip hmem).2 with hasc | ⟨hnone, -⟩
    · obtain rfl : a = t := Option.some.inj (ha.symm.trans hasc)
      exact Ty.mapCells_closed (hwritten x (of_mem_zip hmem).1 a ha).2 f
    · rw [hnone] at ha
      cases ha
  · exact forall_mem_singleton.2 hb.parts

theorem sound_matchOn {subject : Expr} {clauses : List (Pattern × Expr)}
    (hneat : Neat q (.matchOn n subject clauses)) (hsubject : InfersSoundly Γ q W f subject)
    (ih : ∀ c ∈ clauses.map Prod.snd, InfersSoundly Γ q W f c) :
    InfersSoundly Γ q W f (.matchOn n subject clauses) := by
  intro env s t s' h henv
  obtain ⟨u, s₁, branches, hu, -, hclauses, hfirst, hagree⟩ := h.matchOn R.secluded
  have hu := hsubject hu henv
  have hqu := hu.good (hneat.builds_child (by simp))
  have hvisited : List.Forall₂ (fun c b => (W.reading Γ q f).Fits Γ c.1 (u.mapCells f) ∧
      Ty.Everywhere q b ∧ Sound Γ q W f c.2 b) clauses branches := by
    obtain ⟨hlen, hzip⟩ := forall₂_iff_zip.1 hclauses
    refine forall₂_iff_zip.2 ⟨hlen, fun {c b} hmem => ?_⟩
    obtain ⟨bound, s₂, s₃, s₄, hc⟩ := hzip hmem
    have hc' := (of_mem_zip hmem).1
    have hchild : c.2 ∈ (Expr.matchOn n subject clauses).children :=
      .tail _ (mem_map_of_mem hc')
    obtain ⟨hfits, hbound⟩ := checkPattern_fits (Γ := Γ) R hc.valid (R.nodup.sublist hc.sublist) hqu
      (fun v hv => hneat.self (mem_flatMap.2 ⟨c, hc', hv⟩)) hc.checked
      (hc.body.begins R.secluded) hc.kept hc.noted.2
    have hsound := ih c.2 (mem_map_of_mem hc') hc.body (forall_mem_append.2 ⟨hbound, henv⟩)
    exact ⟨hfits, hsound.good (hneat.builds_child hchild), hsound⟩
  have hbranches : ∀ b ∈ branches, Ty.Everywhere q b := by
    intro b hb
    obtain ⟨c, -, -, hgood, -⟩ := exists_of_mem_forall₂ hvisited.flip hb
    exact hgood
  have ht : Ty.Everywhere q t := by
    rcases hfirst with ⟨-, hcell⟩ | hhead
    · exact Ty.isCell_everywhere R.shallow hcell
    · exact hbranches t (mem_of_mem_head? hhead)
  refine R.sound h rfl (fun _ => ht) (fun htype => ?_) ?_
  · refine ⟨_, _, branches.map (Ty.mapCells f), hu.type, fun c hc => ?_, ?_, fun v hv => ?_,
      fun v hv => ?_, htype⟩
    · obtain ⟨b, -, hfits, -⟩ := exists_of_mem_forall₂ hvisited hc
      exact hfits
    · exact forall₂_map_right_iff.2 (hvisited.imp fun c b hc => hc.2.2.type)
    · rw [head?_map] at hv
      obtain ⟨b, hb, rfl⟩ := Option.map_eq_some_iff.1 hv
      rcases hfirst with ⟨rfl, -⟩ | hhead
      · cases hb
      · rw [Option.some.inj (hhead.symm.trans hb)]
    · obtain ⟨b, hb, rfl⟩ := mem_map.1 hv
      exact R.same (hagree b hb) ht (hbranches b hb)
  · refine forall_mem_cons.2 ⟨hu.parts, fun c hc => ?_⟩
    obtain ⟨clause, hclause, rfl⟩ := mem_map.1 hc
    obtain ⟨b, -, -, -, hsound⟩ := exists_of_mem_forall₂ hvisited hclause
    exact hsound.parts

/-- A projection out of a type that is known to be a tuple, or one that waits. -/
theorem sound_proj {index : Index} (hneat : Neat q (.proj n e index))
    (he : InfersSoundly Γ q W f e) : InfersSoundly Γ q W f (.proj n e index) := by
  intro env s t s' h henv
  obtain ⟨u, s₁, s₂, hvisit, hproject, hstate⟩ := h.proj R.secluded
  have hu := he hvisit henv
  have hqu := hu.good (hneat.builds_child (.head _))
  have hs₁ := (hvisit.touches R.secluded).valid
  obtain ⟨found, s₃, hfind, hindex, hrun⟩ := projectFrom_eq_ok hproject
  have hlooks := find_looks hs₁.store hfind
  have hfound : found.mapCells f = u.mapCells f := by
    rw [find_eq_ok hs₁.store hfind]
    exact (R.models.earlier hvisit.evolves.later).top hs₁.store u
  suffices hproj : Ty.Everywhere q t ∧
      (W.reading Γ q f).projects index (u.mapCells f) (t.mapCells f) from
    R.sound h rfl (fun _ => hproj.1) (fun htype => ⟨_, _, hu.type, hproj.2, htype⟩)
      (forall_mem_singleton.2 hu.parts)
  cases found with
  | tuple ts =>
    obtain ⟨ht, -⟩ := hrun
    rw [Ty.mapCells_tuple] at hfound
    refine ⟨?_, .inl ⟨_, hfound.symm, hindex, by rw [getElem?_map, ht, Option.map_some]⟩⟩
    have hgood := hqu.mapCells R.shallow R.good
    rw [← hfound] at hgood
    have hmem : t.mapCells f ∈ (Ty.tuple (ts.map (Ty.mapCells f))).children :=
      mem_map_of_mem (mem_of_getElem? ht)
    exact ((Ty.Everywhere.mapCells_iff R.shallow).1 (hgood.child hmem)).1
  | cell c =>
    obtain ⟨s₄, hfresh, hrelate⟩ := hrun
    have hqt : Ty.Everywhere q t :=
      Ty.isCell_everywhere R.shallow (by rw [(fresh_eq_ok hfresh).1]; rfl)
    have hs₃ := hlooks.valid hs₁
    have hadded : W.begun.engine.added < s₄.engine.added + 1 := by
      have h₁ := (hvisit.touches R.secluded).added_le
      have h₂ : Spares (fun _ => True) [] s₃ s₄ := .of_worked (fresh_works.worked hfresh) hs₃
      have h₃ := h₂.added_le
      have h₄ := hvisit.since
      rw [hlooks.added_eq] at h₃
      omega
    obtain ⟨new, hnew⟩ := (Changes.grows_of_refuse h.onward (h.touches R.secluded).valid).gains
    refine ⟨hqt, .inr ⟨⟨s₄.engine.added + 1, projection index u t, some (.expr (.proj n e index)),
      (projection index u t).attrs.merge .empty, false⟩, ?_, u, t, hadded, rfl, rfl, rfl, rfl,
      hqu.mapCells R.shallow R.good, hqt.mapCells R.shallow R.good⟩⟩
    rw [hnew.waiting_eq, ← hstate, relate_eq_ok hrelate, Engine.waiting_enlist]
    exact mem_append_left _ (mem_append_right _ (mem_singleton.2 rfl))
  | _ => exact hrun.elim

/-- What is applied has a function type without parameters, which takes arguments of these types. -/
theorem applied {site : Expr} {direct : Option (List Ty)} {given : List Ty} (hs : s.engine.Valid)
    (hfn : Ty.Everywhere q fn) (hts : ∀ t ∈ ts, Ty.Everywhere q t) (hlen : ts.length = args.length)
    (h : applyTo Γ site fn direct args ts attrs s = .ok (t, given) s')
    (hevolves : s'.engine.store.Evolves W.final.engine.store) :
    Ty.Everywhere q t ∧ given = direct.getD [] ∧ ∃ as relations,
      fn.mapCells f = .func as (t.mapCells f) [] relations ∧
      List.Forall₂ (Same q) as (ts.map (Ty.mapCells f)) := by
  obtain ⟨found, s₁, hfind, happly⟩ := applyTo_ok_iff.1 h
  have hs₁ := (find_looks hs.store hfind).valid hs
  have hmodels := R.models.earlier
    ((((applyTo_works _ _ _ _ _ _).worked h).evolves hs).trans hevolves).later
  have hfound : found.mapCells f = fn.mapCells f := by
    rw [find_eq_ok hs.store hfind]
    exact hmodels.top hs.store fn
  rw [← hfound]
  cases found with
  | cell c =>
    obtain ⟨hgiven, s₂, hfresh, hunify⟩ := happly
    dsimp only at hgiven hfresh hunify
    have hqt : Ty.Everywhere q t :=
      Ty.isCell_everywhere R.shallow (by rw [(fresh_eq_ok hfresh).1]; rfl)
    refine ⟨hqt, hgiven, ts.map (Ty.mapCells f), [], ?_, forall₂_same.2 fun u hu => ?_⟩
    · have hmodels' := R.models.earlier hevolves.later
      rw [← hmodels'.resolve, unify_found_cell hs hfind hfresh hunify, hmodels'.resolve,
        Ty.mapCells_func]
      rfl
    · obtain ⟨v, hv, rfl⟩ := mem_map.1 hu
      exact .refl ((hts v hv).mapCells R.shallow R.good)
  | func as r ps rs =>
    have hgood := hfn.mapCells R.shallow R.good
    rw [← hfound] at hgood
    have hgood := ((Ty.Everywhere.mapCells_iff R.shallow).1 hgood).1
    obtain rfl : ps = [] := R.shallow.binders hgood.top
    obtain ⟨as', ps', rs', s₂, ⟨hfalse, -⟩ | ⟨-, rfl, rfl, hgiven, rfl⟩, hlength, hunify⟩ := happly
    · cases hfalse
    refine ⟨hgood.child (by simp), hgiven, as'.map (Ty.mapCells f), _,
      Ty.mapCells_func .., ?_⟩
    rw [forall₂_map_left_iff, forall₂_map_right_iff, forall₂_iff_zip]
    refine ⟨hlength, fun {a u} hmem => ?_⟩
    obtain ⟨ha, hu⟩ := of_mem_zip hmem
    exact R.same ((forall₂_iff_zip.1 (unifyArgs_agree hs₁ hlength hlen hunify hevolves)).2 hmem)
      (hgood.child (by simp [ha])) (hts u hu)
  | _ => exact happly.elim

theorem sound_call {callee : Expr} {typeArgs : Option (List Ty)}
    (hΓ : callee.isReference = true → Γ.Fit q W.ended)
    (hneat : Neat q (.call n callee args typeArgs attrs))
    (hcallee : callee.isReference = false → InfersSoundly Γ q W f callee)
    (ih : ∀ c ∈ args, InfersSoundly Γ q W f c) :
    InfersSoundly Γ q W f (.call n callee args typeArgs attrs) := by
  intro env s t s' h henv
  have hbc : Builds q callee := hneat.builds_child (.head _)
  obtain ⟨fn, direct, ts, given, s₁, s₂, hc⟩ := h.call R.secluded
  obtain ⟨hts, htypes, hargs⟩ := sound_list henv
    (fun c hc => ⟨hneat.builds_child (.tail _ hc), ih c hc⟩) hc.argsTyped
  have hgiven : (W.reading Γ q f).typeArgs n = some (given.map (Ty.mapCells f)) := by
    simp [Whole.reading, hc.called]
  obtain ⟨hfn, hused, hparts⟩ : Ty.Everywhere q fn ∧
      (given = direct.getD [] → (W.reading Γ q f).HasCallee Γ n callee (fn.mapCells f)) ∧
      ∀ d ∈ callee.parts, (W.reading Γ q f).Obeys Γ d := by
    cases href : callee.isReference with
    | false =>
      obtain ⟨rfl, s₃, s₄, hvisit⟩ := hc.calleeTyped href
      have hsound := hcallee href hvisit henv
      refine ⟨hsound.good hbc, fun hnone => ?_, hsound.parts⟩
      rw [ Annotation.HasCallee, href]
      refine ⟨W.reading_type (hvisit.type R.closed (isShared_of_not_reference href)).2, ?_⟩
      rw [hgiven, hnone]
      rfl
    | true =>
      obtain ⟨us, s₃, hrun, rfl, hnoted⟩ := hc.referred href
      obtain ⟨hgood, hrefers⟩ := R.refers (R.grows h) (hΓ href)
        (fun t ht => (hneat.child (.head _)).self ht) (fun t ht => (hneat.self ht).1) hrun
      refine ⟨hgood, fun hdirect => ?_, fun d hd => ?_⟩
      · rw [ Annotation.HasCallee, href]
        refine ⟨fun hshared => W.reading_type (hnoted hshared).2, _, hgiven, ?_⟩
        rw [hdirect]
        exact hrefers
      · cases callee with
        | global | ctor =>
          obtain rfl := mem_singleton.1 hd
          trivial
        | op m name =>
          obtain rfl := mem_singleton.1 hd
          exact ⟨_, _, hrefers, W.reading_type (hnoted rfl).2⟩
        | _ => cases href
  obtain ⟨hqt, hdirect, as, relations, hfunc, hagree⟩ :=
    R.applied hc.valid hfn hts hc.argsTyped.length_eq.symm hc.applied hc.evolves
  refine R.sound h rfl (fun _ => hqt) (fun htype => ?_) (forall_mem_cons.2 ⟨hparts, hargs⟩)
  exact ⟨as, _, relations, _, hfunc ▸ hused hdirect, htypes, hagree, htype⟩

theorem infers_soundly (e : Expr) (hΓ : ∀ d ∈ e.parts, d.isReference = true → Γ.Fit q W.ended)
    (hneat : Neat q e) : InfersSoundly Γ q W f e := by
  induction e using Expr.induction_children with
  | step e ih =>
    have hchild (c : Expr) (hc : c ∈ e.children) : InfersSoundly Γ q W f c :=
      ih c hc (fun d hd => hΓ d (Expr.parts_of_child hc hd)) (hneat.child hc)
    have hall (c : Expr) (hc : c ∈ e.children) : Builds q c ∧ InfersSoundly Γ q W f c :=
      ⟨hneat.builds_child hc, hchild c hc⟩
    cases e with
    | var x => exact R.sound_var x
    | global | op | ctor => exact R.sound_reference (hΓ _ (Expr.self_mem_parts _) rfl) hneat rfl
    | constant n c => exact R.sound_constant n c
    | fn => exact R.sound_fn hneat (hchild _ (.head _))
    | call n callee args typeArgs attrs =>
      refine R.sound_call (fun href => hΓ callee ?_ href) hneat
        (fun _ => hchild _ (.head _)) fun c hc => hchild c (.tail _ hc)
      exact Expr.parts_of_child (.head _) callee.self_mem_parts
    | letIn n x value body =>
      exact R.sound_letIn hneat (hchild _ (.head _))
        (hchild _ (.tail _ (.head _)))
    | tuple => exact R.sound_tuple hall
    | proj => exact R.sound_proj hneat (hchild _ (.head _))
    | cond => exact R.sound_cond hall
    | matchOn n subject clauses =>
      exact R.sound_matchOn hneat (hchild _ (.head _)) fun c hc =>
        hchild c (.tail _ hc)

end Reader

end Inference

end TensorTyping
