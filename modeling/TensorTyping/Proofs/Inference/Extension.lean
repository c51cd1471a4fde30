import TensorTyping.Proofs.Inference.Coverage
import TensorTyping.Proofs.Inference.Definite
import TensorTyping.Proofs.Inference.GroupRenumbering

/-!
# Checking a module that has been extended

When definitions are added to a module that has been checked and the larger module is checked as
well, the groups of the smaller one are typed first, from a state that differs from the one before
in serial numbers only. What is typed after that touches no node and no signature of theirs. So what
the second check finds for the old definitions reads as what the first one found
(`check_extension_keeps_texts`).
-/
namespace TensorTyping

open List

/-! ## Operators declared anew -/

theorem Mint.forall₂_mapM {α β : Type} {R : β → β → Prop} {f : α → Mint β}
    (hf : ∀ a supply supply', R (f a supply).1 (f a supply').1) (as : List α)
    (supply supply' : Supply) : List.Forall₂ R (as.mapM f supply).1 (as.mapM f supply').1 := by
  induction as generalizing supply supply' with
  | nil => exact .nil
  | cons a as ih =>
    rw [mapM_cons]
    exact .cons (hf a supply supply') (ih (f a supply).2 (f a supply').2)

theorem lookup_of_forall₂ {α β κ : Type} [BEq κ] {R : α → β → Prop} {es : List (κ × α)}
    {es' : List (κ × β)} (h : List.Forall₂ (fun e e' => e'.1 = e.1 ∧ R e.2 e'.2) es es') {k : κ}
    {a : α} (ha : es.lookup k = some a) : ∃ b, es'.lookup k = some b ∧ R a b := by
  induction h with
  | nil => cases ha
  | cons hhead _ ih =>
    rw [lookup_cons] at ha ⊢
    rw [hhead.1]
    split at ha
    · cases ha
      exact ⟨_, rfl, hhead.2⟩
    · exact ih ha

namespace Operators

/-- The signature with a parameter for each input and one for the output, tied by a relation. -/
def tied (relation : String) (arity : Nat) (attrs : Attrs) (ps : List TypeParam)
    (output : TypeParam) : Signature where
  args := ps.map .param
  ret := .param output
  params := ps ++ [output]
  relations := [⟨relation, (ps ++ [output]).map .param, arity, attrs⟩]

theorem mint_params {α : Type} (name : α → String) (as : List α) (supply : Supply) :
    ∃ ps last, (as.mapM fun a => do return (⟨← Symbol.mint (name a), .type⟩ : TypeParam)) supply =
        (ps, ⟨last⟩) ∧ ps.length = as.length ∧ ps.Nodup ∧ supply.last ≤ last ∧
      ∀ p ∈ ps, supply.last < p.serial ∧ p.serial ≤ last ∧ p.kind = .type := by
  induction as generalizing supply with
  | nil => exact ⟨[], supply.last, rfl, rfl, .nil, le_rfl, by simp⟩
  | cons a as ih =>
    obtain ⟨ps, last, hrun, hlen, hnodup, hle, hps⟩ := ih ⟨supply.last + 1⟩
    have hfirst : supply.last + 1 ≤ last := hle
    refine ⟨⟨⟨supply.last + 1, name a⟩, .type⟩ :: ps, last, ?_, by simp [hlen],
      nodup_cons.2 ⟨fun hmem => ?_, hnodup⟩, Nat.le_of_succ_le hfirst, ?_⟩
    · rw [mapM_cons]
      exact congrArg (fun r : List TypeParam × Supply =>
        ((⟨⟨supply.last + 1, name a⟩, .type⟩ : TypeParam) :: r.1, r.2)) hrun
    · exact absurd (hps _ hmem).1 (Nat.lt_irrefl _)
    · rw [forall_mem_cons]
      refine ⟨⟨Nat.lt_succ_self _, hfirst, rfl⟩, fun p hp => ?_⟩
      obtain ⟨hlt, hle, hkind⟩ := hps p hp
      exact ⟨Nat.lt_of_succ_lt hlt, hle, hkind⟩

theorem related_eq (relation : String) (arity : Nat) (attrs : Attrs) (supply : Supply) :
    ∃ ps output, (related relation arity attrs supply).1 = tied relation arity attrs ps output ∧
      ps.length = arity ∧ (ps ++ [output]).Nodup ∧ ∀ p ∈ ps ++ [output], p.kind = .type := by
  obtain ⟨ps, last, hrun, hlen, hnodup, -, hps⟩ :=
    mint_params (fun i => variableName (i + 1)) (List.range arity) supply
  rw [length_range] at hlen
  refine ⟨ps, ⟨⟨last + 1, variableName (arity + 1)⟩, .type⟩, ?_, hlen, ?_, ?_⟩
  · exact congrArg (fun r : List TypeParam × Supply => tied relation arity attrs r.1
      ⟨⟨r.2.last + 1, variableName (arity + 1)⟩, .type⟩) hrun
  · rw [nodup_append]
    refine ⟨hnodup, by simp, fun p hp q hq => ?_⟩
    obtain rfl := mem_singleton.1 hq
    rintro rfl
    exact absurd (hps _ hp).2.1 (Nat.not_succ_le_self _)
  · intro p hp
    rcases mem_append.1 hp with hp | hp
    · exact (hps p hp).2.2
    · rw [mem_singleton.1 hp]

theorem tied_alike (relation : String) (arity : Nat) (attrs : Attrs) {ps ps' : List TypeParam}
    {output output' : TypeParam} (hlen : ps'.length = ps.length) (hps : (ps ++ [output]).Nodup)
    (hps' : (ps' ++ [output']).Nodup) (hkind : ∀ p ∈ ps ++ [output], p.kind = .type)
    (hkind' : ∀ p ∈ ps' ++ [output'], p.kind = .type) (ρ : Serial ↪ Serial) :
    (tied relation arity attrs ps output).Alike ρ (tied relation arity attrs ps' output') := by
  -- The parameters become the type arguments at their places, on either side.
  have hall {ts : List Ty} (hts : ts.length = (ps ++ [output]).length) :
      (ps' ++ [output']).map
          (Substitution.ofParams (ps' ++ [output']) (ts.map (Ty.renumber ρ))).onParam =
        ((ps ++ [output]).map (Substitution.ofParams (ps ++ [output]) ts).onParam).map
          (Ty.renumber ρ) := by
    rw [Substitution.map_onParam hps hts, Substitution.map_onParam hps']
    simp only [length_map, hts, length_append, hlen, length_singleton]
  have hsplit {ts : List Ty} (hts : ts.length = (ps ++ [output]).length) :
      ps'.map (Substitution.ofParams (ps' ++ [output']) (ts.map (Ty.renumber ρ))).onParam =
          (ps.map (Substitution.ofParams (ps ++ [output]) ts).onParam).map (Ty.renumber ρ) ∧
        (Substitution.ofParams (ps' ++ [output']) (ts.map (Ty.renumber ρ))).onParam output' =
          ((Substitution.ofParams (ps ++ [output]) ts).onParam output).renumber ρ := by
    have happend := hall hts
    simp only [map_append, map_singleton] at happend
    obtain ⟨hargs, hret⟩ := append_inj happend (by simp only [length_map, hlen])
    exact ⟨hargs, singleton_inj.1 hret⟩
  have happly (qs rs : List TypeParam) (ts : List Ty) :
      (qs.map Ty.param).map (Substitution.ofParams rs ts).apply =
        qs.map (Substitution.ofParams rs ts).onParam := map_map
  refine ⟨?_, fun h => by simp [tied] at h, fun hts => ?_, fun hts => (hsplit hts).2, fun hts => ?_⟩
  · simp only [tied]
    rw [map_congr_left hkind, map_congr_left hkind', map_const', map_const',
      length_append, length_append, hlen]
    rfl
  · simp only [tied, happly]
    exact (hsplit hts).1
  · simp only [tied, map_singleton, Substitution.applyRelation, TypeRelation.renumber, happly]
    rw [hall hts]

theorem standard_alike (supply supply' : Supply) (ρ : Serial ↪ Serial) {name : String}
    {sig : Signature} (h : (standard supply).1.table.get? name = some sig) :
    ∃ sig', (standard supply').1.table.get? name = some sig' ∧ sig.Alike ρ sig' := by
  let declare (f : Family) : Mint (List (String × Signature)) := f.names.mapM fun name => do
    return (name, ← related f.relation f.arity f.attrs)
  have hall : List.Forall₂ (List.Forall₂ fun e e' => e'.1 = e.1 ∧ e.2.Alike ρ e'.2)
      (families.mapM declare supply).1 (families.mapM declare supply').1 := by
    apply Mint.forall₂_mapM (f := declare)
    intro f supply supply'
    apply Mint.forall₂_mapM
    intro name supply supply'
    refine ⟨rfl, ?_⟩
    obtain ⟨ps, output, hsig, hlen, hps, hkind⟩ := related_eq f.relation f.arity f.attrs supply
    obtain ⟨ps', output', hsig', hlen', hps', hkind'⟩ :=
      related_eq f.relation f.arity f.attrs supply'
    have halike := tied_alike f.relation f.arity f.attrs (hlen'.trans hlen.symm) hps hps' hkind
      hkind' ρ
    rw [← hsig, ← hsig'] at halike
    exact halike
  exact lookup_of_forall₂ (rel_flatten hall) h

end Operators

namespace Module

/-- The serial numbers of what a module defines: of its functions with their nodes and variables,
and of the constructors it knows. -/
def serials (m : Module) : List Serial :=
  (m.functions.entries.flatMap fun x => x.1.serial :: x.2.toExpr.serials) ++ m.ctors.keys

/-- The parameters and cells written in a module have serial numbers up to `n`. -/
structure WrittenBy (m : Module) (n : Serial) : Prop where
  types : ∀ f ∈ m.functions.values, ∀ d ∈ f.toExpr.parts, ∀ t ∈ d.written, ∀ k ∈ t.serials, k ≤ n
  typeParams : ∀ f ∈ m.functions.values, ∀ d ∈ f.toExpr.parts, ∀ p ∈ d.typeParams, p.serial ≤ n
  dataTypes : ∀ d ∈ m.ctors.values, ∀ p ∈ d.params, p.serial ≤ n

end Module

namespace Inference

variable {ρ : Serial ↪ Serial} {Γ Γ' : Context} {ns : List Serial} {session' : Session}
  {m' : Module} {s s' : State} {e : Engine}

/-! ## The numbers of a later run -/

/-- Numbers up to `a` stay, and those above go up by `d`. -/
def shift (a d : Nat) : Nat ↪ Nat where
  toFun n := if n ≤ a then n else n + d
  inj' n k h := by
    dsimp only at h
    split at h <;> split at h <;> omega

theorem shift_of_le {a n : Nat} (h : n ≤ a) (d : Nat) : shift a d n = n := if_pos h

theorem shift_above {a b : Nat} (h : a ≤ b) (k : Nat) :
    shift a (b - a) (a + 1 + k) = b + 1 + k := by
  refine (if_neg (by omega)).trans ?_
  omega

theorem start_twins {session : Session} (h : session.supply.last ≤ session'.supply.last) :
    Twins (shift session.supply.last (session'.supply.last - session.supply.last)) (start session)
      (start session') where
  engine := by
    have hserial := shift_above h 0
    rw [Nat.add_zero, Nat.add_zero] at hserial
    simp [start, Mint.serial, Engine.renumber, Store.renumber, hserial]
  nodeTypes := rfl
  callArgs := rfl
  scope := rfl
  schemes := rfl
  provisional := rfl
  solving := rfl
  scrutinees := rfl
  supply k := shift_above h (k + 1)

theorem fixes_of_writtenBy {m : Module} {a : Serial} (h : m.WrittenBy a) {f : Function}
    (hf : f ∈ m.functions.values) (d : Serial) : Fixes (shift a d) f.toExpr where
  written e he t ht := Ty.renumber_eq_self fun n hn => shift_of_le (h.types f hf e he t ht n hn) d
  typeParams e he p hp := by
    rw [TypeParam.renumber, shift_of_le (h.typeParams f hf e he p hp) d]

/-- A module with more definitions has what can be referred to in the smaller one. -/
theorem widens_of_extends {a d : Serial} {supply supply' : Supply}
    (hmodule : Γ.module.Extends ns Γ'.module) (hnew : ∀ n ∈ ns, n ∉ Γ.module.serials)
    (hwritten : Γ.module.WrittenBy a) (hregistry : Γ'.registry = Γ.registry)
    (hoperators : Γ.operators = (Operators.standard supply).1)
    (hoperators' : Γ'.operators = (Operators.standard supply').1) : Widens (shift a d) Γ Γ' where
  registry := hregistry
  functions hf := by
    obtain ⟨more, hentries, -⟩ := hmodule.functions
    exact Table.get?_of_entries_append hentries hf
  written hf := fixes_of_writtenBy hwritten (Table.mem_values_of_get? hf) d
  dataTypes hd := by
    obtain ⟨more, hentries, -⟩ := hmodule.dataTypes
    exact Table.get?_of_entries_append hentries hd
  ctors {c e} hc := by
    have hknown : c.serial ∈ Γ.module.ctors.keys :=
      mem_map_of_mem (Table.mem_entries_of_get? hc)
    have hold : c.serial ∉ ns := fun hn => hnew _ hn (mem_append_right _ hknown)
    exact (hmodule.ctors _ hold).trans hc
  params hc p hp := by
    rw [TypeParam.renumber, shift_of_le (hwritten.dataTypes _ (Table.mem_values_of_get? hc) p hp) d]
  operators hsig := by
    rw [hoperators] at hsig
    rw [hoperators']
    exact Operators.standard_alike supply supply' _ hsig

theorem regroups_of_append (hΓ : Γ.groups = Γ.module.groups) {more : List (List Global)}
    (hmore : Γ'.groups = Γ.groups ++ more) : Regroups Γ Γ' where
  belongs group hgroup g hg := by
    rw [hΓ] at hgroup
    exact Table.contains_iff_mem_keys.2
      (Module.mem_keys_of_mem_groups (mem_flatten.2 ⟨group, hgroup, hg⟩))
  groupOf_eq g hg := by
    obtain ⟨group, hgroup, hmem⟩ := mem_flatten.1 ((Module.groups_spec Γ.module).2.2.1 g
      (Module.mem_keys_of_contains hg))
    rw [← hΓ] at hgroup
    have hfound : (Γ.groups.find? fun group => group.contains g).isSome = true := by
      rw [find?_isSome]
      exact ⟨group, hgroup, by simpa using hmem⟩
    rw [Context.groupOf, Context.groupOf, hmore, find?_append, Option.or_of_isSome hfound]
  fewer := by
    rw [hmore, length_append]
    exact Nat.le_add_right _ _

/-! ## The second check -/

section

variable {session session' : Session} {m m' : Module} {s s₁ V s₂ : State} {e e' : Engine}
  {more : List (List Global)}

/-- The groups of the smaller module are typed first and alike, and then the others. -/
theorem CheckRun.twin (hΓ' : Γ'.groups = Γ'.module.groups) (h : CheckRun Γ session m s e s₁)
    (h' : CheckRun Γ' session' m' V e' s₂) (hwidens : Widens ρ Γ Γ') (hregroups : Regroups Γ Γ')
    (hstart : Twins ρ (start session) (start session')) (hmore : Γ'.groups = Γ.groups ++ more) :
    ∃ t, Twins ρ s t ∧ Ready Γ.groups t ∧ solveGroups Γ' more t = .ok () V := by
  have hsolved := h'.solved
  rw [hmore] at hsolved
  have hall : Γ'.groups = [] ++ (Γ.groups ++ more) := hmore
  obtain ⟨t, ht, hready, hrest⟩ := solveGroups_append hΓ' hall (start_ready session') hsolved
  obtain ⟨_, t', ht', -, htwins⟩ :=
    solveGroups_tracks hwidens hregroups (List.Subset.refl _) hstart h.solved
  rw [ht] at ht'
  cases ht'
  exact ⟨t, htwins, hready, hrest⟩

theorem CheckRun.store_eq (h : CheckRun Γ session m s e s₁) : e.store = s.engine.store := by
  have hsteps := EngineM.propagate_eq_ok (EngineM.finish_eq_ok h.finished).1
  exact (EngineM.steps_of_idle h.ready.idle hsteps).1

variable {t : State} (hΓ : Γ.groups = Γ.module.groups) (hΓ' : Γ'.groups = Γ'.module.groups)
  (h : CheckRun Γ session m s e s₁) (h' : CheckRun Γ' session' m' V e' s₂) (htwins : Twins ρ s t)
  (hready : Ready Γ.groups t) (hrest : solveGroups Γ' more t = .ok () V)
  (hmore : Γ'.groups = Γ.groups ++ more)

include hΓ hΓ' h h' htwins hready hrest hmore

theorem CheckRun.signature_twin {g : Global} (hg : g ∈ Γ.module.functions.keys)
    (hg' : g ∈ Γ'.module.functions.keys) :
    ∃ sig, m.signature? g = some sig ∧ m'.signature? g = some (sig.renumber ρ) := by
  have hmem : g ∈ Γ.groups.flatten := hΓ ▸ (Module.groups_spec Γ.module).2.2.1 g hg
  obtain ⟨sig, hsig⟩ := Option.isSome_iff_exists.1 ((h.ready.done_iff g).2 hmem)
  have hall : Γ'.groups = Γ.groups ++ (more ++ []) := by simpa using hmore
  refine ⟨sig, (h.signatures g hg).trans hsig, ?_⟩
  rw [h'.signatures g hg', (solveGroups_ready hΓ' hall hready hrest).2.2 g hmem, htwins.schemes,
    Table.get?_mapValues, hsig, Option.map_some]

theorem CheckRun.mark_twin {n : Serial} (hn : n ∈ Γ.groups.flatten.flatMap (serialsIn Γ))
    (hlater : n ∉ more.flatten.flatMap (serialsIn Γ')) (hsymbol : n ∉ symbols Γ.module)
    (hsymbol' : n ∉ symbols Γ'.module) :
    ∃ u, s₁.session.marks.type? n = some u ∧
      s₂.session.marks.type? n = some (u.renumber ρ) := by
  have hfirst :=
    solveGroups_surveyed hΓ (nil_append _).symm (start_ready session) h.solved
  have hsecond :=
    solveGroups_surveyed hΓ' (nil_append _).symm (start_ready session') h'.solved
  have hlast := solveGroups_surveyed hΓ' hmore hready hrest
  -- The node is noted in the first run, and so in the second, where the note stays.
  obtain ⟨u, hu⟩ := Option.ne_none_iff_exists'.1 (hfirst.noted n hn)
  obtain ⟨site, hget⟩ := get?_of_note? hu
  have hnote : V.note? n = some (u.renumber ρ) := by
    rw [hlast.spares.note_eq hlater rfl, State.note?, htwins.nodeTypes, Table.get?_mapValues, hget]
    rfl
  obtain ⟨site', hget'⟩ := get?_of_note? hnote
  have hstore := h.store_eq
  have hcomplete : ((s.engine.store.resolve u).renumber ρ).cellOccurrences = [] := by
    rw [Ty.cellOccurrences_renumber, ← hstore, h.complete _ (Table.mem_entries_of_get? hget),
      map_nil]
  have hevolves := hlast.spares.evolves.trans (finish_evolves h'.ready.valid h'.finished)
  refine ⟨e.store.resolve u, h.types (hfirst.spares.noteKeys nodup_nil) hget hsymbol, ?_⟩
  rw [h'.types (hsecond.spares.noteKeys nodup_nil) hget' hsymbol', hstore,
    ← hevolves.later.resolve_resolve, htwins.engine, Engine.renumber, Store.resolve_renumber,
    Store.resolve_eq e'.store, Ty.mapCells_closed hcomplete]

end

theorem serials_of_more (hΓ : Γ.groups = Γ.module.groups) (hΓ' : Γ'.groups = Γ'.module.groups)
    (hmodule : Γ.module.Extends ns Γ'.module) {more : List (List Global)}
    (hmore : Γ'.groups = Γ.groups ++ more) {n : Serial}
    (hn : n ∈ more.flatten.flatMap (serialsIn Γ')) : n ∈ ns := by
  obtain ⟨g, hg, hn⟩ := mem_flatMap.1 hn
  obtain ⟨fs, hentries, hfs⟩ := hmodule.functions
  have hold : g ∉ Γ.module.functions.keys := by
    intro hkey
    have hfirst : g ∈ Γ.groups.flatten := hΓ ▸ (Module.groups_spec Γ.module).2.2.1 g hkey
    have hnodup := (Module.groups_spec Γ'.module).1
    rw [← hΓ', hmore, flatten_append] at hnodup
    exact disjoint_of_nodup_append hnodup hfirst hg
  have hnone : Γ.module.functions.entries.lookup g = none := by
    rw [lookup_eq_none_iff]
    intro e he
    rw [bne_iff_ne]
    rintro rfl
    exact hold (mem_map_of_mem he)
  unfold serialsIn at hn
  cases hf : Γ'.module.functions.get? g with
  | none =>
    rw [hf] at hn
    cases hn
  | some f =>
    rw [hf] at hn
    rw [Table.get?, hentries, lookup_append, hnone, Option.none_or] at hf
    have hmem : (g, f) ∈ fs := Table.mem_entries_of_get? (t := ⟨fs⟩) hf
    exact (hfs _ hmem).2.2 n hn

theorem symbols_of_extends {m : Module} (h : m.Extends ns m') :
    (symbols m).Sublist (symbols m') ∧ ∀ n ∈ symbols m', n ∈ symbols m ∨ n ∈ ns := by
  obtain ⟨fs, hfs, hnew⟩ := h.functions
  obtain ⟨ds, hds, hctors⟩ := h.dataTypes
  have hsymbols : symbols m' =
      (m.functions.keys.map (fun g => g.serial) ++ fs.map fun x => x.1.serial) ++
        ((m.dataTypes.values.flatMap fun d => d.ctors.map fun c => c.serial) ++
          ds.flatMap fun x => x.2.ctors.map fun c => c.serial) := by
    simp only [symbols, Table.keys, Table.values, hfs, hds, map_append, flatMap_append,
      map_map, flatMap_map]
    rfl
  rw [hsymbols]
  refine ⟨.append (sublist_append_left _ _) (sublist_append_left _ _), fun n hn => ?_⟩
  simp only [mem_append] at hn
  rcases hn with (hn | hn) | (hn | hn)
  · exact .inl (mem_append_left _ hn)
  · obtain ⟨x, hx, rfl⟩ := mem_map.1 hn
    exact .inr (hnew x hx).2.1
  · exact .inl (mem_append_right _ hn)
  · obtain ⟨x, hx, hn⟩ := mem_flatMap.1 hn
    obtain ⟨c, hc, rfl⟩ := mem_map.1 hn
    exact .inr (hctors x hx c hc)

theorem text_toTy_renumber (sig : Signature) : (sig.renumber ρ).toTy.text = sig.toTy.text := by
  have hrenumber : (sig.renumber ρ).toTy = sig.toTy.renumber ρ := by
    simp [Signature.toTy, Signature.renumber]
  rw [hrenumber, Ty.text_renumber]

theorem CheckRun.closed (hΓ : Γ.groups = Γ.module.groups) {session : Session} {m : Module}
    (h : CheckRun Γ session m s e s') {g : Global} {f : Function}
    (hf : Γ.module.functions.get? g = some f) {r : Global} (hr : r ∈ f.body.mentions) :
    Γ.module.functions.contains r = true := by
  have hsurveyed :=
    solveGroups_surveyed hΓ (nil_append _).symm (start_ready session) h.solved
  have hkey : g ∈ Γ.module.functions.keys :=
    Module.mem_keys_of_contains (by simp [Table.contains, hf])
  have hmem : g ∈ Γ.groups.flatten := hΓ ▸ (Module.groups_spec Γ.module).2.2.1 g hkey
  refine hsurveyed.known r (mem_flatMap.2 ⟨g, hmem, ?_⟩)
  rw [mentionsIn, hf]
  exact hr

/-- What the second check finds of the old definitions is what the first one found, but for serial
numbers. -/
theorem CheckRun.renumbered (hΓ : Γ.groups = Γ.module.groups) (hΓ' : Γ'.groups = Γ'.module.groups)
    {session : Session} {m : Module} {s₁ V s₂ : State} {e' : Engine}
    (h : CheckRun Γ session m s e s₁) (h' : CheckRun Γ' session' m' V e' s₂)
    (hmodule : Γ.module.Extends ns Γ'.module) (hnew : ∀ n ∈ ns, n ∉ Γ.module.serials)
    (hwidens : Widens ρ Γ Γ') (hstart : Twins ρ (start session) (start session')) :
    (∀ g ∈ Γ.module.functions.keys, ∃ sig,
        m.signature? g = some sig ∧ m'.signature? g = some (sig.renumber ρ)) ∧
      ∀ g f, Γ.module.functions.get? g = some f → ∀ n ∈ f.toExpr.serials, n ∉ symbols Γ.module →
        ∃ u, s₁.session.marks.type? n = some u ∧
          s₂.session.marks.type? n = some (u.renumber ρ) := by
  obtain ⟨more, hgroups⟩ := Module.groups_of_extends hmodule fun g f hf r hr => h.closed hΓ hf hr
  have hmore : Γ'.groups = Γ.groups ++ more := by rw [hΓ', hgroups, hΓ]
  obtain ⟨t, htwins, hready, hrest⟩ :=
    h.twin hΓ' h' hwidens (regroups_of_append hΓ hmore) hstart hmore
  constructor
  · intro g hg
    obtain ⟨fs, hentries, -⟩ := hmodule.functions
    have hg' : g ∈ Γ'.module.functions.keys := by
      rw [Table.keys, hentries, map_append]
      exact mem_append_left _ hg
    exact h.signature_twin hΓ hΓ' h' htwins hready hrest hmore hg hg'
  · intro g f hf n hn hsymbol
    have hmem : g ∈ Γ.groups.flatten := hΓ ▸ (Module.groups_spec Γ.module).2.2.1 g
      (Module.mem_keys_of_contains (by simp [Table.contains, hf]))
    have hold : n ∈ Γ.module.serials :=
      mem_append_left _ (mem_flatMap.2
        ⟨(g, f), Table.mem_entries_of_get? hf, .tail _ hn⟩)
    have hsymbol' : n ∉ symbols Γ'.module := fun hn' =>
      ((symbols_of_extends hmodule).2 n hn').elim hsymbol fun hns => hnew n hns hold
    refine h.mark_twin hΓ hΓ' h' htwins hready hrest hmore ?_ ?_ hsymbol hsymbol'
    · exact mem_flatMap.2 ⟨g, hmem, by rwa [serialsIn_eq hf]⟩
    · exact fun hlater => hnew n (serials_of_more hΓ hΓ' hmodule hmore hlater) hold

theorem CheckRun.symbol_texts {session : Session} {m : Module} {s₁ V s₂ : State} {e' : Engine}
    (h : CheckRun Γ session m s e s₁) (h' : CheckRun Γ' session' m' V e' s₂)
    (hmodule : Γ.module.Extends ns Γ'.module) (hdistinct : (symbols Γ'.module).Nodup)
    (hsignatures : ∀ g ∈ Γ.module.functions.keys, ∃ sig,
      m.signature? g = some sig ∧ m'.signature? g = some (sig.renumber ρ)) {n : Serial}
    (hn : n ∈ symbols Γ.module) :
    ∃ u u', s₁.session.marks.type? n = some u ∧ s₂.session.marks.type? n = some u' ∧
      u'.text = u.text := by
  have hnodup := hdistinct.sublist (symbols_of_extends hmodule).1
  obtain ⟨fs, hentries, -⟩ := hmodule.functions
  obtain ⟨ds, hdata, -⟩ := hmodule.dataTypes
  rcases mem_append.1 hn with hn | hn
  · obtain ⟨g, hg, rfl⟩ := mem_map.1 hn
    obtain ⟨sig, hsig, hsig'⟩ := hsignatures g hg
    have hg' : g ∈ Γ'.module.functions.keys := by
      rw [Table.keys, hentries, map_append]
      exact mem_append_left _ hg
    rw [h.signatures g hg] at hsig
    rw [h'.signatures g hg'] at hsig'
    exact ⟨_, _, h.functions hnodup hg hsig, h'.functions hdistinct hg' hsig',
      text_toTy_renumber sig⟩
  · obtain ⟨d, hd, hn⟩ := mem_flatMap.1 hn
    obtain ⟨c, hc, rfl⟩ := mem_map.1 hn
    have hd' : d ∈ Γ'.module.dataTypes.values := by
      rw [Table.values, hdata, map_append]
      exact mem_append_left _ hd
    exact ⟨_, _, h.ctors hnodup d hd c hc, h'.ctors hdistinct d hd' c hc, rfl⟩

/-- What is found for the definitions of a module reads the same in two checks: the functions have
signatures with the same text and the same relations, but for the types that are related, and the
functions, the constructors and the nodes and variables of the bodies are marked with types of the
same text. -/
structure KeepsTexts (m : Module) (first second : TensorTyping.Checked) : Prop where
  signatures : ∀ g ∈ m.functions.keys, ∃ sig sig', first.module.signature? g = some sig ∧
    second.module.signature? g = some sig' ∧ sig'.toTy.text = sig.toTy.text ∧
    sig'.relations.map (fun r => (r.name, r.inputs, r.attrs)) =
      sig.relations.map fun r => (r.name, r.inputs, r.attrs)
  marks : ∀ n, (n ∈ symbols m ∨ ∃ g f, m.functions.get? g = some f ∧ n ∈ f.toExpr.serials) →
    ∃ t t', first.session.marks.type? n = some t ∧ second.session.marks.type? n = some t' ∧
      t'.text = t.text

/-- Definitions are added to a module that checks, with numbers that are new in it. If the larger
module checks in a later session, what was found for the old definitions reads as before. -/
theorem check_extension_keeps_texts {m m' : Module} {defs : List Definition} {registry : Registry}
    {report report' : Report} {session session' : Session} {supply supply' : Supply}
    (indexed : m.Indexed) (written : m.WrittenBy session.supply.last)
    (apart : ∀ f ∈ m.functions.values, ∀ n ∈ f.toExpr.serials, n ∉ symbols m)
    (checks : (m.check (Operators.standard supply).1 registry report session).outcome = .ok true)
    (extended : Module.addAll Module.define
      (m.check (Operators.standard supply).1 registry report session).module defs = (m', none))
    (new : ∀ n ∈ defs.flatMap Definition.serials, n ∉ m.serials) (distinct : (symbols m').Nodup)
    (later : session.supply.last ≤ session'.supply.last)
    (checks' :
      (m'.check (Operators.standard supply').1 registry report' session').outcome = .ok true) :
    KeepsTexts m (m.check (Operators.standard supply).1 registry report session)
      (m'.check (Operators.standard supply').1 registry report' session') := by
  obtain ⟨s₁, hrun, hsession⟩ := checkModule_of_check checks
  obtain ⟨s₂, hrun', hsession'⟩ := checkModule_of_check checks'
  obtain ⟨s, e, hfirst⟩ := checkModule_eq_ok rfl hrun
  obtain ⟨V, e', hsecond⟩ := checkModule_eq_ok rfl hrun'
  have hextends : m.Extends (defs.flatMap Definition.serials) m' := by
    obtain ⟨hmodule, -⟩ := checkModule_module hrun
    have hindexed :
        (m.check (Operators.standard supply).1 registry report session).module.Indexed := by
      rw [hmodule]
      exact ⟨indexed.globals, indexed.handles, indexed.ctors⟩
    obtain ⟨-, hextends⟩ := Module.addAll_extends hindexed extended
    rw [hmodule] at hextends
    exact ⟨hextends.functions, hextends.dataTypes, hextends.ctors⟩
  obtain ⟨hsignatures, hnodes⟩ := hfirst.renumbered rfl rfl hsecond hextends new
    (widens_of_extends hextends new written rfl rfl rfl) (start_twins later)
  refine ⟨fun g hg => ?_, ?_⟩
  · obtain ⟨sig, hsig, hsig'⟩ := hsignatures g hg
    refine ⟨sig, _, hsig, hsig', text_toTy_renumber sig, ?_⟩
    simp [Signature.renumber, TypeRelation.renumber]
  · rintro n (hn | ⟨g, f, hf, hn⟩)
    · obtain ⟨u, u', hu, hu', htext⟩ :=
        hfirst.symbol_texts hsecond hextends distinct hsignatures hn
      exact ⟨u, u', hsession ▸ hu, hsession' ▸ hu', htext⟩
    · obtain ⟨u, hu, hu'⟩ :=
        hnodes g f hf n hn (apart f (Table.mem_values_of_get? hf) n hn)
      exact ⟨u, _, hsession ▸ hu, hsession' ▸ hu', Ty.text_renumber u⟩

namespace Enlarged

def f : Global := ⟨⟨1, "f"⟩⟩

def x : Var := ⟨⟨2, "x"⟩, none⟩

def y : Var := ⟨⟨3, "y"⟩, none⟩

/-- The function `fn(x, y) { add(x, y) }`. -/
def bodyOfF : Function where
  node := 4
  params := [x, y]
  body := .call 5 (.op 6 "add") [.var x, .var y] none .empty

def module : Module where
  functions := ⟨[(f, bodyOfF)]⟩
  globals := ⟨[("f", f)]⟩

def box : Handle := ⟨7, "Box"⟩

def T : TypeParam := ⟨⟨8, "T"⟩, .type⟩

def wrap : Ctor := { serial := 9, name := "wrap", inputs := [.param T], owner := box }

def g : Global := ⟨⟨10, "g"⟩⟩

def b : Var := ⟨⟨11, "b"⟩, none⟩

def z : Var := ⟨⟨12, "z"⟩, none⟩

/-- The data type `Box<T>` and the function `fn(b) { match b { wrap(z) => f(z, z) } }`. -/
def added : List Definition := [
  .data ⟨box, [T], [wrap]⟩,
  .function g (.fn 13 [b] (.matchOn 14 (.var b)
    [(.ctor 15 wrap [.var 16 z], .call 17 (.global f) [.var z, .var z] none .empty)]) none [] [])]

def session : Session := { supply := ⟨200⟩ }

def first : TensorTyping.Checked :=
  module.check (Operators.standard ⟨50⟩).1 .standard {} session

def larger : Module := (Module.addAll Module.define first.module added).1

def second : TensorTyping.Checked :=
  larger.check (Operators.standard first.session.supply).1 .standard {} first.session

theorem eq_of_isNone {x : Module × Option Fault} (h : x.2.isNone = true) : x = (x.1, none) :=
  Prod.ext rfl (Option.isNone_iff_eq_none.1 h)

theorem addAll_added : Module.addAll Module.define first.module added = (larger, none) :=
  eq_of_isNone (by decide +kernel)

end Enlarged

/-- A data type and a function are added, and the function calls one that was there before. -/
theorem check_extension_keeps_texts_boxed :
    (Enlarged.first.outcome.toOption = some true ∧ Enlarged.second.outcome.toOption = some true) ∧
      KeepsTexts Enlarged.module Enlarged.first Enlarged.second := by
  have hindexed : Enlarged.module.Indexed := ⟨by decide, by decide, by decide⟩
  have hwritten : Enlarged.module.WrittenBy Enlarged.session.supply.last :=
    ⟨by decide, by decide, by decide⟩
  have hapart : ∀ f ∈ Enlarged.module.functions.values, ∀ n ∈ f.toExpr.serials,
      n ∉ symbols Enlarged.module := by decide
  have hlater : Enlarged.session.supply.last ≤ Enlarged.first.session.supply.last := by
    decide +kernel
  have hnew : ∀ n ∈ Enlarged.added.flatMap Definition.serials, n ∉ Enlarged.module.serials := by
    decide
  have hdistinct : (symbols Enlarged.larger).Nodup := by decide +kernel
  have hfirst : Enlarged.first.outcome.toOption = some true := by decide +kernel
  have hsecond : Enlarged.second.outcome.toOption = some true := by decide +kernel
  exact ⟨⟨hfirst, hsecond⟩, check_extension_keeps_texts hindexed hwritten hapart
    (eq_ok_of_toOption hfirst) Enlarged.addAll_added hnew hdistinct hlater
    (eq_ok_of_toOption hsecond)⟩

end Inference

end TensorTyping
