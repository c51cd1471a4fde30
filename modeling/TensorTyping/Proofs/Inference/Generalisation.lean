import Mathlib.Data.List.Perm.Subperm
import TensorTyping.Proofs.Inference.Entailment
import TensorTyping.Proofs.Inference.Reachability
import TensorTyping.Proofs.Ty.VariableNames
import TensorTyping.Proofs.Unify.Heredity

/-!
# What generalisation records

The signature of a function that declares none carries the relations written on the function and,
behind them, the relations of the instances that were added while its body was typed and are left
over. No cell is left in these: the cells that relations connect to the types of the group are all
bound to type parameters, for which there are always enough names, and generalisation stops at a
relation that connects to nothing. So later bindings do not change what was recorded.
-/
namespace TensorTyping.Inference

open List

variable {cells free : List Cell} {rs : List TypeRelation} {spans : List Span} {Γ : Context}
  {t : Ty}
variable {name : String}

theorem nodup_candidates (n : Nat) : ((List.range n).map fun i => variableName (i + 1)).Nodup :=
  nodup_range.map fun _ _ h => Nat.succ_injective (variableName_injective h)

theorem nodup_freshNames (taken : List String) (n : Nat) : (freshNames taken n).Nodup :=
  ((nodup_candidates _).filter _).sublist (take_sublist _ _)

theorem not_mem_of_mem_freshNames {taken : List String} {n : Nat} (h : name ∈ freshNames taken n) :
    name ∉ taken := by
  simpa using (mem_filter.1 (mem_of_mem_take h)).2

theorem length_freshNames (taken : List String) (n : Nat) : (freshNames taken n).length = n := by
  let candidates := (List.range (n + taken.length)).map fun i => variableName (i + 1)
  have hlength : candidates.length = n + taken.length := by simp [candidates]
  have htaken : (candidates.filter fun name => taken.contains name).length ≤ taken.length := by
    refine (subperm_of_subset ((nodup_candidates _).filter _) fun name hname => ?_).length_le
    simpa using (mem_filter.1 hname).2
  have hsplit := length_eq_length_filter_add (l := candidates) fun name => taken.contains name
  change ((candidates.filter fun name => !taken.contains name).take n).length = n
  rw [length_take]
  omega

variable {s s' : State}
variable {c : Cell} {names : List String} {ts : List Ty} {is pending : List Instance}
  {rss : List (List TypeRelation)} {mark : Nat}

theorem bindParams_cons {cs : List Cell} (h : bindParams (c :: cs) (name :: names) s = .ok () s') :
    ∃ p e session, p.serial = s.session.supply.last + 1 ∧
      session.supply.last = s.session.supply.last + 1 ∧
      EngineM.onStore (StoreM.bind (.cell c) (.param p) none) s.engine = .ok () e ∧
      bindParams cs names { s with engine := e, session } = .ok () s' := by
  unfold bindParams at h
  obtain ⟨symbol, s₁, hmint, h⟩ := bind_eq_ok h
  obtain ⟨u, s₂, hbind, hrest⟩ := bind_eq_ok h
  obtain ⟨hrun, hstate⟩ := onEngine_eq_ok hbind
  cases hmint
  rw [hstate] at hrest
  exact ⟨_, _, _, rfl, rfl, hrun, hrest⟩

/-- Cells have been bound, and symbols made for that. -/
structure Binds (s s' : State) : Prop where
  rests : s.engine.Rests s'.engine
  names : s.engine.store.Names s.session.supply.last s'.engine.store
  supply_le : s.session.supply.last ≤ s'.session.supply.last
  rest_eq : s' = { s with engine := s'.engine, session := s'.session }

theorem Binds.trans {s'' : State} (h : Binds s s') (h' : Binds s' s'') : Binds s s'' where
  rests := h.rests.trans h'.rests
  names := h.names.trans h'.names h.supply_le
  supply_le := h.supply_le.trans h'.supply_le
  rest_eq := by rw [h'.rest_eq, h.rest_eq]

theorem bindParams_binds (hlength : cells.length ≤ names.length) (hs : s.engine.store.Valid)
    (h : bindParams cells names s = .ok () s') :
    Binds s s' ∧ ∀ c ∈ cells, (s'.engine.store.value c).cellOccurrences = [] := by
  induction cells generalizing s names with
  | nil =>
    unfold bindParams at h
    cases h
    exact ⟨⟨.refl hs, (Store.Kept.refl hs).names _, Nat.le_refl _, rfl⟩,
      forall_mem_nil _⟩
  | cons c cells ih =>
    cases names with
    | nil => simp at hlength
    | cons name names =>
      obtain ⟨p, e, session, hserial, hsupply, hbind, hrest⟩ := bindParams_cons h
      have hrests : s.engine.Rests e := by
        rw [← endState_of_ok hbind, EngineM.endState_onStore]
        exact Engine.moved_rests (StoreM.bind_evolves hs _ _ _)
      obtain ⟨hmore, hcells⟩ := ih (Nat.le_of_succ_le_succ hlength) hrests.evolves.valid hrest
      have hnames : s.engine.store.Names s.session.supply.last e.store :=
        StoreM.bind_param_names hs (hserial ▸ Nat.lt_succ_self _) (EngineM.onStore_eq_ok hbind)
      have hfirst : Binds s { s with engine := e, session } :=
        ⟨hrests, hnames, Nat.le.intro hsupply.symm, rfl⟩
      refine ⟨hfirst.trans hmore, forall_mem_cons.2 ⟨?_, hcells⟩⟩
      have hvalue : e.store.value c = .param p := by
        have hsame := StoreM.bind_resolve hs (EngineM.onStore_eq_ok hbind)
        rw [e.store.resolve_eq (.param p), Ty.mapCells_param] at hsame
        exact hsame
      have hlater := hmore.rests.evolves.later
      rw [hlater.value_eq c, hvalue]
      rfl

structure Takes (gs : List Global) (s s' : State) : Prop where
  kept : s.engine.store.Kept s'.engine.store
  waiting_eq : s'.engine.waiting = s.engine.waiting
  added_eq : s'.engine.added = s.engine.added
  provisional_eq : ∀ g, s'.provisional.get? g = if g ∈ gs then none else s.provisional.get? g
  rest_eq : s' = { s with engine := s'.engine, provisional := s'.provisional }

theorem takeProvisional_takes {gs : List Global} (hs : s.engine.store.Valid)
    (h : takeProvisional gs s = .ok ts s') :
    Takes gs s s' ∧ (∀ g ∈ gs, (s.provisional.get? g).isSome = true) ∧
      ts = gs.map fun g => s.engine.store.resolve ((s.provisional.get? g).getD default) := by
  induction gs generalizing s ts with
  | nil =>
    cases h
    exact ⟨⟨.refl hs, rfl, rfl, fun g => by simp, rfl⟩, by simp, rfl⟩
  | cons g gs ih =>
    unfold takeProvisional at h
    rw [get_bind] at h
    cases hp : s.provisional.get? g with
    | none =>
      simp only [hp] at h
      rw [throw_run] at h
      cases h
    | some t =>
      simp only [hp] at h
      rw [modify_bind] at h
      obtain ⟨u, s₁, hu, h⟩ := bind_eq_ok h
      obtain ⟨us, s₂, hus, h⟩ := bind_eq_ok h
      cases h
      have hu' : u = s.engine.store.resolve t := by
        have hresolve := resolve_eq_ok (by exact hs) hu
        exact hresolve
      have hlooks := resolve_looks (by exact hs) hu
      obtain ⟨htakes, hsome, hmore⟩ := ih hlooks.kept.valid hus
      -- A type that is found later was there before.
      have hget : ∀ k ∈ gs, s₁.provisional.get? k = s.provisional.get? k := by
        intro k hk
        have hk := hsome k hk
        rw [hlooks.rest_eq] at hk ⊢
        simp only [Table.get?_erase] at hk ⊢
        split at hk
        · cases hk
        · next hne => rw [if_neg hne]
      refine ⟨⟨hlooks.kept.trans htakes.kept, htakes.waiting_eq.trans hlooks.waiting_eq,
        htakes.added_eq.trans hlooks.added_eq, fun k => ?_, ?_⟩,
        forall_mem_cons.2 ⟨by rw [hp]; rfl, fun k hk => ?_⟩, ?_⟩
      · rw [htakes.provisional_eq, hlooks.rest_eq]
        simp only [Table.get?_erase, mem_cons]
        by_cases hk : k = g <;> simp [hk]
      · rw [htakes.rest_eq, hlooks.rest_eq]
      · rw [← hget k hk]
        exact hsome k hk
      · rw [map_cons, hp, hu', hmore]
        refine congrArg _ (map_congr_left fun k hk => ?_)
        rw [hget k hk]
        exact hlooks.kept.view.resolve_eq _

theorem relationsOf_looks {some : List Span} (hs : s.engine.store.Valid)
    (h : relationsOf spans pending some s = .ok rss s') :
    rss = some.map (fun span =>
        (ownedBy spans span.function pending).map (resolvedIn s.engine.store)) ∧
      Looks s s' := by
  induction some generalizing s rss with
  | nil =>
    cases h
    exact ⟨rfl, .refl hs⟩
  | cons span rest ih =>
    unfold relationsOf at h
    obtain ⟨rs, s₁, hrs, h⟩ := bind_eq_ok h
    obtain ⟨more, s₂, hmore, h⟩ := bind_eq_ok h
    cases h
    obtain ⟨rfl, hfirst⟩ := resolvedRelations_looks hs hrs
    obtain ⟨rfl, hlast⟩ := ih hfirst.kept.valid hmore
    refine ⟨?_, hfirst.trans hlast⟩
    rw [map_cons, funext (resolvedIn_kept hfirst.kept)]

theorem checkOwned_eq_ok (h : checkOwned spans is s = .ok () s') :
    s' = s ∧ ∀ i ∈ is, ∃ span ∈ spans, span.covers i = true := by
  induction is with
  | nil =>
    cases h
    exact ⟨rfl, by simp⟩
  | cons i is ih =>
    unfold checkOwned at h
    split at h
    · next hcovers =>
      obtain ⟨heq, hmore⟩ := ih h
      exact ⟨heq, forall_mem_cons.2 ⟨any_eq_true.1 hcovers, hmore⟩⟩
    · obtain ⟨r, s₁, -, h⟩ := bind_eq_ok h
      cases h

/-- A signature is that of a function for the type found and the relations left. It has the
relations written on the function in front, and the parameters of the function and all that are
free in what was found. -/
structure SignatureFor (f : Function) (t : Ty) (left : List TypeRelation) (sig : Signature) :
    Prop where
  type_eq : ∃ ps rs, t = .func sig.args sig.ret ps rs
  relations_eq : sig.relations = f.relations ++ left
  params_eq : sig.params = addParams f.typeParams (freeParamsOf (t :: left.flatMap fun r => r.args))

/-- The function has a signature for the type and the relations. -/
def HasScheme (Γ : Context) (schemes : Table Global Signature) (g : Global) (t : Ty)
    (left : List TypeRelation) : Prop :=
  ∃ f sig, Γ.module.functions.get? g = some f ∧ schemes.get? g = some sig ∧
    SignatureFor f t left sig

/-- The signatures of the functions of spans have been recorded with the types and the relations
given. -/
structure Records (Γ : Context) (spans : List Span) (ts : List Ty)
    (rss : List (List TypeRelation)) (s s' : State) : Prop where
  kept : s.engine.store.Kept s'.engine.store
  waiting_eq : s'.engine.waiting = s.engine.waiting
  added_eq : s'.engine.added = s.engine.added
  others : ∀ g, (∀ span ∈ spans, span.function ≠ g) → s'.schemes.get? g = s.schemes.get? g
  recorded : ∀ x ∈ spans.zip (ts.zip rss), HasScheme Γ s'.schemes x.1.function
    (s.engine.store.resolve x.2.1) (x.2.2.map (resolveSlots s.engine.store))
  rest_eq : s' = { s with engine := s'.engine, schemes := s'.schemes }

theorem recordScheme_eq_ok {g : Global} (hs : s.engine.store.Valid)
    (h : recordScheme Γ g t rs s = .ok () s') :
    ∃ f sig s₁, Γ.module.functions.get? g = some f ∧ Looks s s₁ ∧
      s' = { s₁ with schemes := s₁.schemes.insert g sig } ∧
      SignatureFor f (s.engine.store.resolve t) (rs.map (resolveSlots s.engine.store)) sig := by
  unfold recordScheme at h
  cases hf : Γ.module.functions.get? g with
  | none =>
    simp only [hf] at h
    rw [throw_run] at h
    cases h
  | some f =>
    simp only [hf] at h
    obtain ⟨mono, s₁, hmono, h⟩ := bind_eq_ok h
    obtain ⟨rels, s₂, hrels, h⟩ := bind_eq_ok h
    have hfirst := resolve_looks hs hmono
    obtain ⟨rfl, hlast⟩ := resolveRelations_looks hfirst.kept.valid hrels
    rw [resolveSlots_kept hfirst.kept] at h
    cases hsig : mono.signature? with
    | none =>
      simp only [hsig] at h
      rw [throw_run] at h
      cases h
    | some sig =>
      simp only [hsig] at h
      cases h
      rw [← resolve_eq_ok hs hmono]
      refine ⟨f, _, s₂, rfl, hfirst.trans hlast, rfl, ⟨sig.params, sig.relations, ?_⟩, rfl, rfl⟩
      cases mono with
      | func as r ps rels =>
        cases hsig
        rfl
      | _ => cases hsig

theorem recordSchemes_records (hts : ts.length = spans.length) (hrss : rss.length = spans.length)
    (hnodup : (spans.map Span.function).Nodup) (hs : s.engine.store.Valid)
    (h : recordSchemes Γ spans ts rss s = .ok () s') : Records Γ spans ts rss s s' := by
  induction spans generalizing s ts rss with
  | nil =>
    unfold recordSchemes at h
    cases h
    exact ⟨.refl hs, rfl, rfl, fun _ _ => rfl, fun x hx => by simp at hx, rfl⟩
  | cons span spans ih =>
    obtain ⟨t, ts, rfl⟩ := exists_cons_of_length_eq_add_one hts
    obtain ⟨rs, rss, rfl⟩ := exists_cons_of_length_eq_add_one hrss
    unfold recordSchemes at h
    obtain ⟨u, s₁, hfirst, hrest⟩ := bind_eq_ok h
    obtain ⟨f, sig, s₂, hf, hlooks, rfl, hsig⟩ := recordScheme_eq_ok hs hfirst
    rw [map_cons, nodup_cons] at hnodup
    have hvalid := hlooks.kept.valid
    have hmore := ih (by simpa using hts) (by simpa using hrss) hnodup.2 (by exact hvalid) hrest
    -- The functions of the other spans are not this one.
    have hother : ∀ other ∈ spans, other.function ≠ span.function := fun other hother heq =>
      hnodup.1 (heq ▸ mem_map_of_mem hother)
    have hschemes : s₂.schemes = s.schemes := by rw [hlooks.rest_eq]
    refine
      { kept := hlooks.kept.trans hmore.kept
        waiting_eq := hmore.waiting_eq.trans hlooks.waiting_eq
        added_eq := hmore.added_eq.trans hlooks.added_eq
        others := fun g hg => ?_
        recorded := fun x hx => ?_
        rest_eq := by rw [hmore.rest_eq, hlooks.rest_eq] }
    · obtain ⟨hne, hspans⟩ := forall_mem_cons.1 hg
      rw [hmore.others g hspans, Table.get?_insert, if_neg (Ne.symm hne), hschemes]
    · rw [zip_cons_cons, zip_cons_cons] at hx
      rcases mem_cons.1 hx with rfl | hx
      · refine ⟨f, sig, hf, ?_, hsig⟩
        rw [hmore.others span.function hother, Table.get?_insert, if_pos rfl]
      · have hrecorded := hmore.recorded x hx
        rwa [resolveSlots_kept hlooks.kept, hlooks.kept.view.resolve_eq] at hrecorded

/-- The functions of spans have been given their signatures, with the instances added after the
mark that belong to them. -/
structure Generalises (Γ : Context) (spans : List Span) (mark : Nat) (s s' : State) : Prop where
  evolves : s.engine.store.Evolves s'.engine.store
  names : s.engine.store.Names s.session.supply.last s'.engine.store
  supply_le : s.session.supply.last ≤ s'.session.supply.last
  waiting_eq : s'.engine.waiting = s.engine.waiting.filter fun i => !decide (mark < i.seq)
  added_eq : s'.engine.added = s.engine.added
  solving_eq : s'.solving = s.solving
  provisional_eq : ∀ g, s'.provisional.get? g =
    if g ∈ spans.map Span.function then none else s.provisional.get? g
  others : ∀ g, (∀ span ∈ spans, span.function ≠ g) → s'.schemes.get? g = s.schemes.get? g
  recorded : ∀ span ∈ spans, ∃ t, s.provisional.get? span.function = some t ∧
    HasScheme Γ s'.schemes span.function (s'.engine.store.resolve t)
      ((ownedBy spans span.function (s.engine.pendingSince mark)).map
        (resolvedIn s'.engine.store)) ∧
    (s'.engine.store.resolve t).cellOccurrences = []
  complete : ∀ span ∈ spans, ∀ i ∈ ownedBy spans span.function (s.engine.pendingSince mark),
    ∀ t ∈ i.relation.args, (s'.engine.store.resolve t).cellOccurrences = []
  owned : ∀ i ∈ s.engine.pendingSince mark, ∃ span ∈ spans, span.covers i = true
  notes_eq : s'.nodeTypes = s.nodeTypes ∧ s'.callArgs = s.callArgs
  scrutinees_eq : s'.scrutinees = s.scrutinees

theorem free_of_owned {resolved : Instance → TypeRelation} (h : reachable cells
      (((spans.map fun span => span.function).flatMap fun g => ownedBy spans g pending).zip
      (spans.map fun span => (ownedBy spans span.function pending).map resolved).flatten) =
      .ok free) {span : Span} (hspan : span ∈ spans) {i : Instance}
    (hi : i ∈ ownedBy spans span.function pending) (ht : t ∈ (resolved i).args)
    (hc : c ∈ t.cellOccurrences) : c ∈ free := by
  have hpairs : (((spans.map fun span => span.function).flatMap fun g =>
        ownedBy spans g pending).zip
      (spans.map fun span => (ownedBy spans span.function pending).map resolved).flatten) =
      (spans.flatMap fun span => ownedBy spans span.function pending).map
        fun i => (i, resolved i) := by
    rw [flatMap_map, map_prod_left_eq_zip, ← flatMap_def, map_flatMap]
  rw [hpairs] at h
  refine mem_of_reachable h (x := (i, resolved i)) ?_ ?_
  · exact mem_map_of_mem (mem_flatMap.2 ⟨span, hspan, hi⟩)
  · exact Ty.mem_cellsOf.2 ⟨t, ht, hc⟩

theorem complete_of_values {s s' : Store} (h : s.Extends s')
    (ht : ∀ c ∈ (s.resolve t).cellOccurrences, (s'.value c).cellOccurrences = []) :
    (s'.resolve t).cellOccurrences = [] := by
  rw [h.resolve_eq, eq_nil_iff_forall_not_mem]
  intro d hd
  obtain ⟨c, hc, hd⟩ := Ty.mem_cellOccurrences_mapCells.1 hd
  rw [ht c hc] at hd
  exact absurd hd not_mem_nil

theorem resolveSlots_resolvedIn {s s' : Store} (h : s.Extends s') (i : Instance) :
    resolveSlots s' (resolvedIn s i) = resolvedIn s' i := by
  simp only [resolveSlots, resolvedIn, map_map]
  congr 1
  exact map_congr_left fun t _ => h.resolve_resolve t

theorem detach_pendingSince (hs : s.engine.Valid)
    (h : onEngine (EngineM.detach ((s.engine.pendingSince mark).map fun i => i.seq)) s =
      .ok () s') : Leaves (fun i => !decide (mark < i.seq)) s s' := by
  have hp : ∀ i : Instance, decide (mark < i.asleep.seq) = decide (mark < i.seq) := fun _ => rfl
  refine detach_leaves hs ?_
  rw [← map_filter_pending (fun _ => rfl) hp]
  exact h

theorem generalise_generalises (hnodup : (spans.map Span.function).Nodup) (hs : s.engine.Valid)
    (h : generalise Γ spans mark s = .ok () s') : Generalises Γ spans mark s s' := by
  unfold generalise at h
  rw [get_bind] at h
  obtain ⟨_, s₀, hchecked, h⟩ := bind_eq_ok h
  obtain ⟨rfl, howned⟩ := checkOwned_eq_ok hchecked
  obtain ⟨_, s₁, hdetach, h⟩ := bind_eq_ok h
  obtain ⟨monos, s₂, hmonos, h⟩ := bind_eq_ok h
  obtain ⟨relations, s₃, hrelations, h⟩ := bind_eq_ok h
  have hleaves := detach_pendingSince hs hdetach
  obtain ⟨htakes, hsome, hmonos⟩ := takeProvisional_takes hleaves.kept.valid hmonos
  rw [map_map] at hmonos
  obtain ⟨rfl, hlooks⟩ := relationsOf_looks htakes.kept.valid hrelations
  cases hfree : reachable (cellsOf monos)
      (((spans.map fun span => span.function).flatMap fun g =>
          ownedBy spans g (s₀.engine.pendingSince mark)).zip
        (spans.map fun span => (ownedBy spans span.function
          (s₀.engine.pendingSince mark)).map (resolvedIn s₂.engine.store)).flatten) with
  | error stuck =>
    simp only [hfree] at h
    cases h
  | ok free =>
    simp only [hfree] at h
    obtain ⟨_, s₄, hbind, hrecord⟩ := bind_eq_ok h
    obtain ⟨hbinds, hcells⟩ :=
      bindParams_binds (Nat.le_of_eq (length_freshNames _ _).symm) hlooks.kept.valid hbind
    have hrecords := recordSchemes_records (by simp [hmonos]) (by simp) hnodup
      hbinds.rests.evolves.valid hrecord
    -- From the relations that were resolved first to those that are recorded.
    have hbefore : s₀.engine.store.Kept s₂.engine.store := hleaves.kept.trans htakes.kept
    have hbound : s₂.engine.store.Evolves s₄.engine.store :=
      hlooks.kept.evolves.trans hbinds.rests.evolves
    have hsession : s₃.session = s₀.session := by
      rw [hlooks.rest_eq, htakes.rest_eq, hleaves.rest_eq]
    have hrel : ∀ i, resolveSlots s₄.engine.store (resolvedIn s₂.engine.store i) =
        resolvedIn s'.engine.store i := fun i => by
      rw [resolveSlots_resolvedIn hbound.later, resolvedIn_kept hrecords.kept]
    exact
      { evolves := hbefore.evolves.trans (hbound.trans hrecords.kept.evolves)
        names := by
          rw [← hsession]
          exact ((hbefore.trans hlooks.kept).names _).trans
            (hbinds.names.trans (hrecords.kept.names _) (Nat.le_refl _)) (Nat.le_refl _)
        supply_le := by
          rw [← hsession, hrecords.rest_eq]
          exact hbinds.supply_le
        waiting_eq := by
          rw [hrecords.waiting_eq, hbinds.rests.waiting_eq, hlooks.waiting_eq, htakes.waiting_eq,
            hleaves.waiting_eq]
        added_eq := by
          rw [hrecords.added_eq, hbinds.rests.added_eq, hlooks.added_eq, htakes.added_eq,
            hleaves.added_eq]
        solving_eq := by
          rw [hrecords.rest_eq, hbinds.rest_eq, hlooks.rest_eq, htakes.rest_eq, hleaves.rest_eq]
        provisional_eq := fun g => by
          rw [hrecords.rest_eq, hbinds.rest_eq, hlooks.rest_eq]
          simp only
          rw [htakes.provisional_eq, hleaves.rest_eq]
        others := fun g hg => by
          rw [hrecords.others g hg, hbinds.rest_eq, hlooks.rest_eq, htakes.rest_eq,
            hleaves.rest_eq]
        recorded := fun span hspan => by
          obtain ⟨t, ht⟩ := Option.isSome_iff_exists.1
            (hsome span.function (mem_map_of_mem hspan))
          have hmono : s₁.engine.store.resolve t ∈ monos := by
            rw [hmonos]
            refine mem_map.2 ⟨span, hspan, ?_⟩
            rw [Function.comp_apply, ht, Option.getD_some]
          refine ⟨t, by rwa [hleaves.rest_eq] at ht, ?_, ?_⟩
          · have hrecorded := hrecords.recorded (span, s₁.engine.store.resolve t, (ownedBy spans
              span.function (s₀.engine.pendingSince mark)).map (resolvedIn s₂.engine.store)) (by
                rw [hmonos, zip_map', ← map_prod_left_eq_zip]
                refine mem_map.2 ⟨span, hspan, ?_⟩
                rw [Function.comp_apply, ht, Option.getD_some])
            rw [map_map, (htakes.kept.evolves.trans hbound).later.resolve_resolve,
              ← hrecords.kept.view.resolve_eq] at hrecorded
            rwa [← map_congr_left fun i _ => hrel i]
          · rw [hrecords.kept.view.resolve_eq]
            refine complete_of_values hbound.later fun c hc =>
              hcells c ((sweeps_of_ok hfree).advances.starts.subset ?_)
            rw [htakes.kept.view.resolve_eq] at hc
            exact Ty.mem_cellsOf.2 ⟨_, hmono, hc⟩
        complete := fun span hspan i hi t ht => by
          rw [hrecords.kept.view.resolve_eq]
          refine complete_of_values hbound.later fun c hc => hcells c ?_
          exact free_of_owned hfree hspan hi (mem_map_of_mem ht) hc
        owned := howned
        notes_eq := by
          rw [hrecords.rest_eq, hbinds.rest_eq, hlooks.rest_eq, htakes.rest_eq, hleaves.rest_eq]
          exact ⟨rfl, rfl⟩
        scrutinees_eq := by
          rw [hrecords.rest_eq, hbinds.rest_eq, hlooks.rest_eq, htakes.rest_eq, hleaves.rest_eq] }

end TensorTyping.Inference
