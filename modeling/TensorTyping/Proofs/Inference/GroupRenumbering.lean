import TensorTyping.Inference.Run
import TensorTyping.Proofs.Inference.Renumbering

/-!
# Typing groups with other serial numbers

Two runs that differ in serial numbers give the functions of a module signatures that differ in them
only. The names of new type parameters are the same, since they are chosen by how many there are and
by what is written.
-/
namespace TensorTyping.Inference

open List

variable {ρ : Serial ↪ Serial} {Γ Γ' : Context}
variable {group : List Global}
variable {gs : List Global} {spans : List Span}

/-! ## Relations that are left over -/

theorem resolveRelations_tracks (rs : List TypeRelation) :
    Tracks (Twins ρ) (Image (List.map (TypeRelation.renumber ρ))) (resolveRelations rs)
      (resolveRelations (rs.map (TypeRelation.renumber ρ))) := by
  induction rs with
  | nil => exact .pure rfl
  | cons r rs ih =>
    apply (resolveAll_tracks r.args).bind_image
    intro args
    apply ih.bind_image
    intro rest
    exact .pure rfl

theorem resolvedRelations_tracks (is : List Instance) :
    Tracks (Twins ρ) (Image (List.map (TypeRelation.renumber ρ))) (resolvedRelations is)
      (resolvedRelations (is.map (Instance.renumber ρ))) := by
  have hrun := @resolveRelations_tracks ρ (is.map Instance.inUse)
  rw [map_map] at hrun
  rw [resolvedRelations_eq, resolvedRelations_eq, map_map]
  exact hrun

theorem isPromised_renumber (ρ : Serial ↪ Serial) (promised : List TypeRelation)
    (r : TypeRelation) :
    isPromised (promised.map (TypeRelation.renumber ρ)) (r.renumber ρ) = isPromised promised r := by
  unfold isPromised
  rw [any_map]
  congr 1
  funext p
  simp only [Function.comp_apply, TypeRelation.renumber]
  rw [Ty.sameList_map fun t _ u => Ty.same_renumber t u]

theorem entailed_tracks {promised : List TypeRelation}
    (hpromised : promised.map (TypeRelation.renumber ρ) = promised) (is : List Instance) :
    Tracks (Twins ρ) Eq (entailed promised is)
      (entailed promised (is.map (Instance.renumber ρ))) := by
  have hsame (r : TypeRelation) : isPromised promised (r.renumber ρ) = isPromised promised r := by
    conv_lhs => rw [← hpromised, isPromised_renumber]
  rw [entailed_eq, entailed_eq]
  apply (resolvedRelations_tracks is).bind_image
  intro rs
  apply Tracks.pure
  rw [zip_map, filter_map, map_map]
  simp [Function.comp_def, hsame, Instance.renumber]

def Belongs (Γ : Context) (group : List Global) : Prop :=
  ∀ g ∈ group, Γ.module.functions.contains g = true

theorem Widens.undeclared_eq (hΓ : Widens ρ Γ Γ') (hgroup : Belongs Γ group) :
    Γ'.undeclared group = Γ.undeclared group := by
  apply filter_congr
  intro g hg
  rw [hΓ.declared?_eq (hgroup g hg)]

theorem Widens.promised_eq (hΓ : Widens ρ Γ Γ') (hgroup : Belongs Γ group) :
    promised Γ' group = promised Γ group := by
  unfold promised
  congr 1
  apply filterMap_congr
  intro g hg
  exact hΓ.declared?_eq (hgroup g hg)

theorem Widens.promised_renumber (hΓ : Widens ρ Γ Γ') (group : List Global) :
    (promised Γ group).map (TypeRelation.renumber ρ) = promised Γ group := by
  apply relations_of_fixed
  intro t ht
  obtain ⟨r, hr, ht⟩ := mem_flatMap.1 ht
  obtain ⟨sig, hsig, hr⟩ := mem_flatMap.1 hr
  obtain ⟨g, -, hd⟩ := mem_filterMap.1 hsig
  obtain ⟨f, hf, hdeclared⟩ := Option.bind_eq_some_iff.1 hd
  obtain ⟨-, -, hrelations⟩ := Function.declared?_eq_some hdeclared
  apply (hΓ.written hf).written _ (Expr.self_mem_parts _)
  apply mem_append_right
  rw [hrelations] at hr
  exact mem_flatMap.2 ⟨r, hr, ht⟩

theorem dischargeDeclared_tracks (hΓ : Widens ρ Γ Γ') (hgroup : Belongs Γ group) (mark : Nat) :
    Tracks (Twins ρ) (fun _ _ => True) (dischargeDeclared Γ group mark)
      (dischargeDeclared Γ' group mark) := by
  unfold dischargeDeclared
  rw [hΓ.promised_eq hgroup]
  apply Tracks.ite Iff.rfl
  · exact fun _ => .pure trivial
  · intro _
    apply Tracks.get_bind
    intro s t hst
    rw [hst.engine, Engine.pendingSince_renumber]
    apply (entailed_tracks (hΓ.promised_renumber group) _).bind
    rintro seqs _ rfl
    exact onEngine_tracks (EngineM.detach_tracks seqs)

theorem checkOwned_tracks (spans : List Span) (is : List Instance) :
    Tracks (Twins ρ) (fun _ _ => True) (checkOwned spans is)
      (checkOwned spans (is.map (Instance.renumber ρ))) := by
  induction is with
  | nil => exact .pure trivial
  | cons i is ih =>
    apply Tracks.ite Iff.rfl
    · exact fun _ => ih
    · intro _ s _ _ a s' hrun
      obtain ⟨_, _, -, hthrow⟩ := bind_eq_ok hrun
      cases hthrow

theorem ownedBy_renumber (spans : List Span) (g : Global) (is : List Instance) :
    ownedBy spans g (is.map (Instance.renumber ρ)) =
      (ownedBy spans g is).map (Instance.renumber ρ) := by
  unfold ownedBy
  rw [filter_map]
  rfl

theorem relationsOf_tracks (spans : List Span) (pending : List Instance) (rest : List Span) :
    Tracks (Twins ρ) (Image (List.map (List.map (TypeRelation.renumber ρ))))
      (relationsOf spans pending rest)
      (relationsOf spans (pending.map (Instance.renumber ρ)) rest) := by
  induction rest with
  | nil => exact .pure rfl
  | cons s rest ih =>
    unfold relationsOf
    rw [ownedBy_renumber]
    apply (resolvedRelations_tracks _).bind_image
    intro rs
    apply ih.bind_image
    intro more
    exact .pure rfl

/-! ## Cells that become parameters -/

def renumberWaiting (ρ : Serial → Serial) (waiting : List (Instance × TypeRelation)) :
    List (Instance × TypeRelation) :=
  waiting.map (Prod.map (Instance.renumber ρ) (TypeRelation.renumber ρ))

theorem contains_renumber (reached : List Cell) (c : Cell) :
    (reached.map (Cell.renumber ρ)).contains (c.renumber ρ) = reached.contains c := by
  rw [Bool.eq_iff_iff, contains_iff_mem, contains_iff_mem]
  exact mem_map_of_injective (Cell.renumber_injective ρ)

theorem reachPass_renumber (reached : List Cell) (waiting : List (Instance × TypeRelation)) :
    reachPass (reached.map (Cell.renumber ρ)) (renumberWaiting ρ waiting) =
      Prod.map (List.map (Cell.renumber ρ)) (renumberWaiting ρ) (reachPass reached waiting) := by
  induction waiting generalizing reached with
  | nil => rfl
  | cons w waiting ih =>
    obtain ⟨i, r⟩ := w
    have hcells : cellsOf (r.renumber ρ).args = (cellsOf r.args).map (Cell.renumber ρ) :=
      Ty.cellsOf_renumber r.args
    have hany : ((cellsOf r.args).map (Cell.renumber ρ)).any
        (reached.map (Cell.renumber ρ)).contains = (cellsOf r.args).any reached.contains := by
      rw [any_map]
      congr 1
      funext c
      exact contains_renumber reached c
    have hnew : reached.map (Cell.renumber ρ) ++ ((cellsOf r.args).map (Cell.renumber ρ)).filter
        (fun c => !(reached.map (Cell.renumber ρ)).contains c) =
        (reached ++ (cellsOf r.args).filter fun c => !reached.contains c).map
          (Cell.renumber ρ) := by
      rw [map_append, filter_map]
      congr 3
      funext c
      exact congrArg _ (contains_renumber reached c)
    have hcons : renumberWaiting ρ ((i, r) :: waiting) =
        (i.renumber ρ, r.renumber ρ) :: renumberWaiting ρ waiting := rfl
    rw [hcons]
    simp only [reachPass, hcells, isEmpty_map, hany, hnew]
    split
    · exact ih _
    · rw [ih]
      rfl

theorem reachWithin_renumber (fuel : Nat) (reached : List Cell)
    (waiting : List (Instance × TypeRelation)) :
    reachWithin fuel (reached.map (Cell.renumber ρ)) (renumberWaiting ρ waiting) =
      Prod.map (List.map (Cell.renumber ρ)) (renumberWaiting ρ)
        (reachWithin fuel reached waiting) := by
  induction fuel generalizing reached waiting with
  | zero => rfl
  | succ fuel ih =>
    have hlength (l : List (Instance × TypeRelation)) : (renumberWaiting ρ l).length = l.length :=
      length_map _
    simp only [reachWithin, reachPass_renumber, Prod.map_fst, Prod.map_snd, hlength, ih]
    split <;> rfl

theorem reachable_renumber {cells free : List Cell} {waiting : List (Instance × TypeRelation)}
    (h : reachable cells waiting = .ok free) :
    reachable (cells.map (Cell.renumber ρ)) (renumberWaiting ρ waiting) =
      .ok (free.map (Cell.renumber ρ)) := by
  unfold reachable at h ⊢
  rw [show (renumberWaiting ρ waiting).length = waiting.length from length_map _,
    reachWithin_renumber]
  generalize reachWithin (waiting.length + 1) cells waiting = result at h ⊢
  obtain ⟨reached, left⟩ := result
  cases left with
  | nil =>
    cases h
    rfl
  | cons w left => cases h

theorem mint_tracks (name : String) :
    Tracks (Twins ρ) (fun a b => b = ⟨ρ a.serial, a.name⟩)
      (onSession (SessionM.mint (Symbol.mint name)))
      (onSession (SessionM.mint (Symbol.mint name))) := by
  intro s t hst a s' hrun
  cases hrun
  have hnext := hst.supply 0
  refine ⟨_, _, rfl, ?_, { hst with supply := ?_ }⟩
  · rw [Nat.add_zero] at hnext
    exact congrArg (Symbol.mk · name) hnext.symm
  · intro k
    have hshift (n : Nat) : n + (k + 1) + 1 = n + 1 + k + 1 := by omega
    have hlater := hst.supply (k + 1)
    rwa [hshift, hshift] at hlater

theorem bindParams_tracks (cs : List Cell) (names : List String) :
    Tracks (Twins ρ) (fun _ _ => True) (bindParams cs names)
      (bindParams (cs.map (Cell.renumber ρ)) names) := by
  induction cs generalizing names with
  | nil => exact .pure trivial
  | cons c cs ih =>
    cases names with
    | nil => exact .pure trivial
    | cons name names =>
      apply (mint_tracks name).bind
      rintro a _ rfl
      have hbind : Tracks (Image (Store.renumber ρ)) (fun _ _ => True)
          (StoreM.bind (.cell c) (.param ⟨a, .type⟩) none)
          (StoreM.bind (.cell (c.renumber ρ)) (.param ⟨⟨ρ a.serial, a.name⟩, .type⟩) none) :=
        StoreM.bind_tracks (.cell c) (.param ⟨a, .type⟩) none
      exact (onEngine_tracks (EngineM.onStore_tracks hbind)).bind_unit (ih names)

/-! ## Signatures -/

theorem takeProvisional_tracks (gs : List Global) :
    Tracks (Twins ρ) (Image (List.map (Ty.renumber ρ))) (takeProvisional gs)
      (takeProvisional gs) := by
  induction gs with
  | nil => exact .pure rfl
  | cons g gs ih =>
    apply Tracks.get_bind
    intro s t hst
    rw [hst.provisional, Table.get?_mapValues]
    cases s.provisional.get? g with
    | none => exact .throw
    | some u =>
      have herase : Tracks (ε := Fault) (Twins ρ) (fun _ _ => True)
          (modify fun s => { s with provisional := s.provisional.erase g })
          (modify fun s => { s with provisional := s.provisional.erase g }) := by
        apply Tracks.modify
        intro s t hst
        exact { hst with provisional := by rw [hst.provisional, Table.erase_mapValues] }
      apply herase.bind_unit
      apply (resolve_tracks u).bind_image
      intro v
      apply ih.bind_image
      intro vs
      exact .pure rfl

theorem addParams_renumber {params : List TypeParam}
    (hparams : params.map (TypeParam.renumber ρ) = params) (more : List TypeParam) :
    addParams params (more.map (TypeParam.renumber ρ)) =
      (addParams params more).map (TypeParam.renumber ρ) := by
  unfold addParams
  rw [map_append, filter_map, hparams]
  congr 3
  funext p
  have hmem : params.contains (p.renumber ρ) = params.contains p := by
    rw [Bool.eq_iff_iff, contains_iff_mem, contains_iff_mem]
    have hiff := mem_map_of_injective (TypeParam.renumber_injective ρ) (a := p) (l := params)
    rwa [hparams] at hiff
  rw [Function.comp_apply, hmem]

theorem insertScheme_tracks (g : Global) (sig : Signature) :
    Tracks (ε := Fault) (Twins ρ) (fun _ _ => True)
      (modify fun s => { s with schemes := s.schemes.insert g sig })
      (modify fun s => { s with schemes := s.schemes.insert g (sig.renumber ρ) }) := by
  apply Tracks.modify
  intro s t hst
  exact { hst with schemes := by rw [hst.schemes, Table.insert_mapValues] }

theorem recordScheme_tracks (hΓ : Widens ρ Γ Γ') (g : Global) (t : Ty) (rs : List TypeRelation) :
    Tracks (Twins ρ) (fun _ _ => True) (recordScheme Γ g t rs)
      (recordScheme Γ' g (t.renumber ρ) (rs.map (TypeRelation.renumber ρ))) := by
  unfold recordScheme
  cases hf : Γ.module.functions.get? g with
  | none => exact .throw
  | some f =>
    rw [hΓ.functions hf]
    have hfixes := hΓ.written hf
    have htypeParams : f.typeParams.map (TypeParam.renumber ρ) = f.typeParams :=
      params_of_fixed (hfixes.typeParams _ (Expr.self_mem_parts _))
    have hrelations : f.relations.map (TypeRelation.renumber ρ) = f.relations := by
      apply relations_of_fixed
      intro t ht
      exact hfixes.written _ (Expr.self_mem_parts _) t (mem_append_right _ ht)
    apply (resolve_tracks t).bind_image
    intro mono
    apply (resolveRelations_tracks rs).bind_image
    intro rels
    have hslots : (rels.map (TypeRelation.renumber ρ)).flatMap (fun r => r.args) =
        (rels.flatMap fun r => r.args).map (Ty.renumber ρ) := by
      rw [flatMap_map, map_flatMap]
      rfl
    have hfree := Ty.freeParamsOf_renumber (ρ := ρ) (mono :: rels.flatMap fun r => r.args)
    rw [map_cons] at hfree
    simp only [hslots, hfree]
    cases mono with
    | func as r ps rs =>
      have hscheme : (Signature.mk as r (addParams f.typeParams
          (freeParamsOf (.func as r ps rs :: rels.flatMap fun r => r.args)))
          (f.relations ++ rels)).renumber ρ =
          ⟨as.map (Ty.renumber ρ), r.renumber ρ, addParams f.typeParams
            ((freeParamsOf (.func as r ps rs :: rels.flatMap fun r => r.args)).map
              (TypeParam.renumber ρ)), f.relations ++ rels.map (TypeRelation.renumber ρ)⟩ := by
        rw [addParams_renumber htypeParams, Signature.renumber, map_append, hrelations]
      rw [Ty.renumber_func]
      simp only [Ty.signature?]
      rw [← hscheme]
      exact insertScheme_tracks g _
    | _ => exact .throw

theorem recordSchemes_tracks (hΓ : Widens ρ Γ Γ') (spans : List Span) (ts : List Ty)
    (rss : List (List TypeRelation)) :
    Tracks (Twins ρ) (fun _ _ => True) (recordSchemes Γ spans ts rss)
      (recordSchemes Γ' spans (ts.map (Ty.renumber ρ))
        (rss.map (List.map (TypeRelation.renumber ρ)))) := by
  induction spans generalizing ts rss with
  | nil => exact .pure trivial
  | cons s spans ih =>
    cases ts with
    | nil => exact .pure trivial
    | cons t ts =>
      cases rss with
      | nil => exact .pure trivial
      | cons rs rss =>
        exact (recordScheme_tracks hΓ s.function t rs).bind_unit (ih ts rss)

theorem Widens.taken_eq (hΓ : Widens ρ Γ Γ') (hgs : Belongs Γ gs) :
    gs.filterMap Γ'.module.functions.get? = gs.filterMap Γ.module.functions.get? := by
  apply filterMap_congr
  intro g hg
  obtain ⟨f, hf⟩ := Option.isSome_iff_exists.1 (hgs g hg)
  rw [hf, hΓ.functions hf]

theorem generalise_tracks (hΓ : Widens ρ Γ Γ') (hspans : Belongs Γ (spans.map fun s => s.function))
    (mark : Nat) :
    Tracks (Twins ρ) (fun _ _ => True) (generalise Γ spans mark) (generalise Γ' spans mark) := by
  apply Tracks.get_bind
  intro s t hst
  rw [hst.engine, Engine.pendingSince_renumber]
  generalize s.engine.pendingSince mark = pending
  have hseqs : (pending.map (Instance.renumber ρ)).map (fun i => i.seq) =
      pending.map fun i => i.seq := map_map
  have howned : (spans.map fun s => s.function).flatMap (fun g => ownedBy spans g
      (pending.map (Instance.renumber ρ))) =
      ((spans.map fun s => s.function).flatMap fun g => ownedBy spans g pending).map
        (Instance.renumber ρ) := by
    rw [map_flatMap]
    exact flatMap_congr fun g _ => ownedBy_renumber spans g pending
  dsimp only
  rw [hΓ.taken_eq hspans, hseqs, howned]
  generalize ((spans.map fun s => s.function).flatMap fun g => ownedBy spans g pending) = owned
  apply (checkOwned_tracks spans pending).bind_unit
  apply (onEngine_tracks (EngineM.detach_tracks _)).bind_unit
  apply (takeProvisional_tracks _).bind_image
  intro monos
  apply (relationsOf_tracks spans pending spans).bind_image
  intro relations
  have hwaiting : (owned.map (Instance.renumber ρ)).zip
      (relations.map (List.map (TypeRelation.renumber ρ))).flatten =
      renumberWaiting ρ (owned.zip relations.flatten) := by
    rw [← map_flatten, zip_map]
    rfl
  rw [hwaiting, Ty.cellsOf_renumber]
  cases hreach : reachable (cellsOf monos) (owned.zip relations.flatten) with
  | error stuck => exact .throw
  | ok free =>
    rw [reachable_renumber hreach]
    dsimp only
    rw [length_map]
    apply (bindParams_tracks free _).bind_unit
    exact recordSchemes_tracks hΓ spans monos relations

/-! ## Groups -/

theorem startProvisional_tracks (gs : List Global) :
    Tracks (Twins ρ) (fun _ _ => True) (startProvisional gs) (startProvisional gs) := by
  induction gs with
  | nil => exact .pure trivial
  | cons g gs ih =>
    apply fresh_tracks.bind_image
    intro t
    refine Tracks.bind_unit (Tracks.modify ?_) ih
    intro s s' hss
    exact { hss with provisional := by rw [hss.provisional, Table.insert_mapValues] }

theorem tell_tracks (line line' : String) :
    Tracks (Twins ρ) (fun _ _ => True) (tell Γ line) (tell Γ' line') := by
  intro s t hst a s' hrun
  have hstate (Δ : Context) (text : String) (u : State) :
      ∃ told, Inference.tell Δ text u = .ok () { u with told } := by
    unfold Inference.tell
    split
    · exact ⟨_, rfl⟩
    · exact ⟨u.told, rfl⟩
  obtain ⟨told, hleft⟩ := hstate Γ line s
  obtain ⟨told', hright⟩ := hstate Γ' line' t
  cases hleft.symm.trans hrun
  exact ⟨(), _, hright, trivial, { hst with }⟩

theorem openGroup_tracks (hΓ : Widens ρ Γ Γ') (hgroup : Belongs Γ group) :
    Tracks (Twins ρ) (fun _ _ => True) (openGroup Γ group) (openGroup Γ' group) := by
  unfold openGroup
  rw [hΓ.undeclared_eq hgroup]
  apply (tell_tracks _ _).bind_unit
  refine Tracks.bind_unit (Tracks.modify ?_) (startProvisional_tracks _)
  intro s t hst
  exact { hst with solving := by rw [hst.solving] }

variable {solve solve' : Global → InferM Unit}

section

variable (hΓ : Widens ρ Γ Γ')

include hΓ

theorem typeBody_tracks (hsolve : SolvesAlike ρ Γ solve solve') (g : Global) :
    Tracks (Twins ρ) (fun a b => b = a ∧ a.function = g) (typeBody Γ solve g)
      (typeBody Γ' solve' g) := by
  unfold typeBody
  cases hf : Γ.module.functions.get? g with
  | none => exact .throw
  | some f =>
    rw [hΓ.functions hf]
    apply Tracks.get_bind
    intro s t hst
    rw [show t.engine.added = s.engine.added by rw [hst.engine]; rfl]
    apply (infer_tracks hΓ hsolve (hΓ.written hf) []).bind_image
    intro u
    apply Tracks.get_bind
    intro s₁ t₁ hst₁
    apply Tracks.get_bind
    intro s₂ t₂ hst₂
    rw [show t₁.engine.added = s₁.engine.added by rw [hst₁.engine]; rfl, hst₂.provisional,
      Table.get?_mapValues]
    cases s₂.provisional.get? g with
    | none => exact .pure ⟨rfl, rfl⟩
    | some v => exact (unify_tracks v u (.expr f.toExpr)).bind_unit (.pure ⟨rfl, rfl⟩)

theorem typeBodies_tracks (hsolve : SolvesAlike ρ Γ solve solve') (gs : List Global) :
    Tracks (Twins ρ) (fun a b => b = a ∧ a.map (fun s => s.function) = gs) (typeBodies Γ solve gs)
      (typeBodies Γ' solve' gs) := by
  induction gs with
  | nil => exact .pure ⟨rfl, rfl⟩
  | cons g gs ih =>
    apply (typeBody_tracks hΓ hsolve g).bind
    rintro span _ ⟨rfl, hspan⟩
    apply ih.bind
    rintro spans _ ⟨rfl, hspans⟩
    exact .pure ⟨rfl, by rw [map_cons, hspan, hspans]⟩

theorem announce_tracks (hgs : Belongs Γ gs) :
    Tracks (Twins ρ) (fun _ _ => True) (announce Γ gs) (announce Γ' gs) := by
  induction gs with
  | nil => exact .pure trivial
  | cons g gs ih =>
    have hknown := hgs g (.head _)
    have hrest := ih fun r hr => hgs r (.tail _ hr)
    unfold announce
    extract_lets rest report rest' report'
    have hreport : Tracks (Twins ρ) (fun _ _ => True) (report ()) (report' ()) := by
      apply Tracks.get_bind
      intro s t hst
      rw [hst.schemes, Table.get?_mapValues]
      cases s.schemes.get? g with
      | none => exact .throw_bind
      | some sig => exact (tell_tracks _ _).bind_unit hrest
    rw [hΓ.declared?_eq hknown]
    cases hd : Γ.declared? g with
    | none => exact hreport
    | some sig =>
      have hinsert := insertScheme_tracks (ρ := ρ) g sig
      rw [hΓ.renumber_declared hd] at hinsert
      exact hinsert.bind_unit hreport

theorem closeGroup_tracks (hgroup : Belongs Γ group)
    (hspans : spans.map (fun s => s.function) = group) (mark : Nat) :
    Tracks (Twins ρ) (fun _ _ => True) (closeGroup Γ group spans mark)
      (closeGroup Γ' group spans mark) := by
  have hkept : Belongs Γ ((spans.filter fun s => (Γ.undeclared group).contains s.function).map
      fun s => s.function) := by
    intro g hg
    obtain ⟨s, hs, rfl⟩ := mem_map.1 hg
    apply hgroup
    rw [← hspans]
    exact mem_map_of_mem (mem_of_mem_filter hs)
  unfold closeGroup
  rw [hΓ.registry, hΓ.undeclared_eq hgroup]
  apply (onEngine_tracks (EngineM.propagate_tracks Γ.registry)).bind_unit
  apply (dischargeDeclared_tracks hΓ hgroup mark).bind_unit
  apply (generalise_tracks hΓ hkept mark).bind_unit
  apply (announce_tracks hΓ hgroup).bind_unit
  apply Tracks.modify
  intro s t hst
  exact { hst with solving := by rw [hst.solving] }

theorem typeGroup_tracks (hsolve : SolvesAlike ρ Γ solve solve') (hgroup : Belongs Γ group) :
    Tracks (Twins ρ) (fun _ _ => True) (typeGroup Γ solve group) (typeGroup Γ' solve' group) := by
  apply Tracks.get_bind
  intro s t hst
  rw [show t.engine.added = s.engine.added by rw [hst.engine]; rfl]
  apply (openGroup_tracks hΓ hgroup).bind_unit
  apply (typeBodies_tracks hΓ hsolve group).bind
  rintro spans _ ⟨rfl, hspans⟩
  exact closeGroup_tracks hΓ hgroup hspans s.engine.added

end

/-- The groups of the smaller context are found again in the larger one. -/
structure Regroups (Γ Γ' : Context) : Prop where
  belongs : ∀ group ∈ Γ.groups, Belongs Γ group
  groupOf_eq : ∀ g, Γ.module.functions.contains g = true → Γ'.groupOf g = Γ.groupOf g
  fewer : Γ.groups.length ≤ Γ'.groups.length

theorem Regroups.belongs_groupOf (h : Regroups Γ Γ') (g : Global) : Belongs Γ (Γ.groupOf g) := by
  unfold Context.groupOf
  cases hfind : Γ.groups.find? fun group => group.contains g with
  | none => exact forall_mem_nil _
  | some group => exact h.belongs group (mem_of_find?_eq_some hfind)

/-- A function is typed on demand in the same way, if there is as much fuel or more. -/
theorem solveWithin_alike (hΓ : Widens ρ Γ Γ') (hgroups : Regroups Γ Γ') {fuel fuel' : Nat}
    (hfuel : fuel ≤ fuel') : SolvesAlike ρ Γ (solveWithin Γ fuel) (solveWithin Γ' fuel') := by
  induction fuel generalizing fuel' with
  | zero => exact fun _ _ => .throw
  | succ fuel ih =>
    obtain ⟨more, rfl⟩ : ∃ more, fuel' = more + 1 := ⟨fuel' - 1, by omega⟩
    intro g hg
    unfold solveWithin
    rw [hgroups.groupOf_eq g hg]
    exact typeGroup_tracks hΓ (ih (by omega)) (hgroups.belongs_groupOf g)

theorem solveGroups_tracks (hΓ : Widens ρ Γ Γ') (hgroups : Regroups Γ Γ')
    {groups : List (List Global)} (hsub : groups ⊆ Γ.groups) :
    Tracks (Twins ρ) (fun _ _ => True) (solveGroups Γ groups) (solveGroups Γ' groups) := by
  induction groups with
  | nil => exact .pure trivial
  | cons group rest ih =>
    rw [cons_subset] at hsub
    unfold solveGroups
    cases hhead : group.head? with
    | none => exact ih hsub.2
    | some g =>
      have hg := hgroups.belongs group hsub.1 g (mem_of_mem_head? hhead)
      have hfuel : Γ.groups.length + 1 ≤ Γ'.groups.length + 1 := Nat.succ_le_succ hgroups.fewer
      apply Tracks.get_bind
      intro s t hst
      rw [hst.schemes, Table.contains_mapValues]
      apply Tracks.ite Iff.rfl
      · exact fun _ => (solveWithin_alike hΓ hgroups hfuel g hg).bind_unit (ih hsub.2)
      · exact fun _ => ih hsub.2

end TensorTyping.Inference
