import TensorTyping.Proofs.Inference.Completeness

/-!
# Typability in the core is decided

A core expression is typed with success exactly when it has one typing and no other, and is marked
with it. The types noted obey the rules whatever is put in for the cells that are left, so that a cell
that is left gives two typings, and that no typing is lost means that there are no others.
-/
namespace TensorTyping

open List

namespace Expr

/-- The types `τ` make a typing of the closed expression, and there is no other. -/
structure UniqueTyping (τ : Serial → Ty) (e : Expr) : Prop where
  typing : e.Typing τ
  unique : ∀ τ', e.Typing τ' → ∀ n ∈ e.serials, τ' n = τ n

theorem Typing.serial_mem {τ : Serial → Ty} {e : Expr} (h : e.Typing τ) (hcore : e.isCore = true) :
    e.serial ∈ e.serials := by
  have hscope := h.wellScoped
  have hsimple := isSimple_of_core hcore e.self_mem_parts
  cases e with
  | var x => simp [Expr.wellScoped] at hscope
  | global | ctor => cases hsimple
  | _ => simp [serial, serials]

end Expr

namespace Inference

section

variable {Γ : Context} {A : Annotation} {τ : Serial → Ty} {e : Expr} {ts : List Ty}

theorem hasType_of_core (hcore : e.isCore = true) {t : Ty} (h : A.HasType Γ e t) :
    A.type e.serial = some t := by
  rw [ Annotation.HasType, Expr.isShared_of_core hcore] at h
  exact h

theorem map_eq_of_hasType (hτ : ∀ {n t}, A.type n = some t → τ n = t) {es : List Expr}
    (hcore : ∀ e ∈ es, e.isCore = true) (h : List.Forall₂ (A.HasType Γ) es ts) :
    (es.map fun e => τ e.serial) = ts := by
  induction h with
  | nil => rfl
  | cons he _ ih =>
    rw [forall_mem_cons] at hcore
    rw [map_cons, ih hcore.2, hτ (hasType_of_core hcore.1 he)]

theorem map_eq_of_hasParam (hτ : ∀ {n t}, A.type n = some t → τ n = t) {params : List Var}
    (h : List.Forall₂ A.HasParam params ts) : (params.map fun x => τ x.serial) = ts := by
  induction h with
  | nil => rfl
  | cons hx _ ih => rw [map_cons, ih, hτ hx.1]

theorem hasParam_of_mem {params : List Var} (h : List.Forall₂ A.HasParam params ts) {x : Var}
    (hx : x ∈ params) : ∃ t, A.HasParam x t := by
  induction h with
  | nil => cases hx
  | cons hy _ ih =>
    rcases mem_cons.1 hx with rfl | hx
    · exact ⟨_, hy⟩
    · exact ih hx

theorem simplyTyped_of_obeys (hτ : ∀ {n t}, A.type n = some t → τ n = t)
    (hagree : ∀ {t u}, A.agree t u → t = u)
    (hplain : ∀ {n as r ps rs}, A.type n = some (.func as r ps rs) → rs = [])
    (hcore : e.isCore = true) (h : A.Obeys Γ e) : e.SimplyTyped τ := by
  have hchild {c : Expr} (hc : c ∈ e.children) {t : Ty} (ht : A.HasType Γ c t) : τ c.serial = t :=
    hτ (hasType_of_core (Expr.isCore_child hcore hc) ht)
  have hsimple := Expr.isSimple_of_core hcore e.self_mem_parts
  cases e with
  | var x => trivial
  | constant n c =>
    obtain ⟨t, ht, hn⟩ := h
    rw [Expr.SimplyTyped, hτ hn]
    exact ht
  | fn n params body ret typeParams relations =>
    obtain ⟨rfl, rfl⟩ := Expr.fn_of_core hcore
    obtain ⟨ts, b, r, hparams, hbody, hr, hrb, hn⟩ := h
    have hmap := map_eq_of_hasParam hτ hparams
    obtain rfl := hagree hrb
    have hb := hchild (mem_singleton_self body) hbody
    refine ⟨fun x hx a ha => ?_, fun r' hr' => ?_, ?_⟩
    · obtain ⟨t, ht⟩ := hasParam_of_mem hparams hx
      exact (hτ ht.1).trans (ht.2 a ha)
    · rw [hb, hr, hr']
      rfl
    · rw [hmap, hb]
      exact hτ hn
  | call n callee args typeArgs attrs =>
    obtain ⟨as, r, relations, ts, hcallee, hargs, has, hn⟩ := h
    have hcore' := Expr.isCore_child hcore (.head _)
    rw [ Annotation.HasCallee, Expr.isReference_of_core hcore'] at hcallee
    have hcallee : A.type callee.serial = some (.func as r [] relations) := hcallee.1
    obtain rfl := hplain hcallee
    have hmap := map_eq_of_hasType hτ
      (fun e he => Expr.isCore_child hcore (.tail _ he)) hargs
    obtain rfl : as = ts := by
      rw [← forall₂_eq_eq_eq]
      exact has.imp fun _ _ => hagree
    rw [Expr.SimplyTyped, hmap, hτ hcallee, hτ hn]
  | letIn n x value body =>
    obtain ⟨v, t, b, hvalue, hx, hvt, -, hwritten, hbody, hn⟩ := h
    obtain rfl := hagree hvt
    have hv := hchild (by simp) hvalue
    have hb := hchild (by simp) hbody
    refine ⟨hv.trans (hτ hx).symm, fun a ha => ?_, (hτ hn).trans hb.symm⟩
    rw [hτ hx, hagree (hwritten a ha)]
  | tuple n fields =>
    obtain ⟨ts, hfields, hn⟩ := h
    have hmap := map_eq_of_hasType hτ (fun e he => Expr.isCore_child hcore he) hfields
    exact (hτ hn).trans (congrArg Ty.tuple hmap.symm)
  | cond n test whenTrue whenFalse =>
    obtain ⟨c, t, u, hc, ht, hu, hbool, htu, hn⟩ := h
    obtain rfl := hagree hbool
    obtain rfl := hagree htu
    have hc := hchild (by simp) hc
    have ht := hchild (by simp) ht
    have hu := hchild (by simp) hu
    exact ⟨hc, ht.trans hu.symm, (hτ hn).trans ht.symm⟩
  | global | op | ctor | proj | matchOn => cases hsimple

theorem annotated_of_obeys (hcore : e.isCore = true) (h : A.Obeys Γ e) {n : Serial}
    (hn : n ∈ e.ownSerials) : ∃ t, A.type n = some t := by
  have hsimple := Expr.isSimple_of_core hcore e.self_mem_parts
  cases e with
  | var x => cases hn
  | constant m c =>
    obtain ⟨t, -, hm⟩ := h
    obtain rfl := mem_singleton.1 hn
    exact ⟨t, hm⟩
  | fn m params body ret typeParams relations =>
    obtain ⟨ts, b, r, hparams, -, -, -, hm⟩ := h
    rcases mem_cons.1 hn with rfl | hn
    · exact ⟨_, hm⟩
    · obtain ⟨x, hx, rfl⟩ := mem_map.1 hn
      obtain ⟨t, ht⟩ := hasParam_of_mem hparams hx
      exact ⟨t, ht.1⟩
  | call m callee args typeArgs attrs =>
    obtain ⟨as, r, relations, ts, -, -, -, hm⟩ := h
    obtain rfl := mem_singleton.1 hn
    exact ⟨r, hm⟩
  | letIn m x value body =>
    obtain ⟨v, t, b, -, hx, -, -, -, -, hm⟩ := h
    rcases mem_cons.1 hn with rfl | hn
    · exact ⟨b, hm⟩
    · obtain rfl := mem_singleton.1 hn
      exact ⟨t, hx⟩
  | tuple m fields =>
    obtain ⟨ts, -, hm⟩ := h
    obtain rfl := mem_singleton.1 hn
    exact ⟨_, hm⟩
  | cond m test whenTrue whenFalse =>
    obtain ⟨c, t, u, -, -, -, -, -, hm⟩ := h
    obtain rfl := mem_singleton.1 hn
    exact ⟨t, hm⟩
  | global | op | ctor | proj | matchOn => cases hsimple

theorem neat_of_core (hcore : e.isCore = true) : Neat Ty.isPlain e where
  written d hd t ht := by
    have hbasic := (Expr.isCore_iff.1 hcore d hd).2 t ht
    exact ⟨Ty.everywhere_of_basic hbasic, Ty.closed_of_basic hbasic⟩
  builds c hc d hd := by
    have hd := Expr.isCore_part hcore (Expr.parts_of_child hc hd)
    cases d with
    | constant n k =>
      intro t ht
      obtain ⟨t', ht', hbasic⟩ := Expr.constant_of_core hd
      rw [ht, Except.ok.injEq] at ht'
      rw [ht']
      exact Ty.everywhere_of_basic hbasic
    | fn n params body ret typeParams relations =>
      intro as r has hr
      obtain ⟨rfl, rfl⟩ := Expr.fn_of_core hd
      exact .func Ty.shallow_isPlain has hr
    | _ => trivial

end

/-- The types noted for the nodes, with one type put in for all cells that are left. -/
def readOff (s : State) (ρ : Ty) (n : Serial) : Ty :=
  match s.note? n with
  | some t => (s.engine.store.resolve t).mapCells fun _ => ρ
  | none => ρ

theorem readOff_eq {s : State} {n : Serial} {t : Ty} (hn : s.note? n = some t) (ρ : Ty) :
    readOff s ρ n = (s.engine.store.resolve t).mapCells fun _ => ρ := by
  rw [readOff, hn]

/-- What is known when a core expression has been typed: what was noted obeys the rules, whatever is
put in for cells, and no typing has been lost. -/
structure CoreRun (Γ : Context) (e : Expr) (begun : State) (t : Ty) (s : State) : Prop where
  wellScoped : e.wellScoped [] = true
  noteKeys : s.nodeTypes.keys.Nodup
  mem_serials : ∀ {n u}, s.note? n = some u → n ∈ e.serials
  hasType : ∀ f, s.engine.store.Models f → (∀ c, Ty.Everywhere Ty.isPlain (f c)) →
    ((Whole.of e.serials [] begun s).reading Γ Ty.isPlain f).HasType Γ e (t.mapCells f)
  obeys : ∀ f, s.engine.store.Models f → (∀ c, Ty.Everywhere Ty.isPlain (f c)) →
    ∀ d ∈ e.parts, ((Whole.of e.serials [] begun s).reading Γ Ty.isPlain f).Obeys Γ d
  onTrack : ∀ τ, ∃ expected, (t, τ e.serial) ∈ expected ∧ OnTrack τ (e.Typing τ) expected s

theorem start_onTrack (τ : Serial → Ty) (H : Prop) (session : Session) :
    OnTrack τ H [] (start session) := by
  have hvalue (c : Cell) : (start session).engine.store.value c = .cell c := Store.value_empty _ c
  exact
    { valid := (start_ready session).valid.store
      values := fun c => by rw [hvalue]; exact .cell Ty.shallow_isPlain c
      owned := forall_mem_nil _
      plain := forall_mem_nil _
      noted := forall_mem_nil _
      calls := forall_mem_nil _
      scrutinees := rfl
      idle := ⟨rfl, rfl⟩
      possible := fun _ =>
        ⟨.cell, fun c => by rw [hvalue]; rfl, forall_mem_nil _⟩ }

section

variable {Γ : Context} {solve : Global → InferM Unit} {e : Expr} {session : Session} {t : Ty}
  {s : State}

theorem start_decides (hcore : e.isCore = true) (τ : Serial → Ty) :
    Decides (e.Typing τ) (infer Γ solve e []) (start session) fun t s =>
      e.wellScoped [] = true ∧ Meets τ (e.Typing τ) [] t (τ e.serial) s :=
  infer_decides e hcore τ (e.Typing τ) [] [] (start session) (start_onTrack _ _ _)
    (forall_mem_nil _) fun h => ⟨h.wellScoped, h.rules⟩

theorem infer_coreRun (hcore : e.isCore = true) (htree : e.serials.Nodup)
    (h : infer Γ solve e [] (start session) = .ok t s) : CoreRun Γ e (start session) t s := by
  have hvalid := (start_ready session).valid
  have hrun : infer Γ refuse e [] (start session) = .ok t s := by
    rw [← h]
    refine infer_coincide hvalid (fun g hg => ?_) []
    cases Expr.isSimple_of_core hcore (Expr.global_mem_parts hg)
  have htouches := infer_touches (refuse_within fun _ => False) hvalid hrun
  have hsound (f : Cell → Ty) (hf : s.engine.store.Models f)
      (hqf : ∀ c, Ty.Everywhere Ty.isPlain (f c)) :
      Sound Γ Ty.isPlain (.of e.serials [] (start session) s) f e t := by
    refine Reader.infers_soundly ⟨Ty.shallow_isPlain, htree, rfl, hf, hqf⟩ e (fun d hd href => ?_)
      (neat_of_core hcore) (.self hrun hvalid htouches.valid.store fun _ _ => rfl) (by simp)
    rw [Expr.isReference_of_core (Expr.isCore_part hcore hd)] at href
    cases href
  refine
    { wellScoped := ((start_decides hcore fun _ => .bool).of_ok h).1
      noteKeys := htouches.noteKeys nodup_nil
      mem_serials := fun {n u} hn => ?_
      hasType := fun f hf hqf => (hsound f hf hqf).type
      obeys := fun f hf hqf => (hsound f hf hqf).parts
      onTrack := fun τ => ?_ }
  · -- What is not noted on the way is not noted at all.
    by_contra hmem
    rw [htouches.note_eq (not_or.2 ⟨hmem, id⟩) rfl] at hn
    cases hn
  · obtain ⟨-, expected, -, ht, h⟩ := (start_decides hcore τ).of_ok h
    exact ⟨expected, ht, h⟩

namespace CoreRun

variable {begun : State} (run : CoreRun Γ e begun t s) {n : Serial} {u : Ty}

include run

theorem store : s.engine.store.Valid := by
  obtain ⟨expected, -, h⟩ := run.onTrack fun _ => .bool
  exact h.valid

theorem values (c : Cell) : Ty.Everywhere Ty.isPlain (s.engine.store.value c) := by
  obtain ⟨expected, -, h⟩ := run.onTrack fun _ => .bool
  exact h.values c

theorem plain_note (hn : s.note? n = some u) : Ty.Everywhere Ty.isPlain u := by
  obtain ⟨x, hx, rfl⟩ := Option.map_eq_some_iff.1 hn
  obtain ⟨expected, -, h⟩ := run.onTrack fun _ => .bool
  exact h.plain _ (h.noted _ (Table.mem_entries_of_get? hx))

section

variable (hcore : e.isCore = true)

include hcore

theorem exists_note (hn : n ∈ e.serials) : ∃ u, s.note? n = some u := by
  obtain ⟨d, hd, hn⟩ := Expr.exists_part_of_serial hn
  have hobeys := run.obeys _ (run.store.models_value .cell) (fun c => ?_) d hd
  · obtain ⟨u, hu⟩ := annotated_of_obeys (Expr.isCore_part hcore hd) hobeys hn
    obtain ⟨v, hv, -⟩ := Option.map_eq_some_iff.1 hu
    exact ⟨v, hv⟩
  · rw [Ty.mapCells_id]
    exact run.values c

omit hcore in
/-- A typing is what was noted, where that is definite. -/
theorem typing_eq {τ : Serial → Ty} (hτ : e.Typing τ) (hn : s.note? n = some u)
    (hclosed : (s.engine.store.resolve u).cellOccurrences = []) :
    τ n = s.engine.store.resolve u := by
  obtain ⟨x, hx, rfl⟩ := Option.map_eq_some_iff.1 hn
  obtain ⟨expected, -, h⟩ := run.onTrack τ
  obtain ⟨f, hf, hfits⟩ := h.possible hτ
  calc τ n = x.2.mapCells f := (hfits _ (h.noted _ (Table.mem_entries_of_get? hx))).symm
    _ = (s.engine.store.resolve x.2).mapCells f := (hf.resolve x.2).symm
    _ = s.engine.store.resolve x.2 := Ty.mapCells_closed hclosed f

/-- Whatever is put in for the cells that are left, the result is a typing. -/
theorem typing_readOff {ρ : Ty} (hρ : ρ.basic = true) : e.Typing (readOff s ρ) := by
  have hplainρ (c : Cell) :
      Ty.Everywhere Ty.isPlain ((s.engine.store.value c).mapCells fun _ => ρ) :=
    (run.values c).mapCells Ty.shallow_isPlain fun _ => Ty.everywhere_of_basic hρ
  have hmodels := run.store.models_value fun _ => ρ
  have hread (u : Ty) : u.mapCells (fun c => (s.engine.store.value c).mapCells fun _ => ρ) =
      (s.engine.store.resolve u).mapCells fun _ => ρ := by
    rw [Store.resolve_eq, Ty.mapCells_mapCells]
  refine ⟨run.wellScoped, fun d hd => ?_, fun n _ => ?_⟩
  · refine simplyTyped_of_obeys (fun {n u} hn => ?_) (fun {u v} huv => ?_)
      (fun {n as r ps rs} hn => ?_) (Expr.isCore_part hcore hd) (run.obeys _ hmodels hplainρ d hd)
    · obtain ⟨v, hv, rfl⟩ := Option.map_eq_some_iff.1 hn
      rw [readOff_eq (s := s) hv, hread]
    · obtain ⟨hagree, hu, hv⟩ := huv
      exact Ty.eq_of_agree (Ty.plain_iff_everywhere.2 hu) (Ty.plain_iff_everywhere.2 hv) hagree
    · obtain ⟨v, hv, hfunc⟩ := Option.map_eq_some_iff.1 hn
      have hplain := (run.plain_note hv).mapCells Ty.shallow_isPlain hplainρ
      rw [hfunc] at hplain
      exact hplain.top.2
  · have hclosed := Ty.closed_of_basic hρ
    unfold readOff
    split
    · rw [eq_nil_iff_forall_not_mem]
      intro c hc
      obtain ⟨_, -, hc⟩ := Ty.mem_cellOccurrences_mapCells.1 hc
      rw [hclosed] at hc
      exact absurd hc not_mem_nil
    · exact hclosed

/-- A cell that is left gives two typings. -/
theorem exists_two_typings (hn : s.note? n = some u)
    (hopen : (s.engine.store.resolve u).cellOccurrences ≠ []) :
    ∃ τ τ', e.Typing τ ∧ e.Typing τ' ∧ ∃ n ∈ e.serials, τ n ≠ τ' n := by
  refine ⟨readOff s (.tuple []), readOff s (.tuple [.tuple []]), run.typing_readOff hcore rfl,
    run.typing_readOff hcore rfl, n, run.mem_serials hn, fun heq => ?_⟩
  obtain ⟨c, hc⟩ := exists_mem_of_ne_nil _ hopen
  rw [readOff_eq hn, readOff_eq hn] at heq
  have hne : Ty.tuple [] = Ty.tuple [.tuple []] := Ty.eq_of_mapCells_eq heq hc
  simp at hne

/-- If everything noted is definite, what was noted is the only typing. -/
theorem uniqueTyping
    (hclosed : ∀ {n u}, s.note? n = some u → (s.engine.store.resolve u).cellOccurrences = []) :
    e.UniqueTyping (readOff s .bool) where
  typing := run.typing_readOff hcore rfl
  unique τ hτ n hn := by
    obtain ⟨u, hu⟩ := run.exists_note hcore hn
    rw [run.typing_eq hτ hu (hclosed hu), readOff_eq hu, Ty.mapCells_closed (hclosed hu)]

theorem resolve_eq_readOff
    (hclosed : ∀ {n u}, s.note? n = some u → (s.engine.store.resolve u).cellOccurrences = []) :
    s.engine.store.resolve t = readOff s .bool e.serial := by
  have hread {ρ : Ty} (hρ : ρ.basic = true) : ∃ u, s.note? e.serial = some u ∧
      (s.engine.store.resolve t).mapCells (fun _ => ρ) = s.engine.store.resolve u := by
    have htype := run.hasType _ (run.store.models_value fun _ => ρ) fun c =>
      (run.values c).mapCells Ty.shallow_isPlain fun _ => Ty.everywhere_of_basic hρ
    obtain ⟨u, hu, heq⟩ := Option.map_eq_some_iff.1 (hasType_of_core hcore htype)
    refine ⟨u, hu, ?_⟩
    rw [← Ty.mapCells_mapCells, ← Ty.mapCells_mapCells, ← Store.resolve_eq, ← Store.resolve_eq,
      Ty.mapCells_closed (hclosed hu)] at heq
    exact heq.symm
  obtain ⟨u, hu, hbool⟩ := hread (ρ := .bool) rfl
  obtain ⟨v, hv, hunit⟩ := hread (ρ := .tuple []) rfl
  obtain rfl : u = v := by
    rw [hu, Option.some.injEq] at hv
    exact hv
  have hdefinite : (s.engine.store.resolve t).cellOccurrences = [] := by
    rw [eq_nil_iff_forall_not_mem]
    intro c hc
    have hne : Ty.bool = .tuple [] := Ty.eq_of_mapCells_eq (hbool.trans hunit.symm) hc
    cases hne
  rw [readOff_eq hu, Ty.mapCells_closed (hclosed hu), ← hbool, Ty.mapCells_closed hdefinite]

end

end CoreRun

theorem resolve_of_owned (hs : s.engine.store.Valid) (ht : s.engine.store.ownsAll t = true) :
    ∃ s', resolve t s = .ok (s.engine.store.resolve t) s' ∧ Looks s s' := by
  obtain ⟨σ, hresolve, -⟩ := StoreM.resolve_ok hs ht
  have hrun : resolve t s =
      .ok (s.engine.store.resolve t) { s with engine := s.engine.moved σ } := by
    simp only [resolve, onEngine, EngineM.onStore_of_ok hresolve]
  exact ⟨_, hrun, resolve_looks hs hrun⟩

theorem finalTypes_outcome {nodes : List (Serial × (Phrase × Ty))} (hs : s.engine.store.Valid)
    (howned : ∀ x ∈ nodes, s.engine.store.ownsAll x.2.2 = true) :
    (∃ final s', finalTypes nodes s = .ok final s') ∨
      ∃ i s', finalTypes nodes s = .error (.issue i) s' ∧ i.kind = .ambiguousType ∧
        ∃ x ∈ nodes, (s.engine.store.resolve x.2.2).cellOccurrences ≠ [] := by
  induction nodes generalizing s with
  | nil => exact .inl ⟨[], s, rfl⟩
  | cons x rest ih =>
    obtain ⟨n, site, t⟩ := x
    rw [forall_mem_cons] at howned
    obtain ⟨s₁, hresolve, hlooks⟩ := resolve_of_owned hs howned.1
    unfold finalTypes
    rw [bind_of_ok hresolve]
    cases hcells : (s.engine.store.resolve t).cells with
    | cons c cs =>
      have hc : c ∈ (s.engine.store.resolve t).cellOccurrences :=
        Ty.mem_cells.1 (hcells ▸ (.head _))
      exact .inr ⟨_, _, rfl, rfl, _, .head _, ne_nil_of_mem hc⟩
    | nil =>
      have howned₁ : ∀ x ∈ rest, s₁.engine.store.ownsAll x.2.2 = true := fun x hx => by
        rw [hlooks.kept.view.ownsAll_eq]
        exact howned.2 x hx
      rcases ih hlooks.kept.valid howned₁ with
        ⟨final, s', hmore⟩ | ⟨i, s', hmore, hkind, x, hx, hopen⟩
      · exact .inl ⟨(n, s.engine.store.resolve t) :: final, s', bind_of_ok hmore⟩
      · rw [hlooks.kept.view.resolve_eq] at hopen
        exact .inr ⟨i, s', bind_of_error hmore, hkind, x, .tail _ hx, hopen⟩

theorem markCalls_ok {calls : List (Serial × List Ty)} (h : ∀ x ∈ calls, x.2 = []) (s : State) :
    ∃ s', markCalls calls s = .ok () s' := by
  induction calls generalizing s with
  | nil => exact ⟨s, rfl⟩
  | cons x rest ih =>
    obtain ⟨n, ts⟩ := x
    rw [forall_mem_cons] at h
    obtain rfl : ts = [] := h.1
    exact ih h.2 _

theorem annotate_outcome {τ : Serial → Ty} {H : Prop} {expected : List (Ty × Ty)}
    (h : OnTrack τ H expected s) :
    (∃ s', annotate s = .ok () s') ∨
      ∃ i s', annotate s = .error (.issue i) s' ∧ i.kind = .ambiguousType ∧
        ∃ x ∈ s.nodeTypes.entries, (s.engine.store.resolve x.2.2).cellOccurrences ≠ [] := by
  have hsubjects : checkSubjects [] s = .ok () s := rfl
  unfold annotate
  rw [get_bind, h.scrutinees, bind_of_ok hsubjects, get_bind]
  have howned : ∀ x ∈ s.nodeTypes.entries, s.engine.store.ownsAll x.2.2 = true := fun x hx =>
    h.owned _ (h.noted x hx)
  rcases finalTypes_outcome h.valid howned with ⟨final, s₁, hfinal⟩ | ⟨i, s₁, hfinal, hrest⟩
  · obtain ⟨-, -, hlooks⟩ := finalTypes_eq_ok h.valid hfinal
    rw [bind_of_ok hfinal]
    have hcalls : ∀ x ∈ s₁.callArgs.entries, x.2 = [] := by
      rw [hlooks.rest_eq]
      exact h.calls
    exact .inl (markCalls_ok hcalls _)
  · exact .inr ⟨i, s₁, bind_of_error hfinal, hrest⟩

/-- How typing a core expression can end: with its only typing, because it has several, or because
it has none. -/
inductive CoreOutcome (e : Expr) : EStateM.Result Fault State Ty → Prop
  | typed {τ : Serial → Ty} {s : State} : e.UniqueTyping τ →
      (∀ n ∈ e.serials, s.session.marks.type? n = some (τ n)) →
      CoreOutcome e (.ok (τ e.serial) s)
  | ambiguous {i : Issue} {s : State} : i.kind = .ambiguousType →
      (∃ τ τ', e.Typing τ ∧ e.Typing τ' ∧ ∃ n ∈ e.serials, τ n ≠ τ' n) →
      CoreOutcome e (.error (.issue i) s)
  | refused {i : Issue} {s : State} : i.kind ≠ .ambiguousType → (∀ τ, ¬ e.Typing τ) →
      CoreOutcome e (.error (.issue i) s)

theorem typeExpr_outcome (hcore : e.isCore = true) (htree : e.serials.Nodup) (session : Session) :
    CoreOutcome e (typeExpr Γ e (start session)) := by
  unfold typeExpr
  cases hinfer : infer Γ (Inference.solve Γ) e [] (start session) with
  | error fault s =>
    rw [bind_of_error hinfer]
    have hnone (τ : Serial → Ty) := (start_decides hcore τ).of_error hinfer
    obtain ⟨i, rfl, hkind⟩ := (hnone fun _ => .bool).1
    exact .refused hkind fun τ => (hnone τ).2
  | ok t s =>
    rw [bind_of_ok hinfer]
    have run := infer_coreRun hcore htree hinfer
    obtain ⟨expected, ht, h⟩ := run.onTrack fun _ => .bool
    have hfinish : onEngine (EngineM.finish Γ.registry) s = .ok () s := by
      simp only [onEngine, h.idle.finish Γ.registry]
    rw [bind_of_ok hfinish]
    have hnoted {x : Serial × (Phrase × Ty)} (hx : x ∈ s.nodeTypes.entries) :
        s.note? x.1 = some x.2.2 := by
      have hget : s.nodeTypes.get? x.1 = some x.2 := lookup_of_mem run.noteKeys hx
      rw [State.note?, hget]
      rfl
    rcases annotate_outcome h with ⟨s₁, hannotate⟩ | ⟨i, s₁, hannotate, hkind, x, hx, hopen⟩
    · rw [bind_of_ok hannotate]
      obtain ⟨hmarks, hdefinite⟩ := annotate_annotates h.valid hannotate
      have hclosed {n : Serial} {u : Ty} (hn : s.note? n = some u) :
          (s.engine.store.resolve u).cellOccurrences = [] := by
        obtain ⟨x, hx, rfl⟩ := Option.map_eq_some_iff.1 hn
        exact hdefinite _ (Table.mem_entries_of_get? hx)
      have howned : s₁.engine.store.ownsAll t = true := by
        rw [hmarks.kept.view.ownsAll_eq]
        exact h.owned _ ht
      obtain ⟨s₂, hresolve, hlooks⟩ := resolve_of_owned hmarks.kept.valid howned
      rw [hresolve, hmarks.kept.view.resolve_eq, run.resolve_eq_readOff hcore hclosed]
      refine .typed (run.uniqueTyping hcore hclosed) fun n hn => ?_
      obtain ⟨u, hu⟩ := run.exists_note hcore hn
      obtain ⟨x, hx, rfl⟩ := Option.map_eq_some_iff.1 hu
      rw [hlooks.rest_eq, readOff_eq hu, Ty.mapCells_closed (hclosed hu), Marks.type?,
        hmarks.types_eq]
      have hnewer : n ∉ ([] : List (Serial × Ty)).map Prod.fst := not_mem_nil
      exact lookup_marked (fun x => s.engine.store.resolve x.2) run.noteKeys hx hnewer
    · rw [bind_of_error hannotate]
      exact .ambiguous hkind (run.exists_two_typings hcore (hnoted hx) hopen)

end

/-- Inference decides typability in the core. Typing a core expression in which no node is used and
no variable bound twice succeeds exactly when the expression has one typing and no other, and then
it is marked with that typing and its type is the result. It ends in an ambiguity exactly when there
is more than one typing, and in any other type error exactly when there is none. -/
theorem typeOf_decides_typability {e : Expr} (hcore : e.isCore = true)
    (htree : e.serials.Nodup) (m : Module) (operators : Operators) (registry : Registry)
    (session : Session) :
    ((∃ t session', m.typeOf operators registry e session = .ok t session') ↔
        ∃ τ, e.UniqueTyping τ) ∧
      (∀ τ, e.UniqueTyping τ → ∃ session',
        m.typeOf operators registry e session = .ok (τ e.serial) session' ∧
          ∀ n ∈ e.serials, session'.marks.type? n = some (τ n)) ∧
      ((∃ i session', m.typeOf operators registry e session = .error (.issue i) session' ∧
          i.kind = .ambiguousType) ↔
        ∃ τ τ', e.Typing τ ∧ e.Typing τ' ∧ ∃ n ∈ e.serials, τ n ≠ τ' n) ∧
      ((∃ i session', m.typeOf operators registry e session = .error (.issue i) session' ∧
          i.kind ≠ .ambiguousType) ↔ ¬ ∃ τ, e.Typing τ) := by
  have houtcome := typeExpr_outcome hcore htree session
    (Γ := { module := m, operators, registry, groups := m.groups })
  -- More than one typing leaves none that is the only one.
  have hseveral {τ : Serial → Ty} (hτ : e.UniqueTyping τ) :
      ¬ ∃ τ τ', e.Typing τ ∧ e.Typing τ' ∧ ∃ n ∈ e.serials, τ n ≠ τ' n := by
    rintro ⟨τ₁, τ₂, h₁, h₂, n, hn, hne⟩
    exact hne ((hτ.unique τ₁ h₁ n hn).trans (hτ.unique τ₂ h₂ n hn).symm)
  unfold Module.typeOf
  dsimp only
  generalize typeExpr _ e (start session) = result at houtcome ⊢
  cases houtcome with
  | @typed τ s hτ hmarks =>
    refine ⟨⟨fun _ => ⟨τ, hτ⟩, fun _ => ⟨_, _, rfl⟩⟩, fun τ' hτ' => ?_, ⟨?_, fun h => ?_⟩,
      ⟨?_, fun h => ?_⟩⟩
    · have heq := hτ.unique τ' hτ'.typing
      rw [heq _ (hτ.typing.serial_mem hcore)]
      exact ⟨s.session, rfl, fun n hn => by rw [heq n hn, hmarks n hn]⟩
    · rintro ⟨i, session', hrun, -⟩
      cases hrun
    · exact absurd h (hseveral hτ)
    · rintro ⟨i, session', hrun, -⟩
      cases hrun
    · exact absurd ⟨τ, hτ.typing⟩ h
  | @ambiguous i s hkind htwo =>
    refine ⟨⟨?_, fun h => ?_⟩, fun τ hτ => ?_, ⟨fun _ => htwo, fun _ => ⟨i, _, rfl, hkind⟩⟩,
      ⟨?_, fun h => ?_⟩⟩
    · rintro ⟨t, session', hrun⟩
      cases hrun
    · obtain ⟨τ, hτ⟩ := h
      exact absurd htwo (hseveral hτ)
    · exact absurd htwo (hseveral hτ)
    · rintro ⟨j, session', hrun, hne⟩
      cases hrun
      exact absurd hkind hne
    · obtain ⟨τ, -, hτ, -⟩ := htwo
      exact absurd ⟨τ, hτ⟩ h
  | @refused i s hkind hnone =>
    refine ⟨⟨?_, fun h => ?_⟩, fun τ hτ => ?_, ⟨?_, fun h => ?_⟩, ⟨fun _ h => ?_, fun _ => ?_⟩⟩
    · rintro ⟨t, session', hrun⟩
      cases hrun
    · obtain ⟨τ, hτ⟩ := h
      exact absurd hτ.typing (hnone τ)
    · exact absurd hτ.typing (hnone τ)
    · rintro ⟨j, session', hrun, heq⟩
      cases hrun
      exact absurd heq hkind
    · obtain ⟨τ, -, hτ, -⟩ := h
      exact absurd hτ (hnone τ)
    · obtain ⟨τ, hτ⟩ := h
      exact hnone τ hτ
    · exact ⟨i, _, rfl, hkind⟩

namespace Closed

def x : Var := ⟨⟨1, "x"⟩, none⟩

def f : Var := ⟨⟨2, "f"⟩, none⟩

/-- The function `x ↦ if true then f(x) else x`. -/
def step : Expr :=
  .fn 3 [x] (.cond 4 (.constant 5 ⟨"bool", [], .bool true⟩) (.call 6 (.var f) [.var x] none .empty)
    (.var x)) none [] []

/-- The expression `let f = step; f([1, 2])`, in which `f` calls itself. -/
def loop : Expr :=
  .letIn 7 f step (.call 8 (.var f)
    [.constant 9 ⟨"int32", [.value (.int 2)], .list [.int 1, .int 2]⟩] none .empty)

def identity : Expr := .fn 3 [x] (.var x) none [] []

def selfApplied : Expr := .fn 3 [x] (.call 4 (.var x) [.var x] none .empty) none [] []

def issueKind? (e : Expr) : Option IssueKind :=
  match Module.empty.typeOf {} .standard e { supply := ⟨9⟩ } with
  | .error (.issue i) _ => some i.kind
  | _ => none

theorem exists_issue {e : Expr} {kind : IssueKind} (h : issueKind? e = some kind) :
    ∃ i session, Module.empty.typeOf {} .standard e { supply := ⟨9⟩ } =
      .error (.issue i) session ∧ i.kind = kind := by
  unfold issueKind? at h
  split at h
  · next i session hrun => exact ⟨i, session, hrun, Option.some.inj h⟩
  · cases h

end Closed

/-- A function that calls itself has one typing, the identity has more than one, and a function that
is applied to itself has none. -/
theorem typeOf_decides_typability_closed :
    (Closed.loop.isCore = true ∧ Closed.loop.serials.Nodup ∧ ∃ τ, Closed.loop.UniqueTyping τ) ∧
      (Closed.identity.isCore = true ∧ Closed.identity.serials.Nodup ∧
        ∃ τ τ', Closed.identity.Typing τ ∧ Closed.identity.Typing τ' ∧
          ∃ n ∈ Closed.identity.serials, τ n ≠ τ' n) ∧
      Closed.selfApplied.isCore = true ∧ Closed.selfApplied.serials.Nodup ∧
        ¬ ∃ τ, Closed.selfApplied.Typing τ := by
  refine ⟨⟨rfl, by decide, ?_⟩, ⟨rfl, by decide, ?_⟩, rfl, by decide, ?_⟩
  · have hsucceeds :
        succeeds (Module.empty.typeOf {} .standard Closed.loop) { supply := ⟨9⟩ } = true := by
      decide +kernel
    obtain ⟨t, hrun⟩ := succeeds_iff.1 hsucceeds
    exact (typeOf_decides_typability rfl (by decide) _ _ _ _).1.1 ⟨t, _, hrun⟩
  · have hkind : Closed.issueKind? Closed.identity = some .ambiguousType := by decide +kernel
    exact (typeOf_decides_typability rfl (by decide) _ _ _ _).2.2.1.1 (Closed.exists_issue hkind)
  · have hkind : Closed.issueKind? Closed.selfApplied = some .occursCheck := by decide +kernel
    obtain ⟨i, session, hrun, heq⟩ := Closed.exists_issue hkind
    refine (typeOf_decides_typability rfl (by decide) _ _ _ _).2.2.2.1 ⟨i, session, hrun, ?_⟩
    rw [heq]
    decide

end Inference

end TensorTyping
