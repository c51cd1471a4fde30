import TensorTyping.Proofs.Inference.Conduct

/-!
# Typing expressions to a discipline

If the types written in an expression conform to a discipline, and so do the settings of its calls
and relations, then typing the expression keeps to the discipline (`infer_conforms`). The proof
follows the expression, one lemma for each form.
-/
namespace TensorTyping

open List

/-- A condition passes to the type of a node if it holds of the types of constants and of whatever
function type has the parameters and relations of the node. -/
theorem Inference.Builds.of_written {q : Ty → Prop} {d : Expr}
    (hconstant : ∀ s dtype, q (.tensor s dtype))
    (hfn : ∀ as r, q (.func as r d.typeParams d.relations))
    (hwritten : ∀ t ∈ d.written, Ty.Everywhere q t) : Builds q d := by
  cases d with
  | constant n c =>
    intro t ht
    unfold Ty.ofEntries at ht
    split at ht
    · cases ht
      exact .intro (hconstant _ _) fun _ hu => absurd hu not_mem_nil
    · cases ht
  | fn n params body ret ps rs =>
    intro as r has hr
    apply Ty.Everywhere.intro (hfn as r)
    intro u hu
    simp only [Ty.children, mem_append, mem_cons] at hu
    rcases hu with hu | rfl | hu
    · exact has u hu
    · exact hr
    · exact hwritten u (mem_append_right _ hu)
  | _ => trivial

namespace Discipline

open Inference

variable {D : Discipline} {Γ : Context} {mentioned : Global → Prop} {s s' : State}
variable {t : Ty}

/-- The types, settings, relations and literals written in an expression are all right, so are the
types of the constants and functions inside it, and its phrases may be blamed. -/
structure Admits (D : Discipline) (e : Expr) : Prop where
  neat : Neat D.part e
  settings : ∀ d ∈ e.parts, ∀ attrs, d.settings? = some attrs → D.added attrs
  relations : ∀ d ∈ e.parts, ∀ r ∈ d.relations, D.setting r.name r.attrs
  literals : ∀ d ∈ e.parts, ∀ c, d.literal? = some c → ∀ f, Ty.ofEntries c.shape c.dtype = .error f →
    ∀ s, D.stops f s
  phrases : ∀ p ∈ e.phrases, D.phrase p

namespace Admits

variable {e c : Expr}

theorem child (h : D.Admits e) (hc : c ∈ e.children) : D.Admits c where
  neat := h.neat.child hc
  settings d hd := h.settings d (Expr.parts_of_child hc hd)
  relations d hd := h.relations d (Expr.parts_of_child hc hd)
  literals d hd := h.literals d (Expr.parts_of_child hc hd)
  phrases p hp := by
    obtain ⟨d, hd, hp⟩ := mem_flatMap.1 hp
    exact h.phrases p (mem_flatMap.2 ⟨d, Expr.parts_of_child hc hd, hp⟩)

theorem own (h : D.Admits e) {p : Phrase} (hp : p ∈ e.ownPhrases) : D.phrase p :=
  h.phrases p (mem_flatMap.2 ⟨e, e.self_mem_parts, hp⟩)

theorem self (h : D.Admits e) : D.phrase (.expr e) := h.own e.self_mem_ownPhrases

theorem written (h : D.Admits e) (ht : t ∈ e.written) : D.Allows t := h.neat.self ht

end Admits

/-- Typing the expression keeps to the discipline. Its type belongs to the store, and is all right
if the expression builds such types. -/
def Conforms (D : Discipline) (Γ : Context) (solve : Global → InferM Unit)
    (mentioned : Global → Prop) (e : Expr) : Prop :=
  ∀ env s, D.Proper Γ mentioned s → D.FairEnv s.engine.store env →
    D.Safe Γ mentioned (infer Γ solve e env) s fun t S =>
      S.ownsAll t = true ∧ (Builds D.part e → D.Fair S t)

section

variable (hfits : D.Fits Γ mentioned) {solve : Global → InferM Unit}
variable {env : Env} {n : Serial} {params : List Var} {body : Expr} {ret : Option Ty}
  {typeParams : List TypeParam} {relations : List TypeRelation}
variable {e : Expr} {clauses : List (Pattern × Expr)} {ts : List Ty}

theorem typed_conforms (hD : D.Coherent Γ.registry) {act : InferM Ty} (hp : D.phrase (.expr e))
    (hact : D.Safe Γ mentioned act s fun t S => D.Fair S t) :
    D.Safe Γ mentioned (typed e act) s fun t S =>
      S.ownsAll t = true ∧ (Builds D.part e → D.Fair S t) := by
  apply typed_safe hD hp
  · exact hact.mono fun t S ht => ⟨ht.1, fun _ => ht⟩
  · exact fun t S ht => ht.1

theorem inferList_safe {es : List Expr} (hes : ∀ e ∈ es, D.Conforms Γ solve mentioned e)
    (hbuilds : ∀ e ∈ es, Builds D.part e) (h : D.Proper Γ mentioned s)
    (henv : D.FairEnv s.engine.store env) :
    D.Safe Γ mentioned (inferList Γ solve es env) s fun ts S => ∀ t ∈ ts, D.Fair S t := by
  induction es generalizing s with
  | nil =>
    unfold inferList
    exact .pure h fun t ht => absurd ht not_mem_nil
  | cons e es ih =>
    rw [forall_mem_cons] at hes hbuilds
    unfold inferList
    apply (hes.1 env s h henv).bind
    intro t s₁ hs₁ h₁ ht
    apply (ih hes.2 hbuilds.2 hs₁ (henv.proceeds h₁)).bind
    intro ts s₂ hs₂ h₂ hts
    exact .pure hs₂ (forall_mem_cons.2 ⟨(ht.2 hbuilds.1).proceeds h₂, hts⟩)

include hfits

theorem inferClauses_safe {subject : Ty}
    (hbodies : ∀ c ∈ clauses, D.Conforms Γ solve mentioned c.2 ∧ Builds D.part c.2 ∧
      D.phrase (.expr c.2)) (hwritten : ∀ c ∈ clauses, ∀ t ∈ c.1.written, D.Allows t)
    (hphrases : ∀ c ∈ clauses, ∀ x ∈ c.1.phrases, D.phrase x) (h : D.Proper Γ mentioned s)
    (hsubject : D.Fair s.engine.store subject) (henv : D.FairEnv s.engine.store env) :
    D.Safe Γ mentioned (inferClauses Γ solve subject clauses env) s fun bs S =>
      ∀ b ∈ bs, D.phrase (.expr b.1) ∧ D.Fair S b.2 := by
  induction clauses generalizing s with
  | nil =>
    unfold inferClauses
    exact .pure h fun b hb => absurd hb not_mem_nil
  | cons c clauses ih =>
    obtain ⟨p, body⟩ := c
    rw [forall_mem_cons] at hbodies hwritten hphrases
    obtain ⟨⟨hbody, hbuilds, hphrase⟩, hbodies⟩ := hbodies
    unfold inferClauses
    apply (checkPattern_safe hfits.coherent p h hsubject hwritten.1 hphrases.1).bind
    intro bound s₁ hs₁ h₁ hbound
    have hsubject₁ := hsubject.proceeds h₁
    apply (noteAt_safe hs₁ (hphrases.1 _ p.self_mem_phrases) hsubject₁.1).bind
    intro _ s₂ hs₂ h₂ _
    have henv₂ := (henv.proceeds h₁).proceeds h₂
    apply (hbody _ s₂ hs₂ ((hbound.proceeds h₂).append henv₂)).bind
    intro t s₃ hs₃ h₃ ht
    apply (ih hbodies hwritten.2 hphrases.2 hs₃ ((hsubject₁.proceeds h₂).proceeds h₃)
      (henv₂.proceeds h₃)).bind
    intro bs s₄ hs₄ h₄ hbs
    exact .pure hs₄ (forall_mem_cons.2 ⟨⟨hphrase, (ht.2 hbuilds).proceeds h₄⟩, hbs⟩)

theorem infer_reference_safe (href : e.isReference = true) (hadmits : D.Admits e)
    (hm : ∀ g ∈ e.mentions, mentioned g) (h : D.Proper Γ mentioned s) :
    D.Safe Γ mentioned (typed e do
      match ← reference Γ solve e none (.expr e) .empty with
      | some (t, _) => return t
      | none => throw .notAFunctionType) s fun t S =>
        S.ownsAll t = true ∧ (Builds D.part e → D.Fair S t) := by
  have hD := hfits.coherent
  apply typed_conforms hD hadmits.self
  apply (reference_safe hfits h hm hadmits.self (fun t ht => hadmits.written ht)
    (forall_mem_nil _) hadmits.self hD.plain).bind
  rintro r s₁ hs₁ - ⟨hsome, hr⟩
  cases r with
  | none => exact absurd (hsome href) (by simp)
  | some r => exact .pure hs₁ (hr r.1 r.2 rfl).1

omit hfits in
theorem fair_fn {S : Store} {result : Ty} (hslots : ∀ r ∈ relations, ∀ a ∈ r.args, D.Allows a)
    (hts : ∀ t ∈ ts, D.Fair S t) (hresult : D.Fair S result) :
    S.ownsAll (.func ts result typeParams relations) = true ∧
      (Builds D.part (.fn n params body ret typeParams relations) →
        D.Fair S (.func ts result typeParams relations)) := by
  have hclosed : ∀ r ∈ relations, ∀ a ∈ r.args, a.cellOccurrences = [] :=
    fun r hr a ha => (hslots r hr a ha).2
  have howned : S.ownsAll (.func ts result typeParams relations) = true := by
    apply Store.ownsAll_of_children rfl
    intro u hu
    simp only [Ty.mem_children_func] at hu
    rcases hu with hu | rfl | ⟨r, hr, hu⟩
    · exact (hts u hu).1
    · exact hresult.1
    · rw [Store.ownsAll_iff, hclosed r hr u hu]
      exact forall_mem_nil _
  refine ⟨howned, fun hbuilds => ⟨howned, ?_⟩⟩
  have hrelations : relations.map (fun r => { r with args := r.args.map (Ty.mapCells S.value) }) =
      relations := by
    conv_rhs => rw [← map_id relations]
    apply map_congr_left
    intro r hr
    rw [Ty.map_mapCells_closed (hclosed r hr)]
    rfl
  unfold Store.Holds
  rw [Store.resolve_eq, Ty.mapCells_func, hrelations]
  apply hbuilds
  · intro a ha
    obtain ⟨t, ht, rfl⟩ := mem_map.1 ha
    rw [← Store.resolve_eq]
    exact (hts t ht).2
  · rw [← Store.resolve_eq]
    exact hresult.2

omit hfits in
theorem FairEnv.extend {S : Store} {env : Env} (h : D.FairEnv S env) (params : List Var)
    {ts : List Ty} (hts : ∀ t ∈ ts, D.Fair S t) : D.FairEnv S (extend env params ts) := by
  apply FairEnv.append _ h
  intro b hb
  obtain ⟨x, hx, rfl⟩ := mem_map.1 (mem_reverse.1 hb)
  exact hts x.2 (of_mem_zip hx).2

theorem infer_fn_conforms (hadmits : D.Admits (.fn n params body ret typeParams relations))
    (hbody : D.Conforms Γ solve mentioned body) :
    D.Conforms Γ solve mentioned (.fn n params body ret typeParams relations) := by
  intro env s h henv
  have hD := hfits.coherent
  have hbuilds : Builds D.part body := hadmits.neat.builds_child (by simp)
  have hphrase : D.phrase (.expr body) := (hadmits.child (by simp)).self
  have hslots : ∀ r ∈ relations, ∀ a ∈ r.args, D.Allows a := fun r hr a ha =>
    hadmits.written (by
      simp only [Expr.written, mem_append, mem_flatMap]
      exact .inr ⟨r, hr, ha⟩)
  have hsettings : ∀ r ∈ relations, D.setting r.name r.attrs :=
    hadmits.relations _ (Expr.self_mem_parts _)
  unfold infer
  extract_lets site
  apply typed_safe hD hadmits.self _ (fun t S ht => ht.1)
  apply withScope_safe
  have hs := h.withScope (s.scope ++ typeParams)
  apply (paramTypes_safe hD hs ?_ ?_).bind
  · intro ts s₁ hs₁ h₁ hts
    apply (hbody _ s₁ hs₁ ((henv.proceeds h₁).extend params hts)).bind
    intro bodyType s₂ hs₂ h₂ ht
    have ht := ht.2 hbuilds
    extract_lets finish
    have hfinish {result : Ty} {s₃ : State} (hs₃ : D.Proper Γ mentioned s₃)
        (h₃ : s₁.engine.store.Proceeds D.part s₃.engine.store)
        (hresult : D.Fair s₃.engine.store result) :
        D.Safe Γ mentioned (finish result) s₃ fun t S => S.ownsAll t = true ∧
          (Builds D.part site → D.Fair S t) := by
      apply (checkWritten_safe hD hs₃ hadmits.self).bind
      intro _ s₄ hs₄ h₄ _
      have hdone {s₅ : State} (hs₅ : D.Proper Γ mentioned s₅)
          (h₅ : s₄.engine.store.Proceeds D.part s₅.engine.store) :
          D.Safe Γ mentioned (pure (.func ts result typeParams relations)) s₅ fun t S =>
            S.ownsAll t = true ∧ (Builds D.part site → D.Fair S t) := by
        apply Safe.pure hs₅
        apply fair_fn hslots
        · exact fun t ht => (hts t ht).proceeds ((h₃.trans h₄).trans h₅)
        · exact (hresult.proceeds h₄).proceeds h₅
      apply Safe.ite
      · intro _
        apply (relateAll_safe hD hs₄ (fun r hr a ha => (hslots r hr a ha).fair _) hadmits.self
          hsettings hD.plain).bind
        exact fun _ s₅ hs₅ h₅ _ => hdone hs₅ h₅
      · exact fun _ => hdone hs₄ (.refl hs₄.store_valid)
    cases ret with
    | none => exact hfinish hs₂ h₂ ht
    | some r =>
      have hr : D.Allows r := hadmits.written (by simp)
      apply (checkWritten_safe hD hs₂ hadmits.self).bind
      intro _ s₃ hs₃ h₃ _
      apply (unify_safe hD hs₃ hphrase (hr.fair _) (ht.proceeds h₃)).bind
      intro _ s₄ hs₄ h₄ _
      exact hfinish hs₄ ((h₂.trans h₃).trans h₄) (hr.fair _)
  · intro x hx a ha
    exact hadmits.written (by
      simp only [Expr.written, mem_append, mem_filterMap]
      exact .inl (.inl ⟨x, hx, ha⟩))
  · intro x hx
    exact hadmits.own (by simp [Expr.ownPhrases, hx])

theorem infer_call_conforms {callee : Expr} {args : List Expr} {typeArgs : Option (List Ty)}
    {attrs : Attrs} (hadmits : D.Admits (.call n callee args typeArgs attrs))
    (hm : ∀ g ∈ callee.mentions, mentioned g)
    (hchildren : ∀ c ∈ callee :: args, D.Conforms Γ solve mentioned c) :
    D.Conforms Γ solve mentioned (.call n callee args typeArgs attrs) := by
  intro env s h henv
  have hD := hfits.coherent
  have hbuilds : ∀ c ∈ callee :: args, Builds D.part c := fun c hc =>
    hadmits.neat.builds_child hc
  have hparts : ∀ c ∈ callee :: args, D.Admits c := fun c hc => hadmits.child hc
  have hattrs : D.added attrs := hadmits.settings _ (Expr.self_mem_parts _) attrs rfl
  have hexplicit : ∀ t ∈ typeArgs.getD [], D.Allows t := fun t ht => hadmits.written ht
  rw [forall_mem_cons] at hchildren hbuilds hparts
  unfold infer
  extract_lets site apply given byType
  apply typed_conforms hD hadmits.self
  -- Once the callee has its type, the rest is the same for all callees.
  have happly {t : Ty} {direct : Option (List Ty)} {s₁ : State}
      (hs₁ : D.Proper Γ mentioned s₁) (henv₁ : D.FairEnv s₁.engine.store env)
      (ht : D.Fair s₁.engine.store t)
      (hdirect : ∀ u ∈ direct.getD [], D.Fair s₁.engine.store u) :
      D.Safe Γ mentioned (apply (t, direct)) s₁ fun t S => D.Fair S t := by
    apply (inferList_safe hchildren.2 hbuilds.2 hs₁ henv₁).bind
    intro ts s₂ hs₂ h₂ hts
    apply (applyTo_safe hD hs₂ hadmits.self (ht.proceeds h₂)
      (fun u hu => (hdirect u hu).proceeds h₂) (fun e he => (hparts.2 e he).self) hts hattrs).bind
    rintro ⟨r, us⟩ s₃ hs₃ h₃ ⟨hr, hus⟩
    apply Safe.modify_bind rfl rfl
    exact .pure (hs₃.call fun u hu => (hus u hu).1) hr
  apply (reference_safe hfits h hm hparts.1.self (fun t ht => hparts.1.written ht) hexplicit
    hadmits.self hattrs).bind
  rintro r s₁ hs₁ h₁ ⟨-, hr⟩
  cases r with
  | none =>
    apply Safe.ite
    · exact fun _ => complain_bind_safe hD (.typeArgumentArity hadmits.self _ _ _)
    · intro _
      apply (hchildren.1 env s₁ hs₁ (henv.proceeds h₁)).bind
      intro t s₂ hs₂ h₂ ht
      exact happly hs₂ ((henv.proceeds h₁).proceeds h₂) (ht.2 hbuilds.1)
        fun u hu => absurd hu not_mem_nil
  | some r =>
    obtain ⟨ht, hus⟩ := hr r.1 r.2 rfl
    apply (note_safe hs₁ hparts.1.self ht.1).bind
    intro _ s₂ hs₂ h₂ _
    exact happly hs₂ ((henv.proceeds h₁).proceeds h₂) (ht.proceeds h₂)
      fun u hu => (hus u hu).proceeds h₂

theorem infer_letIn_conforms {x : Var} {value : Expr} (hadmits : D.Admits (.letIn n x value body))
    (hvalue : D.Conforms Γ solve mentioned value) (hbody : D.Conforms Γ solve mentioned body) :
    D.Conforms Γ solve mentioned (.letIn n x value body) := by
  intro env s h henv
  have hD := hfits.coherent
  have hbuilds : ∀ c ∈ [value, body], Builds D.part c := fun c hc => hadmits.neat.builds_child hc
  have hphrase : D.phrase (.expr value) := (hadmits.child (by simp)).self
  have hvar : D.phrase (.expr (.var x)) := hadmits.own (by simp [Expr.ownPhrases])
  unfold infer
  apply typed_conforms hD hadmits.self
  extract_lets rest
  -- Once the value has its type, the rest is the same for all values.
  have hrest {t : Ty} {s₁ : State} (hs₁ : D.Proper Γ mentioned s₁)
      (henv₁ : D.FairEnv s₁.engine.store env) (ht : D.Fair s₁.engine.store t) :
      D.Safe Γ mentioned (rest t) s₁ fun t S => D.Fair S t := by
    have hinner {s₂ : State} (hs₂ : D.Proper Γ mentioned s₂)
        (h₂ : s₁.engine.store.Proceeds D.part s₂.engine.store) : D.Safe Γ mentioned (do
          note (.var x) t
          infer Γ solve body ((x.serial, t) :: env)) s₂ fun t S => D.Fair S t := by
      have ht₂ := ht.proceeds h₂
      apply (note_safe hs₂ hvar ht₂.1).bind
      intro _ s₃ hs₃ h₃ _
      apply (hbody _ s₃ hs₃ (.cons _ (ht₂.proceeds h₃) ((henv₁.proceeds h₂).proceeds h₃))).mono
      exact fun u S hu => hu.2 (hbuilds body (by simp))
    dsimp only [rest]
    cases ha : x.ascription with
    | none => exact hinner hs₁ (.refl hs₁.store_valid)
    | some a =>
      have hallows : D.Allows a := hadmits.written (by simp [ha])
      apply (checkWritten_safe hD hs₁ hvar).bind
      intro _ s₂ hs₂ h₂ _
      apply (unify_safe hD hs₂ hadmits.self (hallows.fair _) (ht.proceeds h₂)).bind
      exact fun _ s₃ hs₃ h₃ _ => hinner hs₃ (h₂.trans h₃)
  cases hfunction : value.function? with
  | none =>
    apply (hvalue env s h henv).bind
    exact fun t s₁ hs₁ h₁ ht => hrest hs₁ (henv.proceeds h₁) (ht.2 (hbuilds value (by simp)))
  | some f =>
    apply (fresh_safe h).bind
    intro t s₁ hs₁ h₁ ht
    apply (hvalue _ s₁ hs₁ (.cons _ ht (henv.proceeds h₁))).bind
    intro u s₂ hs₂ h₂ hu
    have ht₂ := ht.proceeds h₂
    apply (unify_safe hD hs₂ hphrase ht₂ (hu.2 (hbuilds value (by simp)))).bind
    exact fun _ s₃ hs₃ h₃ _ =>
      hrest hs₃ (((henv.proceeds h₁).proceeds h₂).proceeds h₃) (ht₂.proceeds h₃)

theorem infer_cond_conforms {test whenTrue whenFalse : Expr}
    (hadmits : D.Admits (.cond n test whenTrue whenFalse))
    (htest : D.Conforms Γ solve mentioned test) (htrue : D.Conforms Γ solve mentioned whenTrue)
    (hfalse : D.Conforms Γ solve mentioned whenFalse) :
    D.Conforms Γ solve mentioned (.cond n test whenTrue whenFalse) := by
  intro env s h henv
  have hD := hfits.coherent
  have hbuilds : ∀ c ∈ [test, whenTrue, whenFalse], Builds D.part c := fun c hc =>
    hadmits.neat.builds_child hc
  have hphrase : D.phrase (.expr test) := (hadmits.child (by simp)).self
  have hbool {S : Store} : D.Fair S .bool :=
    .intro hD rfl (hD.tensor [] "bool") fun u hu => absurd hu not_mem_nil
  unfold infer
  apply typed_conforms hD hadmits.self
  apply (htest env s h henv).bind
  intro c s₁ hs₁ h₁ hc
  apply (unify_safe hD hs₁ hphrase hbool (hc.2 (hbuilds test (by simp)))).bind
  intro _ s₂ hs₂ h₂ _
  have henv₂ := (henv.proceeds h₁).proceeds h₂
  apply (htrue env s₂ hs₂ henv₂).bind
  intro t s₃ hs₃ h₃ ht
  have ht := ht.2 (hbuilds whenTrue (by simp))
  apply (hfalse env s₃ hs₃ (henv₂.proceeds h₃)).bind
  intro u s₄ hs₄ h₄ hu
  have ht₄ := ht.proceeds h₄
  apply (unify_safe hD hs₄ hadmits.self ht₄ (hu.2 (hbuilds whenFalse (by simp)))).bind
  exact fun _ s₅ hs₅ h₅ _ => .pure hs₅ (ht₄.proceeds h₅)

theorem infer_matchOn_conforms {subject : Expr} (hadmits : D.Admits (.matchOn n subject clauses))
    (hsubject : D.Conforms Γ solve mentioned subject)
    (hclauses : ∀ e ∈ clauses.map Prod.snd, D.Conforms Γ solve mentioned e) :
    D.Conforms Γ solve mentioned (.matchOn n subject clauses) := by
  intro env s h henv
  have hD := hfits.coherent
  have hbuilds : Builds D.part subject := hadmits.neat.builds_child (by simp)
  have hphrase : D.phrase (.expr subject) := (hadmits.child (by simp)).self
  unfold infer
  apply typed_conforms hD hadmits.self
  apply (hsubject env s h henv).bind
  intro t s₁ hs₁ h₁ ht
  have ht := ht.2 hbuilds
  apply (checkSubject_safe hD hs₁ hphrase ht.1).bind
  intro _ s₂ hs₂ h₂ _
  have ht₂ := ht.proceeds h₂
  have hbodies : ∀ c ∈ clauses, D.Conforms Γ solve mentioned c.2 ∧ Builds D.part c.2 ∧
      D.phrase (.expr c.2) := by
    intro c hc
    have hmem : c.2 ∈ clauses.map Prod.snd := mem_map_of_mem hc
    have hchild : c.2 ∈ (Expr.matchOn n subject clauses).children := .tail _ hmem
    exact ⟨hclauses c.2 hmem, hadmits.neat.builds_child hchild, (hadmits.child hchild).self⟩
  have hwritten : ∀ c ∈ clauses, ∀ u ∈ c.1.written, D.Allows u := fun c hc u hu =>
    hadmits.written (mem_flatMap.2 ⟨c, hc, hu⟩)
  have hphrases : ∀ c ∈ clauses, ∀ x ∈ c.1.phrases, D.phrase x := fun c hc x hx =>
    hadmits.own (.tail _ (mem_flatMap.2 ⟨c, hc, hx⟩))
  apply (inferClauses_safe hfits hbodies hwritten hphrases hs₂ ht₂
    ((henv.proceeds h₁).proceeds h₂)).bind
  intro bs s₃ hs₃ h₃ hbs
  cases bs with
  | nil => exact fresh_safe hs₃
  | cons b bs =>
    rw [forall_mem_cons] at hbs
    apply (unifyBranches_safe hD hs₃ hbs.1.2 hbs.2).bind
    intro _ s₄ hs₄ h₄ _
    apply Safe.modify_bind rfl rfl
    exact .pure (hs₄.subject hphrase ((ht₂.proceeds h₃).proceeds h₄).1) (hbs.1.2.proceeds h₄)

theorem infer_conforms (e : Expr) (hadmits : D.Admits e) (hm : ∀ g ∈ e.mentions, mentioned g) :
    D.Conforms Γ solve mentioned e := by
  have hD := hfits.coherent
  induction e using Expr.induction_children with
  | step e ih =>
    have hchildren : ∀ c ∈ e.children, D.Conforms Γ solve mentioned c := fun c hc =>
      ih c hc (hadmits.child hc) fun g hg => hm g (Expr.mentions_of_child hc hg)
    cases e with
    | var x =>
      intro env s h henv
      unfold infer
      apply typed_conforms hD hadmits.self
      cases hx : env.lookup x.serial with
      | none => exact complain_safe hD (.unboundName hadmits.self _ _)
      | some t => exact .pure h (henv _ (Table.mem_entries_of_get? (t := ⟨env⟩) hx))
    | global g =>
      intro env s h _
      unfold infer
      exact infer_reference_safe hfits rfl hadmits hm h
    | op n name =>
      intro env s h _
      unfold infer
      exact infer_reference_safe hfits rfl hadmits hm h
    | ctor c =>
      intro env s h _
      unfold infer
      exact infer_reference_safe hfits rfl hadmits hm h
    | constant n c =>
      intro env s h _
      unfold infer
      apply typed_safe hD hadmits.self _ (fun t S ht => ht.1)
      cases ht : Ty.ofEntries c.shape c.dtype with
      | ok t =>
        have hclosed := Ty.cellOccurrences_ofEntries ht
        refine .pure h ⟨?_, fun hbuilds => .of_closed (hbuilds t ht) hclosed⟩
        rw [Store.ownsAll_iff, hclosed]
        exact forall_mem_nil _
      | error f =>
        exact Ends.throw (hadmits.literals _ (Expr.self_mem_parts _) c rfl f ht _)
    | fn n params body ret typeParams relations =>
      exact infer_fn_conforms hfits hadmits (hchildren body (by simp))
    | call n callee args typeArgs attrs =>
      apply infer_call_conforms hfits hadmits _ hchildren
      exact fun g hg => hm g (Expr.mentions_of_child (by simp) hg)
    | letIn n x value body =>
      exact infer_letIn_conforms hfits hadmits (hchildren value (by simp))
        (hchildren body (by simp))
    | tuple n fields =>
      intro env s h henv
      unfold infer
      apply typed_conforms hD hadmits.self
      apply (inferList_safe hchildren (fun c hc => hadmits.neat.builds_child hc) h henv).bind
      exact fun ts s₁ hs₁ _ hts => .pure hs₁ (.tuple hD hts)
    | proj n tuple index =>
      intro env s h henv
      unfold infer
      apply typed_conforms hD hadmits.self
      apply (hchildren tuple (by simp) env s h henv).bind
      intro t s₁ hs₁ _ ht
      exact projectFrom_safe hD hs₁ hadmits.self
        (ht.2 (hadmits.neat.builds_child (by simp)))
    | cond n test whenTrue whenFalse =>
      exact infer_cond_conforms hfits hadmits (hchildren test (by simp))
        (hchildren whenTrue (by simp))
        (hchildren whenFalse (by simp))
    | matchOn n subject clauses =>
      exact infer_matchOn_conforms hfits hadmits (hchildren subject (by simp))
        fun e he => hchildren e (.tail _ he)

omit hfits in
theorem scope_notedExpr (s : State) (e : Expr) (t : Ty) : (s.notedExpr e t).scope = s.scope := by
  unfold State.notedExpr
  split <;> rfl

omit hfits in
theorem paramTypes_wellFormed (h : paramTypes Γ params s = .ok ts s') :
    WellFormed Γ.module s.scope (params.filterMap fun x => x.ascription) ∧
      s'.scope = s.scope := by
  induction params generalizing s ts with
  | nil =>
    obtain ⟨-, rfl⟩ := paramTypes_nil_ok_iff.1 h
    exact ⟨rfl, rfl⟩
  | cons x params ih =>
    obtain ⟨t, s₁, us, hfirst, hrest, rfl⟩ := paramTypes_cons_ok_iff.1 h
    obtain ⟨hrest, hscope⟩ := ih hrest
    rw [scope_notedExpr] at hrest hscope
    rcases hfirst with ⟨hnone, hfresh⟩ | ⟨hsome, hwell, rfl⟩
    · rw [(onEngine_eq_ok hfresh).2] at hrest hscope
      rw [filterMap_cons_none hnone]
      exact ⟨hrest, hscope⟩
    · rw [filterMap_cons_some hsome]
      refine ⟨misformedList?_eq_none_iff.2 (forall_mem_cons.2 ⟨?_, ?_⟩), hscope⟩
      · exact misformedList?_eq_none_iff.1 hwell t (.head _)
      · exact misformedList?_eq_none_iff.1 hrest

/-- What is written on a function that gets a type is well formed in the scope of its
parameters. -/
theorem infer_fn_wellFormed (hadmits : D.Admits (.fn n params body ret typeParams relations))
    (hm : ∀ g ∈ body.mentions, mentioned g) (h : D.Proper Γ mentioned s)
    (henv : D.FairEnv s.engine.store env)
    (hrun : infer Γ solve (.fn n params body ret typeParams relations) env s = .ok t s') :
    WellFormed Γ.module (s.scope ++ typeParams)
      (Expr.fn n params body ret typeParams relations).written := by
  have hD := hfits.coherent
  obtain ⟨ts, b, s₁, s₂, s₃, s₄, hparams, hbody, hret, hrelations, -⟩ := infer_fn_ok_iff.1 hrun
  obtain ⟨hwell, hscope₁⟩ := paramTypes_wellFormed hparams
  have hbody_admits : D.Admits body := hadmits.child (by simp)
  have hascribed : ∀ x ∈ params, ∀ a, x.ascription = some a → D.Allows a := fun x hx a ha =>
    hadmits.written (by
      simp only [Expr.written, mem_append, mem_filterMap]
      exact .inl (.inl ⟨x, hx, ha⟩))
  have hphrases : ∀ x ∈ params, D.phrase (.expr (.var x)) := fun x hx =>
    hadmits.own (by simp [Expr.ownPhrases, hx])
  obtain ⟨hs₁, hproceeds₁, hts, -⟩ :=
    (paramTypes_safe hD (h.withScope (s.scope ++ typeParams)) hascribed hphrases).of_ok hparams
  obtain ⟨-, -, -, hscope₂⟩ := (infer_conforms hfits body hbody_admits hm _ s₁ hs₁
    ((henv.proceeds hproceeds₁).extend params hts)).of_ok hbody
  have hscope₃ : s₃.scope = s.scope ++ typeParams ∧
      ∀ a ∈ ret, misformed? Γ.module (s.scope ++ typeParams) none a = none := by
    cases ret with
    | none =>
      obtain rfl : s₃ = s₂ := hret
      exact ⟨hscope₂.trans hscope₁, fun a ha => by cases ha⟩
    | some r =>
      obtain ⟨hwell, hunify⟩ := hret
      rw [(onEngine_eq_ok hunify).2]
      refine ⟨hscope₂.trans hscope₁, fun a ha => ?_⟩
      cases ha
      rw [hscope₂, hscope₁] at hwell
      exact misformedList?_eq_none_iff.1 hwell r (.head _)
  rw [hscope₃.1] at hrelations
  apply misformedList?_eq_none_iff.2
  intro a ha
  rcases mem_append.1 ha with ha | ha
  · rcases mem_append.1 ha with ha | ha
    · exact misformedList?_eq_none_iff.1 hwell a ha
    · exact hscope₃.2 a (Option.mem_toList.1 ha)
  · exact misformedList?_eq_none_iff.1 hrelations a ha

end

end Discipline

end TensorTyping
