import TensorTyping.Proofs.Inference.Footprint

/-!
# How the parts of an expression are typed

When an expression is typed, each of its parts is typed on the way, in some environment and between
two states. If the expression is a tree, what has then been noted of the nodes and variables of the
part is still noted when all is done. So whatever is found out about typing one node is true of the
notes that are left in the end.

For each form of expression it is said once how its parts are visited and what becomes of the types
that are unified on the way.
-/
namespace TensorTyping.Inference

open List

/-- An expression that is typed as a whole: its numbers, the environment, the states before and
after, and the state in the end of the run. -/
structure Whole where
  own : List Serial
  env : Env
  begun : State
  ended : State
  final : State

/-- The part `c` of a whole is typed in an environment, from one state to another, and what has
been noted of the part is still noted in the end. -/
structure Visit (Γ : Context) (solve : Global → InferM Unit) (W : Whole) (c : Expr) (env : Env)
    (s : State) (t : Ty) (s' : State) : Prop where
  sublist : c.serials.Sublist W.own
  run : infer Γ solve c env s = .ok t s'
  valid : s.engine.Valid
  clear : ∀ n ∈ c.serials, env.lookup n = none
  notes : ∀ n ∈ c.serials, W.final.note? n = s'.note? n
  calls : ∀ n ∈ c.serials, W.final.callArgs.get? n = s'.callArgs.get? n
  evolves : s'.engine.store.Evolves W.final.engine.store
  subjects : s'.scrutinees ⊆ W.final.scrutinees
  bound : ∀ {n u}, env.lookup n = some u →
    W.env.lookup n = some u ∨ n ∈ W.own ∧ W.final.note? n = some u
  since : W.begun.engine.added ≤ s.engine.added
  onward : Changes Γ solve (fun _ => True) s' W.ended

section

variable {Γ : Context} {solve : Global → InferM Unit} {foreign : Serial → Prop} {W : Whole}
  {own own' : List Serial} {env env' env'' : Env} {c e : Expr} {t u : Ty}
  {s s' s₁ s₂ y z z' V : State} {ts : List Ty} {n : Serial} {S : Store}
variable {p : Serial → Prop} {branches : List (Expr × Ty)} {clauses : List (Pattern × Expr)}

theorem fresh_eq_ok (h : fresh s = .ok t s') :
    t = .cell s.engine.store.fresh.1 ∧ s'.engine.store = s.engine.store.fresh.2 := by
  have hrun := EngineM.onStore_eq_ok (onEngine_eq_ok h).1
  rw [StoreM.fresh] at hrun
  obtain ⟨ht, hs⟩ := EStateM.Result.ok.inj hrun
  exact ⟨ht.symm, hs.symm⟩

theorem freshFor_eq_ok {α : Type} {as : List α} (h : freshFor as s = .ok ts s') :
    ts.length = as.length ∧ ∀ t ∈ ts, t.isCell = true := by
  induction as generalizing s ts with
  | nil =>
    obtain ⟨rfl, -⟩ := freshFor_nil_ok_iff.1 h
    exact ⟨rfl, forall_mem_nil _⟩
  | cons a as ih =>
    obtain ⟨t, us, s₁, ht, hus, rfl⟩ := freshFor_cons_ok_iff.1 h
    obtain ⟨hlen, hcells⟩ := ih hus
    refine ⟨congrArg Nat.succ hlen, forall_mem_cons.2 ⟨?_, hcells⟩⟩
    rw [(fresh_eq_ok ht).1]
    rfl

theorem Spares.note_eq (h : Spares p env s s') (hn : ¬ p n) (henv : env.lookup n = none) :
    s'.note? n = s.note? n := by
  rcases h.notes n hn with heq | ⟨t, ht, -⟩
  · exact heq
  · rw [henv] at ht
    cases ht

theorem Spares.keeps (h : Spares p env s s') (hn : ¬ p n)
    (henv : env.lookup n = none ∨ env.lookup n = some t) (hnote : s.note? n = some t) :
    s'.note? n = some t := by
  rcases h.notes n hn with heq | ⟨u, hu, heq⟩
  · rw [heq, hnote]
  · rcases henv with henv | henv
    · rw [henv] at hu
      cases hu
    · rw [heq, ← hu, henv]

theorem mem_of_lookup (h : env.lookup n = some t) : (n, t) ∈ env := by
  obtain ⟨l₁, l₂, rfl, -⟩ := lookup_eq_some_iff.1 h
  simp

theorem note?_noted_self (s : State) (n : Serial) (p : Phrase) (t : Ty) :
    (s.noted n p t).note? n = some t := by
  rw [State.noted, note?_insert, if_pos rfl]

theorem infer_notes (hshared : e.isShared = false) (h : infer Γ solve e env s = .ok t s') :
    s'.note? e.serial = some t := by
  obtain ⟨act, hact⟩ := infer_typed Γ solve e env
  rw [hact] at h
  obtain ⟨s₁, -, rfl⟩ := typed_ok_iff.1 h
  rw [State.notedExpr, hshared]
  exact note?_noted_self ..

/-- An expression that is typed as a whole up to the end of the run. -/
def Whole.of (own : List Serial) (env : Env) (s s' : State) : Whole := ⟨own, env, s, s', s'⟩

namespace Visit

theorem self (hrun : infer Γ solve e env s = .ok t s') (hs : s.engine.Valid)
    (hs' : s'.engine.store.Valid) (hclear : ∀ n ∈ e.serials, env.lookup n = none) :
    Visit Γ solve (.of e.serials env s s') e env s t s' where
  sublist := List.Sublist.refl _
  run := hrun
  valid := hs
  clear := hclear
  notes _ _ := rfl
  calls _ _ := rfl
  evolves := .refl hs'
  subjects := List.Subset.refl _
  bound := .inl
  since := le_rfl
  onward := .refl

theorem trans (hc : Visit Γ solve (.of e.serials env s s') c env' s₁ u s₂)
    (he : Visit Γ solve W e env s t s') : Visit Γ solve W c env' s₁ u s₂ where
  sublist := hc.sublist.trans he.sublist
  run := hc.run
  valid := hc.valid
  clear := hc.clear
  notes n hn := (he.notes n (hc.sublist.subset hn)).trans (hc.notes n hn)
  calls n hn := (he.calls n (hc.sublist.subset hn)).trans (hc.calls n hn)
  evolves := hc.evolves.trans he.evolves
  subjects := List.Subset.trans hc.subjects he.subjects
  bound {n u} h := by
    rcases hc.bound h with h | ⟨hn, hnote⟩
    · exact he.bound h
    · exact .inr ⟨he.sublist.subset hn, (he.notes n hn).trans hnote⟩
  since := he.since.trans hc.since
  onward := hc.onward.trans he.onward

/-- The rest of the run touches other numbers. -/
theorem later (h : Visit Γ solve W c env s t s') (hrest : Spares p env'' W.final V)
    (hsep : ∀ n ∈ W.own, ¬ p n ∧ env''.lookup n = none) :
    Visit Γ solve { W with final := V } c env s t s' where
  sublist := h.sublist
  run := h.run
  valid := h.valid
  clear := h.clear
  notes n hn :=
    have hn' := hsep n (h.sublist.subset hn)
    (hrest.note_eq hn'.1 hn'.2).trans (h.notes n hn)
  calls n hn := (hrest.calls n (hsep n (h.sublist.subset hn)).1).trans (h.calls n hn)
  evolves := h.evolves.trans hrest.evolves
  subjects := List.Subset.trans h.subjects hrest.subjects
  bound {n u} hu := by
    rcases h.bound hu with hu | ⟨hn, hnote⟩
    · exact .inl hu
    · exact .inr ⟨hn, (hrest.note_eq (hsep n hn).1 (hsep n hn).2).trans hnote⟩
  since := h.since
  onward := h.onward

/-- The whole stands in a larger one, in which other numbers are touched after it. -/
theorem embed (h : Visit Γ solve (.of own env'' y z) c env s t s') (hsub : own.Sublist own')
    (hsince : s₁.engine.added ≤ y.engine.added) (hrest : Touches Γ solve p env'' z z')
    (hsep : ∀ n ∈ own, ¬ p n ∧ env''.lookup n = none) :
    Visit Γ solve (.of own' env'' s₁ z') c env s t s' :=
  { h.later hrest.toSpares hsep with
    sublist := h.sublist.trans hsub
    bound := fun hu => ((h.later hrest.toSpares hsep).bound hu).imp_right fun hn =>
      ⟨hsub.subset hn.1, hn.2⟩
    since := hsince.trans h.since
    onward := h.onward.trans hrest.changes }

theorem type (h : Visit Γ solve W c env s t s') (hW : W.env = []) (hshared : c.isShared = false) :
    c.serial ∈ W.own ∧ W.final.note? c.serial = some t := by
  by_cases hc : ∃ x, c = .var x
  · obtain ⟨x, rfl⟩ := hc
    obtain ⟨hx, -⟩ := infer_var_ok_iff.1 h.run
    rcases h.bound hx with hnil | hnoted
    · rw [hW] at hnil
      cases hnil
    · exact hnoted
  · have hown : c.serial ∈ c.serials := by
      refine Expr.mem_serials_iff.2 (.inl ?_)
      cases c with
      | var x => exact absurd ⟨x, rfl⟩ hc
      | global | ctor => cases hshared
      | _ => exact .head _
    exact ⟨h.sublist.subset hown, (h.notes _ hown).trans (infer_notes hshared h.run)⟩

end Visit

/-- No number occurs twice in the whole, and typing on demand touches none of them. -/
structure Whole.Secluded (W : Whole) (solve : Global → InferM Unit) (foreign : Serial → Prop) :
    Prop where
  solves : SolvesWithin solve foreign
  domestic : ∀ n ∈ W.own, ¬ foreign n
  nodup : W.own.Nodup

/-- The numbers in a list are different, not in the environment and not foreign. -/
structure Apart (foreign : Serial → Prop) (own : List Serial) (env : Env) : Prop where
  nodup : own.Nodup
  unbound : ∀ n ∈ own, env.lookup n = none
  domestic : ∀ n ∈ own, ¬ foreign n

namespace Apart

variable {l : List Serial}

section

variable (h : Apart foreign own env)

include h

theorem sublist (hsub : own'.Sublist own) : Apart foreign own' env where
  nodup := h.nodup.sublist hsub
  unbound n hn := h.unbound n (hsub.subset hn)
  domestic n hn := h.domestic n (hsub.subset hn)

theorem not_near {n : Serial} (hn : n ∈ own) (hl : n ∉ l) : ¬ Near foreign l n :=
  not_or.2 ⟨hl, h.domestic n hn⟩

/-- A part is typed, and what is touched then are other numbers of the whole. Variables that are new
in the environment are noted at their types. -/
theorem visit (hsub : c.serials.Sublist own) (hl : ∀ n ∈ c.serials, n ∉ l) (hs : s₁.engine.Valid)
    (hsince : s.engine.added ≤ s₁.engine.added) (hrun : infer Γ solve c env' s₁ = .ok u s₂)
    (hrest : Touches Γ solve (Near foreign l) env'' s₂ s')
    (henv : ∀ n ∈ c.serials, env'.lookup n = none ∧ env''.lookup n = none)
    (hbound : ∀ {n u}, env'.lookup n = some u →
      env.lookup n = some u ∨ n ∈ own ∧ s'.note? n = some u) :
    Visit Γ solve (.of own env s s') c env' s₁ u s₂ where
  sublist := hsub
  run := hrun
  valid := hs
  clear n hn := (henv n hn).1
  notes n hn := hrest.note_eq (h.not_near (hsub.subset hn) (hl n hn)) (henv n hn).2
  calls n hn := hrest.calls n (h.not_near (hsub.subset hn) (hl n hn))
  evolves := hrest.evolves
  subjects := hrest.subjects
  bound := hbound
  since := hsince
  onward := hrest.changes

theorem visit_front {l : List Serial} (hsub : (c.serials ++ l).Sublist own) (hs : s₁.engine.Valid)
    (hsince : s.engine.added ≤ s₁.engine.added) (hrun : infer Γ solve c env s₁ = .ok u s₂)
    (hrest : Touches Γ solve (Near foreign l) env s₂ s') :
    Visit Γ solve (.of own env s s') c env s₁ u s₂ := by
  have hc : c.serials.Sublist own := (sublist_append_left _ _).trans hsub
  have hunbound (n : Serial) (hn : n ∈ c.serials) := h.unbound n (hc.subset hn)
  exact h.visit hc (fun _ hn hl => disjoint_of_nodup_append (h.nodup.sublist hsub) hn hl) hs
    hsince hrun hrest (fun n hn => ⟨hunbound n hn, hunbound n hn⟩) .inl

end

/-- After a part of the whole has been gone through, other numbers are touched. -/
theorem visit_after (h : Apart foreign own' env) (hsub : (own ++ l).Sublist own')
    (hsince : s.engine.added ≤ y.engine.added) (hc : Visit Γ solve (.of own env y z) c env' s₁ u s₂)
    (hrest : Touches Γ solve (Near foreign l) env z z') :
    Visit Γ solve (.of own' env s z') c env' s₁ u s₂ := by
  have hown : own.Sublist own' := (sublist_append_left _ _).trans hsub
  refine hc.embed hown hsince hrest fun n hn => ⟨h.not_near (hown.subset hn) fun hl => ?_, ?_⟩
  · exact disjoint_of_nodup_append (h.nodup.sublist hsub) hn hl
  · exact h.unbound n (hown.subset hn)

end Apart

section

variable (h : Visit Γ solve W e env s t s') (hW : W.Secluded solve foreign)

include h hW

theorem Visit.apart : Apart foreign e.serials env where
  nodup := hW.nodup.sublist h.sublist
  unbound := h.clear
  domestic n hn := hW.domestic n (h.sublist.subset hn)

theorem Visit.touches :
    Touches Γ solve (Near foreign e.serials) env s s' := infer_touches hW.solves h.valid h.run

/-- What was known when a part was begun is known in the end. -/
theorem Visit.begins :
    s.engine.store.Evolves W.final.engine.store := (h.touches hW).evolves.trans h.evolves

end

section

variable (hs : s.engine.Valid)
variable {site : Phrase} {es : List Expr}

include hs

theorem unify_agrees (h : unify t u site s = .ok () s') (hS : s'.engine.store.Evolves S) :
    S.Agrees (t, u) :=
  StoreM.unify_agrees hs.store (EngineM.onStore_eq_ok (onEngine_eq_ok h).1) hS.later

theorem Ascribed.agrees {ascription : Option Ty} (h : Ascribed Γ ascription t site s s')
    (hS : s'.engine.store.Evolves S) {a : Ty} (ha : ascription = some a) : S.Agrees (a, t) := by
  subst ha
  exact unify_agrees hs h.2 hS

theorem unifyBranches_agree (h : unifyBranches t branches s = .ok () s')
    (hS : s'.engine.store.Evolves S) : ∀ b ∈ branches, S.Agrees (t, b.2) := by
  induction branches generalizing s with
  | nil => exact forall_mem_nil _
  | cons b branches ih =>
    obtain ⟨_, s₁, hunify, hrest⟩ := bind_ok_iff.1 h
    have h₁ := (unify_works _ _ _).worked hunify
    have h₂ := (unifyBranches_works _ _).worked hrest
    refine forall_mem_cons.2 ⟨?_, ih (h₁.valid hs) hrest⟩
    exact unify_agrees hs hunify ((h₂.evolves (h₁.valid hs)).trans hS)

theorem unifyArgs_agree {as : List Ty} (hlen : as.length = ts.length)
    (hlen' : ts.length = es.length) (h : unifyArgs as ts es s = .ok () s')
    (hS : s'.engine.store.Evolves S) : List.Forall₂ (fun a t => S.Agrees (a, t)) as ts := by
  induction as generalizing ts es s with
  | nil =>
    obtain rfl := length_eq_zero_iff.1 hlen.symm
    exact .nil
  | cons a as ih =>
    obtain ⟨t, ts, rfl⟩ := exists_cons_of_length_eq_add_one hlen.symm
    obtain ⟨e, es, rfl⟩ := exists_cons_of_length_eq_add_one hlen'.symm
    obtain ⟨s₁, hunify, hrest⟩ := unifyArgs_cons_ok_iff.1 h
    have h₁ := (unify_works _ _ _).worked hunify
    have h₂ := (unifyArgs_works _ _ _).worked hrest
    refine .cons ?_ (ih (h₁.valid hs) (Nat.succ.inj hlen) (Nat.succ.inj hlen') hrest)
    exact unify_agrees hs hunify ((h₂.evolves (h₁.valid hs)).trans hS)

theorem inferList_visits (hsolve : SolvesWithin solve foreign)
    (hap : Apart foreign (Expr.serialsList es) env)
    (hrun : inferList Γ solve es env s = .ok ts s') :
    List.Forall₂ (fun c t => ∃ s₁ s₂, Visit Γ solve (.of (Expr.serialsList es) env s s') c env s₁ t
      s₂) es ts := by
  induction es generalizing s ts with
  | nil =>
    obtain ⟨rfl, -⟩ := inferList_nil_ok_iff.1 hrun
    exact .nil
  | cons c es ih =>
    obtain ⟨t, s₁, us, ht, hus, rfl⟩ := inferList_cons_ok_iff.1 hrun
    have h₁ := infer_touches hsolve hs ht
    have hrest := inferList_touches hsolve h₁.valid hus
    have hsub : (Expr.serialsList es).Sublist (Expr.serialsList (c :: es)) :=
      sublist_append_right _ _
    refine .cons ⟨s, s₁, hap.visit_front (List.Sublist.refl _) hs le_rfl ht hrest⟩ ?_
    refine (ih h₁.valid (hap.sublist hsub) hus).imp ?_
    rintro d u ⟨s₂, s₃, h⟩
    exact ⟨s₂, s₃, h.embed (p := fun _ => False) hsub h₁.added_le (.refl hrest.valid) fun n hn =>
      ⟨id, hap.unbound n (hsub.subset hn)⟩⟩

/-- A pattern is checked, and then its type is noted. -/
theorem checkPattern_then_noted {p : Pattern} {bound : Env}
    (hp : checkPattern Γ p t s = .ok bound s₁) : Spares (· ∈ p.inner) [] s s₁ ∧
      Spares (· = p.serial) [] s₁ (s₁.noted p.serial (.pattern p) t) :=
  have h := checkPattern_spares hs (fun _ hk => hk) hp
  ⟨h, .noted h.valid _ (.inl rfl)⟩

theorem checkPatterns_keeps {p : Pattern} {ps : List Pattern} {first more : Env}
    (hps : (Pattern.serialsList (p :: ps)).Nodup) (hlen : ps.length = ts.length)
    (hp : checkPattern Γ p t s = .ok first s₁)
    (hmore : checkPatterns Γ ps ts (s₁.noted p.serial (.pattern p) t) = .ok more s') :
    (s₁.noted p.serial (.pattern p) t).engine.Valid ∧ (∀ n ∈ p.inner, s'.note? n = s₁.note? n) ∧
      s'.note? p.serial = some t := by
  obtain ⟨-, hps', hsep⟩ := nodup_append.1 hps
  obtain ⟨-, h₂⟩ := checkPattern_then_noted hs hp
  have h₃ : Spares (· ∈ Pattern.serialsList ps) [] (s₁.noted p.serial (.pattern p) t) s' :=
    checkPatterns_spares h₂.valid (fun _ hk => hk) hlen hmore
  refine ⟨h₂.valid, fun n hn => ?_, ?_⟩
  · have hne := hsep n hn
    rw [h₃.note_eq (fun hk => hne n (.tail _ hk) rfl) rfl,
      h₂.note_eq (fun hk => hne p.serial (.head _) hk) rfl]
  · rw [h₃.note_eq (nodup_cons.1 hps').1 rfl]
    exact note?_noted_self ..

end

mutual
theorem checkPattern_notes {p : Pattern} {t : Ty} {bound : Env} {s s' : State}
    (hs : s.engine.Valid) (hp : p.inner.Nodup) (h : checkPattern Γ p t s = .ok bound s')
    {n : Serial} {u : Ty} (hn : bound.lookup n = some u) : s'.note? n = some u := by
  match p with
  | .wildcard m =>
    obtain ⟨rfl, -⟩ := checkPattern_wildcard_ok_iff.1 h
    cases hn
  | .var m x =>
    obtain ⟨s₁, -, rfl, rfl⟩ := checkPattern_var_ok_iff.1 h
    obtain ⟨rfl, rfl⟩ : n = x.serial ∧ u = t := by
      rw [lookup_cons] at hn
      split at hn
      · rename_i heq
        exact ⟨beq_iff_eq.1 heq, (Option.some.inj hn).symm⟩
      · cases hn
    exact note?_noted_self ..
  | .ctor m c subs =>
    obtain ⟨d, ts, s₁, s₂, -, hts, hunify, harity, hsubs⟩ := checkPattern_ctor_ok_iff.1 h
    have h₁ := ((freshFor_works _).worked hts).trans ((unify_works _ _ _).worked hunify)
    exact checkPatterns_notes (h₁.valid hs) hp (by simpa [Ctor.arity] using harity) hsubs hn
theorem checkPatterns_notes {ps : List Pattern} {ts : List Ty} {bound : Env} {s s' : State}
    (hs : s.engine.Valid) (hps : (Pattern.serialsList ps).Nodup) (hlen : ps.length = ts.length)
    (h : checkPatterns Γ ps ts s = .ok bound s') {n : Serial} {u : Ty}
    (hn : bound.lookup n = some u) : s'.note? n = some u := by
  match ps, ts with
  | [], _ =>
    obtain ⟨rfl, -⟩ := (checkPatterns_nil_ok_iff (.inl rfl)).1 h
    cases hn
  | p :: ps, t :: ts =>
    have hlen : ps.length = ts.length := by simpa using hlen
    obtain ⟨first, more, s₁, hp, hmore, rfl⟩ := checkPatterns_cons_ok_iff.1 h
    obtain ⟨hp', hps', -⟩ := nodup_append.1 hps
    obtain ⟨hs₂, hkeeps, -⟩ := checkPatterns_keeps hs hps hlen hp hmore
    rw [lookup_append, Option.or_eq_some_iff] at hn
    rcases hn with hn | ⟨-, hn⟩
    · exact checkPatterns_notes hs₂ (nodup_cons.1 hps').2 hlen hmore hn
    · have hmem : n ∈ p.inner := checkPattern_bound hp _ (mem_of_lookup hn)
      rw [hkeeps n hmem]
      exact checkPattern_notes hs hp' hp hn
end

/-- A clause is gone through while a whole is typed: its pattern is checked against the type of what
is matched on, and what is noted of it is still noted in the end. Then its body is typed. -/
structure ClauseVisit (Γ : Context) (solve : Global → InferM Unit) (W : Whole) (t : Ty) (env : Env)
    (clause : Pattern × Expr) (u : Ty) (bound : Env) (s s₁ s₂ : State) : Prop where
  sublist : clause.1.inner.Sublist W.own
  valid : s.engine.Valid
  checked : checkPattern Γ clause.1 t s = .ok bound s₁
  kept : ∀ n ∈ clause.1.inner, ∀ v, s₁.note? n = some v → W.final.note? n = some v
  noted : clause.1.serial ∈ W.own ∧ W.final.note? clause.1.serial = some t
  body : Visit Γ solve W clause.2 (bound ++ env)
    (s₁.noted clause.1.serial (.pattern clause.1) t) u s₂

namespace ClauseVisit

variable {clause : Pattern × Expr} {bound : Env} {s₃ s₄ : State} {v : Ty}

theorem trans (hc : ClauseVisit Γ solve (.of e.serials env s s') v env' clause u bound s₁ s₂ s₃)
    (he : Visit Γ solve W e env s t s') : ClauseVisit Γ solve W v env' clause u bound s₁ s₂ s₃ where
  sublist := hc.sublist.trans he.sublist
  valid := hc.valid
  checked := hc.checked
  kept n hn w hw := (he.notes n (hc.sublist.subset hn)).trans (hc.kept n hn w hw)
  noted := ⟨he.sublist.subset hc.noted.1, (he.notes _ hc.noted.1).trans hc.noted.2⟩
  body := hc.body.trans he

theorem embed (hc : ClauseVisit Γ solve (.of own env y z) v env' clause u bound s₁ s₂ s₃)
    (hsub : own.Sublist own') (hsince : s₄.engine.added ≤ y.engine.added)
    (hrest : Touches Γ solve p env z z') (hsep : ∀ n ∈ own, ¬ p n ∧ env.lookup n = none) :
    ClauseVisit Γ solve (.of own' env s₄ z') v env' clause u bound s₁ s₂ s₃ := by
  have hkept {n : Serial} (hn : n ∈ own) : z'.note? n = z.note? n :=
    hrest.note_eq (hsep n hn).1 (hsep n hn).2
  exact
    { sublist := hc.sublist.trans hsub
      valid := hc.valid
      checked := hc.checked
      kept := fun n hn w hw => (hkept (hc.sublist.subset hn)).trans (hc.kept n hn w hw)
      noted := ⟨hsub.subset hc.noted.1, (hkept hc.noted.1).trans hc.noted.2⟩
      body := hc.body.embed hsub hsince hrest hsep }

end ClauseVisit

theorem inferClauses_visits (hsolve : SolvesWithin solve foreign) (hs : s.engine.Valid)
    (hap : Apart foreign (Expr.clauseSerials clauses) env)
    (hrun : inferClauses Γ solve t clauses env s = .ok branches s') :
    List.Forall₂ (fun clause b => ∃ bound s₁ s₂ s₃, ClauseVisit Γ solve
      (.of (Expr.clauseSerials clauses) env s s') t env clause b.2 bound s₁ s₂ s₃)
      clauses branches := by
  induction clauses generalizing s branches with
  | nil =>
    obtain ⟨rfl, -⟩ := inferClauses_nil_ok_iff.1 hrun
    exact .nil
  | cons clause clauses ih =>
    obtain ⟨p, body⟩ := clause
    obtain ⟨bound, u, more, s₁, s₂, hp, hbody, hmore, rfl⟩ := inferClauses_cons_ok_iff.1 hrun
    obtain ⟨h₁, h₂⟩ := checkPattern_then_noted hs hp
    have h₃ := infer_touches hsolve h₂.valid hbody
    have h₄ := inferClauses_touches hsolve h₃.valid hmore
    have hsince := h₁.added_le.trans h₂.added_le
    have hrest : (Expr.clauseSerials clauses).Sublist (Expr.clauseSerials ((p, body) :: clauses)) :=
      ((sublist_append_right _ _).cons _).trans (sublist_append_right _ _)
    have hsub : body.serials.Sublist (Expr.clauseSerials ((p, body) :: clauses)) :=
      ((sublist_append_left _ _).cons _).trans (sublist_append_right _ _)
    have hinner : p.inner.Sublist (Expr.clauseSerials ((p, body) :: clauses)) :=
      sublist_append_left _ _
    have hserial : p.serial ∈ Expr.clauseSerials ((p, body) :: clauses) :=
      mem_append_right _ (.head _)
    obtain ⟨hnodup, htail, hsep⟩ := nodup_append.1 hap.nodup
    obtain ⟨hfresh, htail⟩ := nodup_cons.1 htail
    -- What follows the pattern leaves its numbers as they are noted.
    have hkept {n : Serial} (hn : n ∈ p.inner ∨ n = p.serial) {v : Ty}
        (hv : (s₁.noted p.serial (.pattern p) t).note? n = some v) : s'.note? n = some v := by
      have hown : n ∈ Expr.clauseSerials ((p, body) :: clauses) := by
        rcases hn with hn | rfl
        · exact hinner.subset hn
        · exact hserial
      have hout : n ∉ body.serials ++ Expr.clauseSerials clauses := by
        rcases hn with hn | rfl
        · exact fun hl => hsep n hn n (.tail _ hl) rfl
        · exact hfresh
      rw [mem_append, not_or] at hout
      rw [h₄.note_eq (hap.not_near hown hout.2) (hap.unbound n hown)]
      refine h₃.keeps (hap.not_near hown hout.1) ?_ hv
      rw [lookup_append, hap.unbound n hown, Option.or_none]
      cases hb : bound.lookup n with
      | none => exact .inl rfl
      | some w =>
        have hmem : n ∈ p.inner := checkPattern_bound hp _ (mem_of_lookup hb)
        rw [h₂.note_eq (fun hk => hsep n hmem p.serial (.head _) hk) rfl,
          checkPattern_notes hs hnodup hp hb] at hv
        exact .inr hv
    have hboundKept {n : Serial} {v : Ty} (hn : bound.lookup n = some v) :
        n ∈ p.inner ∧ s'.note? n = some v := by
      have hmem : n ∈ p.inner := checkPattern_bound hp _ (mem_of_lookup hn)
      refine ⟨hmem, hkept (.inl hmem) ?_⟩
      rw [h₂.note_eq (fun hk => hsep n hmem p.serial (.head _) hk) rfl]
      exact checkPattern_notes hs hnodup hp hn
    refine .cons ⟨bound, s, s₁, s₂, hinner, hs, hp, fun n hn v hv => hkept (.inl hn) ?_,
      ⟨hserial, hkept (.inr rfl) (note?_noted_self ..)⟩, ?_⟩ ?_
    · rw [h₂.note_eq (fun hk => hsep n hn p.serial (.head _) hk) rfl]
      exact hv
    · refine hap.visit hsub (fun n hn hl => disjoint_of_nodup_append htail hn hl) h₂.valid
        hsince hbody h₄ (fun n hn => ⟨?_, hap.unbound n (hsub.subset hn)⟩) fun {n v} hv => ?_
      · rw [lookup_append_of_not_mem, hap.unbound n (hsub.subset hn)]
        rintro b hb rfl
        exact hsep _ (checkPattern_bound hp b hb) _
          (.tail _ (mem_append_left _ hn)) rfl
      · rcases Option.or_eq_some_iff.1 ((lookup_append ..).symm.trans hv) with hn | ⟨-, hn⟩
        · exact .inr ⟨hinner.subset (hboundKept hn).1, (hboundKept hn).2⟩
        · exact .inl hn
    · refine (ih h₃.valid (hap.sublist hrest) hmore).imp ?_
      rintro clause b ⟨bound', s₃, s₄, s₅, h⟩
      exact ⟨bound', s₃, s₄, s₅, h.embed (p := fun _ => False) hrest
        (hsince.trans h₃.added_le) (.refl h₄.valid) fun n hn =>
          ⟨id, hap.unbound n (hrest.subset hn)⟩⟩

theorem lookup_cons_eq_some {x : Serial} (h : List.lookup n ((x, t) :: env) = some u) :
    n = x ∧ u = t ∨ env.lookup n = some u := by
  by_cases hn : n = x
  · subst hn
    exact .inl ⟨rfl, (Option.some.inj ((lookup_cons_self).symm.trans h)).symm⟩
  · exact .inr ((lookup_cons_of_ne hn).symm.trans h)

/-- The parameter is noted at a type: the one that it declares, or else a cell. -/
def ParamNoted (s : State) (x : Var) (t : Ty) : Prop :=
  s.note? x.serial = some t ∧ (x.ascription = some t ∨ x.ascription = none ∧ t.isCell = true)

theorem paramTypes_notes {xs : List Var} (hs : s.engine.Valid)
    (hxs : (xs.map fun x => x.serial).Nodup) (h : paramTypes Γ xs s = .ok ts s') :
    List.Forall₂ (ParamNoted s') xs ts := by
  induction xs generalizing s ts with
  | nil =>
    obtain ⟨rfl, -⟩ := paramTypes_nil_ok_iff.1 h
    exact .nil
  | cons x xs ih =>
    obtain ⟨t, s₁, us, ht, hus, rfl⟩ := paramTypes_cons_ok_iff.1 h
    obtain ⟨hx, hxs⟩ := nodup_cons.1 hxs
    have hs₁ : s₁.engine.Valid ∧ (x.ascription = some t ∨ x.ascription = none ∧ t.isCell = true) := by
      rcases ht with ⟨hnone, hfresh⟩ | ⟨hsome, -, rfl⟩
      · refine ⟨(fresh_works.worked hfresh).valid hs, .inr ⟨hnone, ?_⟩⟩
        rw [(fresh_eq_ok hfresh).1]
        rfl
      · exact ⟨hs, .inl hsome⟩
    have hs₂ : (s₁.notedExpr (.var x) t).engine.Valid := hs₁.1
    have h₁ : Spares (· ∈ xs.map fun x => x.serial) [] (s₁.notedExpr (.var x) t) s' :=
      paramTypes_spares hs₂ (fun y hy => mem_map.2 ⟨y, hy, rfl⟩) hus
    refine .cons ⟨?_, hs₁.2⟩ (ih hs₂ hxs hus)
    rw [h₁.note_eq hx rfl]
    exact note?_noted_self ..

theorem ParamNoted.forall_later {params : List Var} (h : List.Forall₂ (ParamNoted s) params ts)
    (hkept : ∀ x ∈ params, ∀ u, s.note? x.serial = some u → s'.note? x.serial = some u) :
    List.Forall₂ (ParamNoted s') params ts := by
  obtain ⟨hlen, hzip⟩ := forall₂_iff_zip.1 h
  exact forall₂_iff_zip.2 ⟨hlen, fun hmem =>
    ⟨hkept _ (of_mem_zip hmem).1 _ (hzip hmem).1, (hzip hmem).2⟩⟩

theorem lookup_extend {params : List Var} (hparams : List.Forall₂ (ParamNoted V) params ts)
    (h : (extend env params ts).lookup n = some u) :
    env.lookup n = some u ∨ n ∈ (params.map fun x => x.serial) ∧ V.note? n = some u := by
  rw [extend, lookup_append, Option.or_eq_some_iff] at h
  rcases h with h | ⟨-, h⟩
  · obtain ⟨⟨x, t⟩, hmem, heq⟩ := mem_map.1 (mem_reverse.1 (mem_of_lookup h))
    cases heq
    exact .inr ⟨mem_map.2 ⟨x, (of_mem_zip hmem).1, rfl⟩,
      ((forall₂_iff_zip.1 hparams).2 hmem).1⟩
  · exact .inl h

/-- What is known of a call that has been typed in the environment `env` from the state `s`: the
arguments have been typed, and what is called has been, unless it is a reference. It has then been
applied to them in the state `s₁`. -/
structure CallVisit (Γ : Context) (solve : Global → InferM Unit) (W : Whole) (n : Serial)
    (callee : Expr) (args : List Expr) (typeArgs : Option (List Ty)) (attrs : Attrs) (env : Env)
    (f t : Ty) (direct : Option (List Ty)) (ts given : List Ty) (s s₁ s' : State) : Prop where
  valid : s₁.engine.Valid
  calleeTyped : callee.isReference = false →
    direct = none ∧ ∃ s₂ s₃, Visit Γ solve W callee env s₂ f s₃
  referred : callee.isReference = true → ∃ us s₂,
    ReferenceRun Γ solve callee typeArgs (.expr (.call n callee args typeArgs attrs)) attrs s
      (f, us) s₂ ∧ direct = some us ∧
      (callee.isShared = false → callee.serial ∈ W.own ∧ W.final.note? callee.serial = some f)
  argsTyped : List.Forall₂ (fun c t => ∃ s₂ s₃, Visit Γ solve W c env s₂ t s₃) args ts
  applied : applyTo Γ (.call n callee args typeArgs attrs) f direct args ts attrs s₁ =
    .ok (t, given) s'
  evolves : s'.engine.store.Evolves W.final.engine.store
  mem : n ∈ W.own
  noted : W.final.note? n = some t
  called : W.final.callArgs.get? n = some given

/-- A part is typed when the whole is. -/
def Visited (Γ : Context) (solve : Global → InferM Unit) (W : Whole) (c : Expr) : Prop :=
  ∃ env s t s', Visit Γ solve W c env s t s'

namespace Visit

variable {n : Serial} {params : List Var} {body : Expr} {ret : Option Ty}
  {typeParams : List TypeParam} {relations : List TypeRelation}
variable (hW : W.Secluded solve foreign)

include hW

theorem fn (h : Visit Γ solve W (.fn n params body ret typeParams relations) env s t s') :
    ∃ ts b s₁ s₂, List.Forall₂ (ParamNoted W.final) params ts ∧
      Visit Γ solve W body (extend env params ts) s₁ b s₂ ∧
      (∀ r, ret = some r → W.final.engine.store.Agrees (r, b)) ∧
      t = .func ts (ret.getD b) typeParams relations := by
  have hap := h.apart hW
  obtain ⟨ts, b, s₁, s₂, s₃, s₄, hparams, hbody, hasc, -, hrel, ht, hend⟩ := infer_fn_ok_iff.1 h.run
  have hs₀ : ({ s with scope := s.scope ++ typeParams } : State).engine.Valid := h.valid
  have h₀ : Spares (fun _ => True) [] { s with scope := s.scope ++ typeParams } s₁ :=
    paramTypes_spares hs₀ (fun _ _ => trivial) hparams
  have h₁ := infer_touches hW.solves h₀.valid hbody
  have hs₃ := hasc.worked.valid h₁.valid
  have h₃ : Touches Γ solve (Near foreign [n]) env s₃ s' := by
    have h₃ : Touches Γ solve (Near foreign [n]) env s₃ s₄ := by
      rcases hrel with ⟨-, hrel⟩ | ⟨-, rfl⟩
      · exact (Touches.refl hs₃).then_works (relateAll_works _ _ _) hrel
      · exact .refl hs₃
    have h₄ := h₃.withScope s.scope
    exact h₄.trans (.node h₄.valid hend)
  have h₂ := (Touches.of_worked hasc.worked h₁.valid).trans h₃
  obtain ⟨hps, htail, hsep⟩ := nodup_append.1 hap.nodup
  have hn := disjoint_of_nodup_append htail
  have hsub : body.serials.Sublist (Expr.fn n params body ret typeParams relations).serials :=
    (sublist_append_left _ _).trans (sublist_append_right _ _)
  have hout {k : Serial} (hk : k ∈ body.serials) : k ∉ params.map fun x => x.serial :=
    fun hmem => hsep k hmem k (mem_append_left _ hk) rfl
  -- The parameters keep their types while the body is typed.
  have hnoted := paramTypes_notes hs₀ hps hparams
  have hkept : List.Forall₂ (ParamNoted s') params ts := by
    refine ParamNoted.forall_later hnoted fun x hx u hnote => ?_
    have hk : x.serial ∈ params.map fun x => x.serial := mem_map.2 ⟨x, hx, rfl⟩
    have hown : x.serial ∈ (Expr.fn n params body ret typeParams relations).serials :=
      mem_append_left _ hk
    rw [h₂.note_eq (hap.not_near hown fun hl => hsep _ hk _ (mem_append_right _ hl) rfl)
      (hap.unbound _ hown)]
    refine h₁.keeps (hap.not_near hown fun hl => hsep _ hk _ (mem_append_left _ hl) rfl) ?_
      hnote
    cases hv : (extend env params ts).lookup x.serial with
    | none => exact .inl rfl
    | some v =>
      rcases lookup_extend hnoted hv with hv | ⟨-, hv⟩
      · rw [hap.unbound _ hown] at hv
        cases hv
      · exact .inr (hv.symm.trans hnote)
  have hvisit : Visit Γ solve (.of (Expr.fn n params body ret typeParams relations).serials env s s')
      body (extend env params ts) s₁ b s₂ := by
    refine hap.visit hsub (fun _ hk hl => hn hk hl) h₀.valid h₀.added_le hbody h₂ (fun k hk =>
      ⟨?_, hap.unbound k (hsub.subset hk)⟩) fun {k u} hu => ?_
    · rw [lookup_extend_of_not_mem (hout hk), hap.unbound k (hsub.subset hk)]
    · exact (lookup_extend hkept hu).imp_right fun hk => ⟨mem_append_left _ hk.1, hk.2⟩
  refine ⟨ts, b, s₁, s₂, ParamNoted.forall_later hkept fun x hx u hnote => ?_, hvisit.trans h,
    fun r hr => hasc.agrees h₁.valid (h₃.evolves.trans h.evolves) hr, ht⟩
  exact (h.notes _ (mem_append_left _ (mem_map.2 ⟨x, hx, rfl⟩))).trans hnote

/-- The value of a definition is typed with the variable in scope if it is a function. The variable
has the type of the value, or a type that agrees with it and was a cell at first. -/
theorem letIn {x : Var} {value : Expr} (h : Visit Γ solve W (.letIn n x value body) env s t s') :
    ∃ u v env' s₁ s₂ s₃ s₄, Visit Γ solve W value env' s₁ v s₂ ∧
      Visit Γ solve W body ((x.serial, u) :: env) s₃ t s₄ ∧
      (value.function? = none ∧ env' = env ∧ v = u ∨
        value.function? ≠ none ∧ env' = (x.serial, u) :: env ∧ u.isCell = true) ∧
      W.final.engine.store.Agrees (u, v) ∧
      ∀ a, x.ascription = some a → W.final.engine.store.Agrees (a, u) := by
  have hap := h.apart hW
  obtain ⟨u, s₁, s₂, s₃, hvalue, hasc, hbody, hend⟩ := infer_letIn_ok_iff.1 h.run
  have hvs : value.serials.Sublist (Expr.letIn n x value body).serials :=
    (sublist_append_left _ _).cons _
  have hbs : body.serials.Sublist (Expr.letIn n x value body).serials :=
    ((sublist_append_left _ _).trans (sublist_append_right _ _)).cons _
  have hx : x.serial ∈ (Expr.letIn n x value body).serials := .head _
  obtain ⟨hxt, htail⟩ := nodup_cons.1 hap.nodup
  have hvalues := disjoint_of_nodup_append htail
  have hbodies := disjoint_of_nodup_append (nodup_append.1 htail).2.1
  have henv {k : Serial} (hk : k ∈ value.serials ++ (body.serials ++ [n])) :
      List.lookup k ((x.serial, u) :: env) = none := by
    rw [lookup_cons_of_ne (by rintro rfl; exact hxt hk), hap.unbound k (.tail _ hk)]
  -- After the value the variable is noted, and it keeps its type.
  have hlast (hs₁ : s₁.engine.Valid) (hsince : s.engine.added ≤ s₁.engine.added) :
      Touches Γ solve (Near foreign (x.serial :: (body.serials ++ [n]))) env s₁ s' ∧
        Visit Γ solve W body ((x.serial, u) :: env) (s₂.notedExpr (.var x) u) t s₃ ∧
        s'.note? x.serial = some u ∧
        ∀ a, x.ascription = some a → W.final.engine.store.Agrees (a, u) := by
    have h₀ := hasc.worked
    have h₁ : Touches Γ solve (Near foreign [x.serial]) env s₁ (s₂.notedExpr (.var x) u) :=
      (Touches.of_worked h₀ hs₁).trans (.node (e := .var x) (h₀.valid hs₁) rfl)
    have h₂ := infer_touches hW.solves h₁.valid hbody
    have h₃ : Touches Γ solve (Near foreign [n]) env s₃ s' := .node h₂.valid hend
    have hnote : s'.note? x.serial = some u := by
      rw [h₃.note_eq (hap.not_near hx fun hl => hxt (by simp_all)) (hap.unbound _ hx)]
      exact h₂.keeps (hap.not_near hx fun hl => hxt (by simp [hl])) (.inr lookup_cons_self)
        (note?_noted_self ..)
    have hvisit : Visit Γ solve (.of (Expr.letIn n x value body).serials env s s') body
        ((x.serial, u) :: env) (s₂.notedExpr (.var x) u) t s₃ := by
      refine hap.visit hbs (fun _ hk hl => hbodies hk hl) h₁.valid (hsince.trans h₁.added_le) hbody
        h₃ (fun k hk => ⟨henv (by simp [hk]), hap.unbound k (hbs.subset hk)⟩) fun {k v} hk => ?_
      rcases lookup_cons_eq_some hk with ⟨rfl, rfl⟩ | hk
      · exact .inr ⟨hx, hnote⟩
      · exact .inl hk
    refine ⟨?_, hvisit.trans h, hnote, fun a ha => hasc.agrees hs₁ ?_ ha⟩
    · refine ((h₁.mono (fun _ => .mono (by simp)) fun _ _ => .inr rfl).trans
        (h₂.mono (fun _ => .mono fun k hk => by simp [hk]) fun k hk => .inr ?_)).trans
        (h₃.mono (fun _ => .mono (by simp)) fun _ _ => .inr rfl)
      exact lookup_cons_of_ne fun heq => hk (.inl (heq ▸ (.head _)))
    · exact (hvisit.trans h).begins hW
  have hrest {k : Serial} (hk : k ∈ value.serials) : k ∉ x.serial :: (body.serials ++ [n]) := by
    rw [mem_cons, not_or]
    exact ⟨by rintro rfl; exact hxt (by simp [hk]), fun hl => hvalues hk hl⟩
  rcases hvalue with ⟨hfn, v, s₄, s₅, hfresh, hv, hunify⟩ | ⟨hfn, hv⟩
  · have h₄ := fresh_works.worked hfresh
    have hs₄ := h₄.valid h.valid
    have h₁ := infer_touches hW.solves hs₄ hv
    have h₂ := (unify_works _ _ _).worked hunify
    have hspares : Spares (fun _ => False) env s s₄ := .of_worked h₄ h.valid
    have hsince := hspares.added_le
    have h₅ : Touches Γ solve (fun _ => False) env s₅ s₁ := .of_worked h₂ h₁.valid
    obtain ⟨h₃, hvisit, hnote, hascribed⟩ :=
      hlast h₅.valid ((hsince.trans h₁.added_le).trans h₅.added_le)
    have hvalue : Visit Γ solve (.of (Expr.letIn n x value body).serials env s s') value
        ((x.serial, u) :: env) s₄ v s₅ := by
      refine hap.visit hvs (fun _ => hrest) hs₄ hsince hv ((Touches.of_worked h₂ h₁.valid).trans h₃)
        (fun k hk => ⟨henv (by simp [hk]), hap.unbound k (hvs.subset hk)⟩) fun {k w} hk => ?_
      rcases lookup_cons_eq_some hk with ⟨rfl, rfl⟩ | hk
      · exact .inr ⟨hx, hnote⟩
      · exact .inl hk
    refine ⟨u, v, _, _, _, _, _, hvalue.trans h, hvisit, .inr ⟨?_, rfl, ?_⟩, ?_, hascribed⟩
    · rintro hnone
      rw [hnone] at hfn
      cases hfn
    · rw [(fresh_eq_ok hfresh).1]
      rfl
    · exact unify_agrees h₁.valid hunify (h₃.evolves.trans h.evolves)
  · have h₁ := infer_touches hW.solves h.valid hv
    obtain ⟨h₃, hvisit, -, hascribed⟩ := hlast h₁.valid h₁.added_le
    have hvalue : Visit Γ solve (.of (Expr.letIn n x value body).serials env s s') value env s u
        s₁ := by
      refine hap.visit hvs (fun _ => hrest) h.valid le_rfl hv h₃ (fun k hk => ?_) .inl
      exact ⟨hap.unbound k (hvs.subset hk), hap.unbound k (hvs.subset hk)⟩
    refine ⟨u, u, _, _, _, _, _, hvalue.trans h, hvisit, .inl ⟨?_, rfl, rfl⟩, Ty.agree_self _,
      hascribed⟩
    exact Option.not_isSome_iff_eq_none.1 (by rw [hfn]; decide)

theorem cond {test whenTrue whenFalse : Expr}
    (h : Visit Γ solve W (.cond n test whenTrue whenFalse) env s t s') :
    ∃ c u s₁ s₂ s₃ s₄, Visit Γ solve W test env s c s₁ ∧ Visit Γ solve W whenTrue env s₂ t s₃ ∧
      Visit Γ solve W whenFalse env s₃ u s₄ ∧ W.final.engine.store.Agrees (.bool, c) ∧
      W.final.engine.store.Agrees (t, u) := by
  have hap := h.apart hW
  obtain ⟨c, u, s₁, s₂, s₃, s₄, s₅, hc, hbool, ht, hu, hunify, hend⟩ := infer_cond_ok_iff.1 h.run
  have h₁ := infer_touches hW.solves h.valid hc
  have q₁ : Touches Γ solve (fun _ => False) env s₁ s₂ :=
    .of_worked ((unify_works _ _ _).worked hbool) h₁.valid
  have h₂ := infer_touches hW.solves q₁.valid ht
  have h₃ := infer_touches hW.solves h₂.valid hu
  have q₂ := (unify_works _ _ _).worked hunify
  have q₃ : Touches Γ solve (Near foreign [n]) env s₅ s' := .node (q₂.valid h₃.valid) hend
  have h₄ := (Touches.of_worked q₂ h₃.valid).trans q₃
  have h₅ := h₃.seq h₄
  have h₆ := (q₁.mono (fun _ => False.elim) fun _ _ => .inr rfl).trans (h₂.seq h₅)
  have hsub : (whenTrue.serials ++ (whenFalse.serials ++ [n])).Sublist
      (Expr.cond n test whenTrue whenFalse).serials := sublist_append_right _ _
  have hsub' : (whenFalse.serials ++ [n]).Sublist
      (Expr.cond n test whenTrue whenFalse).serials := (sublist_append_right _ _).trans hsub
  have hsince := h₁.added_le.trans q₁.added_le
  have htrue := (hap.visit_front hsub q₁.valid hsince ht h₅).trans h
  exact ⟨c, u, s₁, s₂, s₃, s₄, (hap.visit_front (List.Sublist.refl _) h.valid le_rfl hc h₆).trans h,
    htrue, (hap.visit_front hsub' h₂.valid (hsince.trans h₂.added_le) hu h₄).trans h,
    unify_agrees h₁.valid hbool (htrue.begins hW),
    unify_agrees h₃.valid hunify (q₃.evolves.trans h.evolves)⟩

theorem proj {index : Index} (h : Visit Γ solve W (.proj n c index) env s t s') :
    ∃ u s₁ s₂, Visit Γ solve W c env s u s₁ ∧
      projectFrom Γ (.proj n c index) u index s₁ = .ok t s₂ ∧
      s₂.engine = s'.engine := by
  have hap := h.apart hW
  obtain ⟨u, s₁, s₂, hu, hproj, hend⟩ := infer_proj_ok_iff.1 h.run
  have h₁ := infer_touches hW.solves h.valid hu
  have q₁ := (projectFrom_works _ _ _).worked hproj
  have hrest : Touches Γ solve (Near foreign [n]) env s₁ s' :=
    (Touches.of_worked q₁ h₁.valid).trans (.node (q₁.valid h₁.valid) hend)
  exact ⟨u, s₁, s₂, (hap.visit_front (List.Sublist.refl _) h.valid le_rfl hu hrest).trans h, hproj,
    by rw [hend]; rfl⟩

theorem tuple {fields : List Expr} (h : Visit Γ solve W (.tuple n fields) env s t s') :
    ∃ ts, List.Forall₂ (fun c u => ∃ s₁ s₂, Visit Γ solve W c env s₁ u s₂) fields ts ∧
      t = .tuple ts := by
  have hap := h.apart hW
  obtain ⟨ts, s₁, hts, ht, hend⟩ := infer_tuple_ok_iff.1 h.run
  have h₁ := inferList_touches hW.solves h.valid hts
  have hrest : Touches Γ solve (Near foreign [n]) env s₁ s' := .node h₁.valid hend
  refine ⟨ts, ?_, ht⟩
  refine (inferList_visits h.valid hW.solves (hap.sublist (sublist_append_left _ _)) hts).imp ?_
  rintro c u ⟨s₂, s₃, hc⟩
  exact ⟨s₂, s₃, (hap.visit_after (List.Sublist.refl _) le_rfl hc hrest).trans h⟩

/-- The steps of a call that is typed on the way. -/
theorem call {callee : Expr} {args : List Expr} {typeArgs : Option (List Ty)} {attrs : Attrs}
    (h : Visit Γ solve W (.call n callee args typeArgs attrs) env s t s') :
    ∃ f direct ts given s₁ s₂, CallVisit Γ solve W n callee args typeArgs attrs env f t direct ts
      given s s₁ s₂ := by
  have hap := h.apart hW
  have hnoted : s'.note? n = some t := infer_notes rfl h.run
  obtain ⟨f, direct, ts, given, s₁, s₂, s₃, hcallee, hargs, happly, hend⟩ :=
    infer_call_ok_iff.1 h.run
  have h₁ := hcallee.touches hW.solves h.valid
  have h₂ := inferList_touches hW.solves h₁.valid hargs
  have h₃ : Touches Γ solve (Near foreign [n]) env s₂ s' := hend ▸ applyTo_touches h₂.valid happly
  have hsub : (Expr.serialsList args ++ [n]).Sublist
      (Expr.call n callee args typeArgs attrs).serials := sublist_append_right _ _
  have hmem : n ∈ (Expr.call n callee args typeArgs attrs).serials :=
    hsub.subset (mem_append_right _ (.head _))
  refine ⟨f, direct, ts, given, s₂, s₃, h₂.valid, fun href => ?_, fun href => ?_, ?_, happly, ?_,
    h.sublist.subset hmem, (h.notes n hmem).trans hnoted, (h.calls n hmem).trans ?_⟩
  · rcases hcallee with ⟨htrue, -⟩ | ⟨-, -, hdirect, hf⟩
    · rw [href] at htrue
      cases htrue
    · exact ⟨hdirect, _, _,
        (hap.visit_front (List.Sublist.refl _) h.valid le_rfl hf (h₂.seq h₃)).trans h⟩
  · rcases hcallee with ⟨-, us, s₄, hrun, hdirect, rfl⟩ | ⟨hfalse, -⟩
    · refine ⟨us, s₄, hrun, hdirect, fun hshared => ?_⟩
      have hserial : callee.serial ∈ callee.serials := by
        cases callee with
        | op => exact .head _
        | global | ctor => cases hshared
        | _ => cases href
      have hown := mem_append_left (Expr.serialsList args ++ [n]) hserial
      have hlater := (h₂.seq h₃).note_eq (hap.not_near hown fun hl =>
        disjoint_of_nodup_append hap.nodup hserial hl) (hap.unbound _ hown)
      refine ⟨h.sublist.subset hown, ?_⟩
      rw [h.notes _ hown, hlater, State.notedExpr, hshared]
      exact note?_noted_self ..
    · rw [href] at hfalse
      cases hfalse
  · refine (inferList_visits h₁.valid hW.solves
      (hap.sublist ((sublist_append_left _ _).trans hsub)) hargs).imp ?_
    rintro c u ⟨s₄, s₅, hc⟩
    exact ⟨s₄, s₅, (hap.visit_after hsub h₁.added_le hc h₃).trans h⟩
  · have hstore : s₃.engine = s'.engine := by
      rw [hend]
      rfl
    rw [hstore]
    exact h.evolves
  · subst hend
    exact (Table.get?_insert ..).trans (if_pos rfl)

/-- What is matched on is typed and, if there are clauses, remembered. The clauses are gone through,
and the types of their bodies agree with the first, which is that of the match. -/
theorem matchOn {subject : Expr} (h : Visit Γ solve W (.matchOn n subject clauses) env s t s') :
    ∃ u s₁ branches, Visit Γ solve W subject env s u s₁ ∧
      (clauses ≠ [] → (subject, u) ∈ W.final.scrutinees) ∧
      List.Forall₂ (fun clause b => ∃ bound s₂ s₃ s₄,
        ClauseVisit Γ solve W u env clause b bound s₂ s₃ s₄) clauses branches ∧
      (branches = [] ∧ t.isCell = true ∨ branches.head? = some t) ∧
      ∀ b ∈ branches, W.final.engine.store.Agrees (t, b) := by
  have hap := h.apart hW
  obtain ⟨u, branches, s₁, s₂, s₃, s₄, hu, hcheck, hclauses, hjoin, hend⟩ :=
    infer_matchOn_ok_iff.1 h.run
  have h₁ := infer_touches hW.solves h.valid hu
  have q₁ : Touches Γ solve (Near foreign []) env s₁ s₂ :=
    .of_worked ((checkSubject_works _ _ _).worked hcheck) h₁.valid
  have h₂ := inferClauses_touches hW.solves q₁.valid hclauses
  have h₃ : Touches Γ solve (Near foreign [n]) env s₃ s₄ := hjoin.touches h₂.valid
  have h₄ : Touches Γ solve (Near foreign [n]) env s₄ s' := .node h₃.valid hend
  have hsub : (Expr.clauseSerials clauses ++ [n]).Sublist
      (Expr.matchOn n subject clauses).serials := sublist_append_right _ _
  have hvisits := inferClauses_visits hW.solves q₁.valid
    (hap.sublist ((sublist_append_left _ _).trans hsub)) hclauses
  refine ⟨u, s₁, branches.map Prod.snd, (hap.visit_front (List.Sublist.refl _) h.valid le_rfl hu
    (q₁.seq (h₂.seq (h₃.trans h₄)))).trans h, fun hne => ?_, ?_, ?_, ?_⟩
  · obtain ⟨clause, clauses, rfl⟩ := exists_cons_of_ne_nil hne
    obtain ⟨bound, v, more, s₅, s₆, -, -, -, rfl⟩ := inferClauses_cons_ok_iff.1 hclauses
    obtain ⟨-, s₇, -, rfl⟩ := hjoin
    refine h.subjects ?_
    rw [hend]
    exact mem_append_right _ (.head _)
  · rw [forall₂_map_right_iff]
    refine hvisits.imp ?_
    rintro clause b ⟨bound, s₅, s₆, s₇, hc⟩
    refine ⟨bound, s₅, s₆, s₇, (hc.embed ((sublist_append_left _ _).trans hsub)
      (h₁.added_le.trans q₁.added_le) (h₃.trans h₄) fun k hk => ⟨?_, ?_⟩).trans h⟩
    · exact hap.not_near (hsub.subset (mem_append_left _ hk)) fun hl =>
        disjoint_of_nodup_append (hap.nodup.sublist hsub) hk hl
    · exact hap.unbound k (hsub.subset (mem_append_left _ hk))
  · cases branches with
    | nil =>
      refine .inl ⟨rfl, ?_⟩
      rw [(fresh_eq_ok hjoin).1]
      rfl
    | cons b rest => exact .inr (congrArg some hjoin.1.symm)
  · intro b hb
    cases branches with
    | nil => cases hb
    | cons first rest =>
      obtain ⟨rfl, s₅, hunify, rfl⟩ := hjoin
      have hagree := unifyBranches_agree h₂.valid hunify (h₄.evolves.trans h.evolves)
      rcases mem_cons.1 hb with rfl | hb
      · exact Ty.agree_self _
      · obtain ⟨x, hx, rfl⟩ := mem_map.1 hb
        exact hagree x hx

/-- Every part of a node but a reference is typed when the node is. -/
theorem child (h : Visit Γ solve W e env s t s') (hc : c ∈ e.children)
    (href : c.isReference = false) : Visited Γ solve W c := by
  cases e with
  | var | global | op | ctor | constant => cases hc
  | fn n params body ret typeParams relations =>
    obtain rfl := mem_singleton.1 hc
    obtain ⟨ts, b, s₁, s₂, -, hbody, -⟩ := h.fn hW
    exact ⟨_, _, _, _, hbody⟩
  | call n callee args typeArgs attrs =>
    obtain ⟨f, direct, ts, given, s₁, s₂, hcall⟩ := h.call hW
    rcases mem_cons.1 hc with rfl | hc
    · obtain ⟨-, s₃, s₄, hcallee⟩ := hcall.calleeTyped href
      exact ⟨_, _, _, _, hcallee⟩
    · obtain ⟨u, -, s₃, s₄, harg⟩ := exists_of_mem_forall₂ hcall.argsTyped hc
      exact ⟨_, _, _, _, harg⟩
  | letIn n x value body =>
    obtain ⟨u, v, env', s₁, s₂, s₃, s₄, hvalue, hbody, -⟩ := h.letIn hW
    simp only [Expr.children, mem_cons, not_mem_nil, or_false] at hc
    rcases hc with rfl | rfl
    · exact ⟨_, _, _, _, hvalue⟩
    · exact ⟨_, _, _, _, hbody⟩
  | tuple n fields =>
    obtain ⟨ts, hfields, -⟩ := h.tuple hW
    obtain ⟨u, -, s₁, s₂, hfield⟩ := exists_of_mem_forall₂ hfields hc
    exact ⟨_, _, _, _, hfield⟩
  | proj n d index =>
    obtain rfl := mem_singleton.1 hc
    obtain ⟨u, s₁, s₂, hvisit, -⟩ := h.proj hW
    exact ⟨_, _, _, _, hvisit⟩
  | cond n test whenTrue whenFalse =>
    obtain ⟨b, u, s₁, s₂, s₃, s₄, htest, htrue, hfalse, -⟩ := h.cond hW
    simp only [Expr.children, mem_cons, not_mem_nil, or_false] at hc
    rcases hc with rfl | rfl | rfl
    · exact ⟨_, _, _, _, htest⟩
    · exact ⟨_, _, _, _, htrue⟩
    · exact ⟨_, _, _, _, hfalse⟩
  | matchOn n subject clauses =>
    obtain ⟨u, s₁, branches, hsubject, -, hclauses, -⟩ := h.matchOn hW
    rcases mem_cons.1 hc with rfl | hc
    · exact ⟨_, _, _, _, hsubject⟩
    · obtain ⟨clause, hclause, rfl⟩ := mem_map.1 hc
      obtain ⟨b, -, bound, s₂, s₃, s₄, hvisit⟩ := exists_of_mem_forall₂ hclauses hclause
      exact ⟨_, _, _, _, hvisit.body⟩

/-- Every part of an expression that is typed, but references, is typed on the way. -/
theorem part {d : Expr} (h : Visit Γ solve W e env s t s') (hd : d ∈ e.parts)
    (href : d.isReference = false) : Visited Γ solve W d := by
  induction e using Expr.induction_children generalizing env s t s' with
  | step e ih =>
    rcases Expr.mem_parts_iff.1 hd with rfl | ⟨c, hc, hd⟩
    · exact ⟨_, _, _, _, h⟩
    · have hcref : c.isReference = false := by
        cases c with
        | global | op | ctor =>
          rcases Expr.mem_parts_iff.1 hd with rfl | ⟨b, hb, -⟩
          · cases href
          · cases hb
        | _ => rfl
      obtain ⟨env', s₁, u, s₂, hvisit⟩ := h.child hW hc hcref
      exact ih c hc hvisit hd

end Visit

end

end TensorTyping.Inference
