import TensorTyping.Proofs.Inference.Growth

/-!
# What typing leaves alone

Typing an expression notes the types of its own nodes and of the variables that it binds. Besides,
it notes variables of the environment again, at the types that the environment has for them, and
whatever is noted when a function is typed on demand. So what is noted of other numbers stays
(`Spares`, `Touches`).
-/
namespace TensorTyping

open List

variable {κ : Type}

theorem Table.keys_put {α : Type} [DecidableEq κ] (k : κ) (a : α) (es : List (κ × α)) :
    (Table.put k a es).map Prod.fst =
      if k ∈ es.map Prod.fst then es.map Prod.fst else es.map Prod.fst ++ [k] := by
  induction es with
  | nil => simp [Table.put]
  | cons e es ih =>
    obtain ⟨k', a'⟩ := e
    by_cases hk : k = k'
    · simp [Table.put, hk]
    · simp only [Table.put, hk, if_false, map_cons, ih, mem_cons, false_or]
      split <;> rfl

theorem Table.nodup_keys_insert {α : Type} [DecidableEq κ] {t : Table κ α} (h : t.keys.Nodup)
    (k : κ) (a : α) : (t.insert k a).keys.Nodup := by
  rw [Table.keys, Table.insert, Table.keys_put]
  split
  · exact h
  · next hk =>
    rw [nodup_append]
    refine ⟨h, by simp, fun x hx y hy hxy => hk ?_⟩
    rw [mem_singleton] at hy
    rwa [hxy, hy] at hx

namespace Inference

variable {e : Expr}

theorem extend_cons (env : Env) (x : Var) (xs : List Var) (t : Ty) (ts : List Ty) :
    extend env (x :: xs) (t :: ts) = extend ((x.serial, t) :: env) xs ts := by
  simp [extend]

def State.note? (s : State) (n : Serial) : Option Ty := (s.nodeTypes.get? n).map Prod.snd

theorem note?_insert (s : State) (n m : Serial) (p : Phrase) (t : Ty) :
    ({ s with nodeTypes := s.nodeTypes.insert n (p, t) } : State).note? m =
      if m = n then some t else s.note? m := by
  simp only [State.note?, Table.get?_insert]
  split <;> rfl

/-- The state has moved on. Outside of the numbers `own` nothing has been noted but variables, at
the types that the environment has for them. -/
structure Spares (own : Serial → Prop) (env : Env) (s s' : State) : Prop where
  valid : s'.engine.Valid
  evolves : s.engine.store.Evolves s'.engine.store
  added_le : s.engine.added ≤ s'.engine.added
  notes : ∀ n, ¬ own n → s'.note? n = s.note? n ∨
    ∃ t, env.lookup n = some t ∧ s'.note? n = some t
  calls : ∀ n, ¬ own n → s'.callArgs.get? n = s.callArgs.get? n
  noteKeys : s.nodeTypes.keys.Nodup → s'.nodeTypes.keys.Nodup
  callKeys : s.callArgs.keys.Nodup → s'.callArgs.keys.Nodup
  subjects : s.scrutinees ⊆ s'.scrutinees

namespace Spares

variable {own own' : Serial → Prop} {env env' : Env} {s s' s'' : State}
variable {n : Serial}

theorem refl (hs : s.engine.Valid) : Spares own env s s :=
  ⟨hs, .refl hs.store, le_rfl, fun _ _ => .inl rfl, fun _ _ => rfl, id, id, List.Subset.refl _⟩

theorem trans (h : Spares own env s s') (h' : Spares own env s' s'') : Spares own env s s'' where
  valid := h'.valid
  evolves := h.evolves.trans h'.evolves
  added_le := h.added_le.trans h'.added_le
  notes n hn := by
    rcases h'.notes n hn with hn' | hn'
    · rw [hn']
      exact h.notes n hn
    · exact .inr hn'
  calls n hn := (h'.calls n hn).trans (h.calls n hn)
  noteKeys hs := h'.noteKeys (h.noteKeys hs)
  callKeys hs := h'.callKeys (h.callKeys hs)
  subjects := List.Subset.trans h.subjects h'.subjects

/-- More numbers may be touched, and variables with these numbers may go out of scope. -/
theorem mono (h : Spares own env s s') (hown : ∀ n, own n → own' n)
    (henv : ∀ n, ¬ own' n → env.lookup n = none ∨ env.lookup n = env'.lookup n) :
    Spares own' env' s s' where
  valid := h.valid
  evolves := h.evolves
  added_le := h.added_le
  notes n hn := by
    rcases h.notes n fun h => hn (hown n h) with hsame | ⟨t, ht, hnote⟩
    · exact .inl hsame
    · rcases henv n hn with hnone | heq
      · rw [hnone] at ht
        cases ht
      · exact .inr ⟨t, heq ▸ ht, hnote⟩
  calls n hn := h.calls n fun h => hn (hown n h)
  noteKeys := h.noteKeys
  callKeys := h.callKeys
  subjects := h.subjects

theorem of_notes_eq (hs : s'.engine.Valid) (hevolves : s.engine.store.Evolves s'.engine.store)
    (hadded : s.engine.added ≤ s'.engine.added)
    (hnotes : s'.nodeTypes = s.nodeTypes ∧ s'.callArgs = s.callArgs)
    (hsubjects : s'.scrutinees = s.scrutinees) : Spares own env s s' where
  valid := hs
  evolves := hevolves
  added_le := hadded
  notes n _ := .inl (by rw [State.note?, State.note?, hnotes.1])
  calls n _ := by rw [hnotes.2]
  noteKeys hk := hnotes.1 ▸ hk
  callKeys hk := hnotes.2 ▸ hk
  subjects := hsubjects ▸ List.Subset.refl _

theorem of_worked (h : Worked s s') (hs : s.engine.Valid) : Spares own env s s' := by
  obtain ⟨new, hnew⟩ := h.gains hs
  have hadded : s.engine.added ≤ s'.engine.added := hnew.added_eq ▸ Nat.le_add_right _ _
  obtain ⟨e, -, rfl⟩ := h
  exact of_notes_eq (hnew.valid hs) hnew.evolves hadded ⟨rfl, rfl⟩ rfl

theorem noted (hs : s.engine.Valid) {t : Ty} (p : Phrase) (hn : own n ∨ env.lookup n = some t) :
    Spares own env s (s.noted n p t) where
  valid := hs
  evolves := .refl hs.store
  added_le := le_rfl
  notes m hm := by
    have hnote : (s.noted n p t).note? m = if m = n then some t else s.note? m :=
      note?_insert s n m p t
    rw [hnote]
    split
    · next heq =>
      subst heq
      exact .inr ⟨t, hn.resolve_left hm, rfl⟩
    · exact .inl rfl
  calls _ _ := rfl
  noteKeys hk := Table.nodup_keys_insert hk n (p, t)
  callKeys hk := hk
  subjects := List.Subset.refl _

theorem notedExpr (hs : s.engine.Valid) {t : Ty}
    (he : e.isShared = false → own e.serial ∨ env.lookup e.serial = some t) :
    Spares own env s (s.notedExpr e t) := by
  unfold State.notedExpr
  split
  · exact .refl hs
  · next hshared => exact .noted hs _ (he (Bool.eq_false_iff.2 hshared))

theorem called (hs : s.engine.Valid) (ts : List Ty) (hn : own n) :
    Spares own env s { s with callArgs := s.callArgs.insert n ts } where
  valid := hs
  evolves := .refl hs.store
  added_le := le_rfl
  notes _ _ := .inl rfl
  calls m hm := by
    have hne : m ≠ n := by
      rintro rfl
      exact hm hn
    simp only [Table.get?_insert, hne, if_false]
  noteKeys hk := hk
  callKeys hk := Table.nodup_keys_insert hk n ts
  subjects := List.Subset.refl _

theorem withScope (h : Spares own env s s') (scope : List TypeParam) :
    Spares own env s { s' with scope } :=
  ⟨h.valid, h.evolves, h.added_le, h.notes, h.calls, h.noteKeys, h.callKeys, h.subjects⟩

end Spares

/-- A function is typed on demand without touching any number but the given ones. -/
def SolvesWithin (solve : Global → InferM Unit) (foreign : Serial → Prop) : Prop :=
  ∀ g s s', s.engine.Valid → solve g s = .ok () s' → Spares foreign [] s s'

def refuse (g : Global) : InferM Unit := throw (.missing g.name)

theorem refuse_within (foreign : Serial → Prop) : SolvesWithin refuse foreign := by
  intro g s s' _ h
  cases h

theorem Changes.grows_of_refuse {Γ : Context} {mentioned : Global → Prop} {s s' : State}
    (h : Changes Γ refuse mentioned s s') (hs : s.engine.Valid) : Grows s s' := by
  induction h with
  | refl => exact .refl hs.store
  | tail _ hchange ih =>
    have hvalid := ih.valid hs
    exact ih.trans (hchange.grows hvalid fun _ _ _ => .refl hvalid.store)

/-- Typing has gone on, and other numbers have been spared. -/
structure Touches (Γ : Context) (solve : Global → InferM Unit) (own : Serial → Prop) (env : Env)
    (s s' : State) : Prop extends Spares own env s s' where
  changes : Changes Γ solve (fun _ => True) s s'

namespace Touches

variable {Γ : Context} {solve : Global → InferM Unit} {own own' : Serial → Prop} {env env' : Env}
  {s s' s'' : State}

theorem refl (hs : s.engine.Valid) : Touches Γ solve own env s s := ⟨.refl hs, .refl⟩

theorem trans (h : Touches Γ solve own env s s') (h' : Touches Γ solve own env s' s'') :
    Touches Γ solve own env s s'' :=
  ⟨h.toSpares.trans h'.toSpares, h.changes.trans h'.changes⟩

theorem mono (h : Touches Γ solve own env s s') (hown : ∀ n, own n → own' n)
    (henv : ∀ n, ¬ own' n → env.lookup n = none ∨ env.lookup n = env'.lookup n) :
    Touches Γ solve own' env' s s' :=
  ⟨h.toSpares.mono hown henv, h.changes⟩

theorem of_worked (h : Worked s s') (hs : s.engine.Valid) : Touches Γ solve own env s s' :=
  ⟨.of_worked h hs, h.changes⟩

theorem then_works (h : Touches Γ solve own env s s') {α : Type} {act : InferM α} (hact : Works act)
    {a : α} (hrun : act s' = .ok a s'') : Touches Γ solve own env s s'' :=
  h.trans (of_worked (hact.worked hrun) h.valid)

theorem notedExpr (hs : s.engine.Valid) {t : Ty}
    (he : e.isShared = false → own e.serial ∨ env.lookup e.serial = some t) :
    Touches Γ solve own env s (s.notedExpr e t) := by
  refine ⟨.notedExpr hs he, ?_⟩
  unfold State.notedExpr
  split
  · exact .refl
  · exact .single (.noted s _ s.callArgs s.scope s.scrutinees)

theorem withScope (h : Touches Γ solve own env s s') (scope : List TypeParam) :
    Touches Γ solve own env s { s' with scope } :=
  ⟨h.toSpares.withScope scope,
    h.changes.tail (.noted s' s'.nodeTypes s'.callArgs scope s'.scrutinees)⟩

end Touches

section

variable {l l' : List Serial}

variable {Γ : Context} {solve : Global → InferM Unit} {own foreign : Serial → Prop} {env : Env}
  {s s' : State} {α : Type}
variable {ts : List Ty} {t : Ty} {bound : Env} {n : Serial}
variable {ns : List Serial} {gs : List Global} {a : α} {s'' : State}

theorem Remit.Changes.spares {R : Remit} (hsolve : SolvesWithin R.solve foreign)
    (hown : ∀ n, foreign n → R.own n) (h : R.Changes s s') (hs : s.engine.Valid) :
    Spares R.own R.env s s' := by
  induction h with
  | refl => exact .refl hs
  | tail _ hchange ih =>
    refine ih.trans ?_
    cases hchange with
    | worked h => exact .of_worked h ih.valid
    | noted p hn => exact .noted ih.valid p hn
    | called ts hn => exact .called ih.valid ts hn
    | rescoped scope => exact (Spares.refl ih.valid).withScope scope
    | matched subject t =>
      exact { Spares.refl ih.valid with
        valid := ih.valid
        subjects := subset_append_left _ _ }
    | solved hg hrun => exact (hsolve _ _ _ ih.valid hrun).mono hown fun _ _ => .inl rfl

theorem spares_of_confined {act : InferM α}
    (h : ∀ solve, Remit.Confined ⟨Γ, solve, fun _ => True, own, env⟩ ns gs act act)
    (hs : s.engine.Valid) (hrun : act s = .ok a s') : Spares own env s s' := by
  exact ((h _ s).ends.of_ok hrun).changes.spares (refuse_within fun _ => False)
    (fun _ => False.elim) hs

theorem paramTypes_spares {xs : List Var} (hs : s.engine.Valid) (hown : ∀ x ∈ xs, own x.serial)
    (h : paramTypes Γ xs s = .ok ts s') : Spares own env s s' :=
  spares_of_confined (fun _ => Remit.paramTypes_confined hown) hs h

theorem checkPattern_spares {p : Pattern} (hs : s.engine.Valid) (hown : ∀ n ∈ p.inner, own n)
    (h : checkPattern Γ p t s = .ok bound s') : Spares own env s s' :=
  spares_of_confined (fun _ => Remit.checkPattern_confined hown t) hs h

theorem checkPatterns_spares {ps : List Pattern} (hs : s.engine.Valid)
    (hown : ∀ n ∈ Pattern.serialsList ps, own n) (hlen : ps.length = ts.length)
    (h : checkPatterns Γ ps ts s = .ok bound s') : Spares own env s s' :=
  spares_of_confined (fun _ => Remit.checkPatterns_confined hown hlen) hs h

theorem lookup_append_of_not_mem (h : ∀ b ∈ bound, b.1 ≠ n) :
    (bound ++ env).lookup n = env.lookup n := by
  have hnone : bound.lookup n = none := by
    rw [lookup_eq_none_iff]
    intro b hb
    rw [bne_iff_ne]
    exact (h b hb).symm
  rw [lookup_append, hnone, Option.none_or]

/-- The numbers in a list and foreign ones. -/
def Near (foreign : Serial → Prop) (own : List Serial) (n : Serial) : Prop := n ∈ own ∨ foreign n

theorem Near.mono (hsub : l ⊆ l') (h : Near foreign l n) : Near foreign l' n :=
  h.imp_left fun hn => hsub hn

theorem Spares.seq (h : Spares (Near foreign l) env s s')
    (h' : Spares (Near foreign l') env s' s'') : Spares (Near foreign (l ++ l')) env s s'' :=
  (h.mono (fun _ => .mono (subset_append_left _ _)) fun _ _ => .inr rfl).trans
    (h'.mono (fun _ => .mono (subset_append_right _ _)) fun _ _ => .inr rfl)

theorem Touches.seq (h : Touches Γ solve (Near foreign l) env s s')
    (h' : Touches Γ solve (Near foreign l') env s' s'') :
    Touches Γ solve (Near foreign (l ++ l')) env s s'' :=
  ⟨h.toSpares.seq h'.toSpares, h.changes.trans h'.changes⟩

theorem Touches.node (hs : s.engine.Valid) (hend : s' = s.notedExpr e t) :
    Touches Γ solve (Near foreign [e.serial]) env s s' :=
  hend ▸ .notedExpr hs fun _ => .inl (.inl (.head _))

theorem lookup_extend_of_not_mem {params : List Var} (h : n ∉ params.map fun x => x.serial) :
    (extend env params ts).lookup n = env.lookup n := by
  apply lookup_append_of_not_mem
  rintro b hb rfl
  obtain ⟨⟨x, t⟩, hx, rfl⟩ := mem_map.1 (mem_reverse.1 hb)
  exact h (mem_map.2 ⟨x, (of_mem_zip hx).1, rfl⟩)

theorem lookup_cons_of_ne {x : Serial} (h : n ≠ x) :
    List.lookup n ((x, t) :: env) = env.lookup n := by
  have hne : (n == x) = false := by simpa using h
  rw [lookup_cons, hne]

/-- A remit to note the numbers in a list, foreign ones and the variables of an environment. -/
def Remit.near (Γ : Context) (solve : Global → InferM Unit) (foreign : Serial → Prop)
    (own : List Serial) (env : Env) : Remit :=
  ⟨Γ, solve, fun _ => True, Near foreign own, env⟩

theorem Remit.near_types {own : List Serial} (he : ∀ n ∈ e.serials, n ∈ own) :
    (near Γ solve foreign own env).Types solve e :=
  infer_confined e ⟨fun _ _ => trivial, fun n hn => .inl (he n hn)⟩

theorem Remit.near_covers (own : List Serial) : (near Γ solve foreign own env).Covers env :=
  fun _ _ => .inr

variable (hsolve : SolvesWithin solve foreign)
variable {branches : List (Expr × Ty)} {callee : Expr} {direct typeArgs : Option (List Ty)}
  {attrs : Attrs} {f : Ty}

include hsolve

theorem Remit.Confined.touches {own : List Serial} {x y : InferM α}
    (h : (near Γ solve foreign own env).Confined ns gs x y) (hs : s.engine.Valid)
    (hrun : x s = .ok a s') : Touches Γ solve (Near foreign own) env s s' :=
  have hchanges := ((h s).ends.of_ok hrun).changes
  ⟨hchanges.spares hsolve (fun _ hn => Or.inr hn) hs, hchanges.changes⟩

theorem infer_touches (hs : s.engine.Valid) (h : infer Γ solve e env s = .ok t s') :
    Touches Γ solve (Near foreign e.serials) env s s' :=
  (Remit.near_types (fun _ hn => hn) env (Remit.near_covers _)).touches hsolve hs h

theorem inferList_touches {es : List Expr} (hs : s.engine.Valid)
    (h : inferList Γ solve es env s = .ok ts s') :
    Touches Γ solve (Near foreign (Expr.serialsList es)) env s s' :=
  (Remit.inferList_confined (fun e he => Remit.near_types fun _ hn =>
    Expr.mem_serialsList.2 ⟨e, he, hn⟩) (Remit.near_covers _)).touches hsolve hs h

theorem inferClauses_touches {clauses : List (Pattern × Expr)} (hs : s.engine.Valid)
    (h : inferClauses Γ solve t clauses env s = .ok branches s') :
    Touches Γ solve (Near foreign (Expr.clauseSerials clauses)) env s s' := by
  refine (Remit.inferClauses_confined (fun e he => Remit.near_types fun n hn => ?_)
    (fun _ hn => Or.inl hn) t (Remit.near_covers _)).touches hsolve hs h
  exact Expr.mem_clauseSerials.2 (.inr ⟨e, he, hn⟩)

theorem CalleeRun.touches {site : Expr} (hs : s.engine.Valid)
    (hrun : CalleeRun Γ solve site callee typeArgs attrs env s f direct s') :
    Touches Γ solve (Near foreign callee.serials) env s s' := by
  rcases hrun with ⟨he, given, s₁, hr, -, rfl⟩ | ⟨-, -, -, hf⟩
  · have hrun : reference Γ solve callee typeArgs (.expr site) attrs s = .ok (some (f, given)) s₁ :=
      reference_ok_iff.2 (.inr ⟨he, _, rfl, hr⟩)
    have h₁ : Touches Γ solve (Near foreign callee.serials) env s s₁ :=
      (Remit.reference_confined solve (fun _ _ => trivial) _ _ _).touches hsolve hs hrun
    refine h₁.trans (.notedExpr h₁.valid fun hshared => .inl (.inl ?_))
    cases callee with
    | op m name => exact .head _
    | global | ctor => cases hshared
    | _ => cases he
  · exact infer_touches hsolve hs hf

omit hsolve

theorem applyTo_touches {args : List Expr} {given : List Ty} (hs : s.engine.Valid)
    (h : applyTo Γ (.call n callee args typeArgs attrs) f direct args ts attrs s =
      .ok (t, given) s') :
    Touches Γ solve (Near foreign [n]) env s (({ s' with callArgs := s'.callArgs.insert n given } :
      State).notedExpr (.call n callee args typeArgs attrs) t) := by
  have hn : Near foreign [n] n := .inl (.head _)
  have h₁ : Touches Γ solve (Near foreign [n]) env s s' :=
    (Touches.refl hs).then_works (applyTo_works _ _ _ _ _ _) h
  have h₂ : Touches Γ solve (Near foreign [n]) env s
      { s' with callArgs := s'.callArgs.insert n given } :=
    ⟨h₁.toSpares.trans (.called h₁.valid given hn),
      h₁.changes.tail (.noted s' s'.nodeTypes _ s'.scope s'.scrutinees)⟩
  exact h₂.trans (.notedExpr h₂.valid fun _ => .inl hn)

theorem JoinRun.touches {subject : Expr} {result : Ty} (h : JoinRun subject t branches s result s')
    (hs : s.engine.Valid) : Touches Γ solve own env s s' := by
  cases branches with
  | nil => exact (Touches.refl hs).then_works fresh_works h
  | cons b rest =>
    obtain ⟨-, s₁, hunify, rfl⟩ := h
    have h₁ : Touches Γ solve own env s s₁ :=
      (Touches.refl hs).then_works (unifyBranches_works _ _) hunify
    exact { h₁ with
      valid := h₁.valid
      subjects := List.Subset.trans h₁.subjects (subset_append_left _ _)
      changes := h₁.changes.tail (.noted s₁ s₁.nodeTypes s₁.callArgs s₁.scope _) }

end

end Inference

end TensorTyping
