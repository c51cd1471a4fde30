import TensorTyping.Proofs.Inference.Bodies
import TensorTyping.Proofs.Inference.Order
import TensorTyping.Proofs.Module.Extension

/-!
# Everything that is typed is noted

Typing an expression goes through all of it. When it succeeds, every node of the expression and
every variable bound in it is noted, and every function mentioned in it is one of the module or has
a provisional type (`Surveys`). A symbol that is matched on has a provisional type, since every
other type of a symbol is seen to be that of a function. Nothing is assumed here of the numbers:
they need not be different.

So when the groups of a module are typed, every body is noted as a whole, mentions functions of the
module only, and matches on no symbol but at the type of a function.
-/
namespace TensorTyping.Inference

open List

variable {Γ : Context} {s s' s'' : State}

/-- The numbers `ns` have been noted and the functions `gs` could be referred to. What was noted
before is noted still, perhaps with another type. A symbol that has been matched on has a provisional
type. -/
structure Surveys (Γ : Context) (ns : List Serial) (gs : List Global) (s s' : State) : Prop where
  valid : s'.engine.Valid
  provisional_eq : s'.provisional = s.provisional
  kept : ∀ n, s.note? n ≠ none → s'.note? n ≠ none
  noted : ∀ n ∈ ns, s'.note? n ≠ none
  known : ∀ g ∈ gs, Γ.module.functions.contains g = true ∨ s.provisional.get? g ≠ none
  matched : ∀ x ∈ s'.scrutinees, x ∈ s.scrutinees ∨
    (x.1.isShared = true → ∃ g, s.provisional.get? g = some x.2)

namespace Surveys

variable {ns ns' : List Serial} {gs gs' : List Global}

theorem of_notes_eq (hs : s'.engine.Valid) (hprovisional : s'.provisional = s.provisional)
    (hnotes : s'.nodeTypes = s.nodeTypes) (hscrutinees : s'.scrutinees = s.scrutinees) :
    Surveys Γ [] [] s s' where
  valid := hs
  provisional_eq := hprovisional
  kept n hn := by
    rw [State.note?, hnotes]
    exact hn
  noted := by simp
  known := by simp
  matched _ hx := .inl (hscrutinees ▸ hx)

theorem refl (hs : s.engine.Valid) : Surveys Γ [] [] s s := .of_notes_eq hs rfl rfl rfl

theorem seq (h : Surveys Γ ns gs s s') (h' : Surveys Γ ns' gs' s' s'') :
    Surveys Γ (ns ++ ns') (gs ++ gs') s s'' where
  valid := h'.valid
  provisional_eq := h'.provisional_eq.trans h.provisional_eq
  kept n hn := h'.kept n (h.kept n hn)
  noted n hn := by
    rcases mem_append.1 hn with hn | hn
    · exact h'.kept n (h.noted n hn)
    · exact h'.noted n hn
  known g hg := by
    rcases mem_append.1 hg with hg | hg
    · exact h.known g hg
    · rw [← h.provisional_eq]
      exact h'.known g hg
  matched x hx := by
    rcases h'.matched x hx with hx | hx
    · exact h.matched x hx
    · rw [h.provisional_eq] at hx
      exact .inr hx

theorem mono (h : Surveys Γ ns gs s s') (hns : ns' ⊆ ns) (hgs : gs' ⊆ gs) :
    Surveys Γ ns' gs' s s' :=
  ⟨h.valid, h.provisional_eq, h.kept, fun n hn => h.noted n (hns hn),
    fun g hg => h.known g (hgs hg), h.matched⟩

end Surveys

/-- Where nothing can be typed on demand, provisional types stay and so does what is noted, perhaps
with another type. -/
theorem Remit.Changes.kept {R : Remit} (hR : R.solve = refuse) (h : R.Changes s s') :
    s'.provisional = s.provisional ∧ ∀ n, s.note? n ≠ none → s'.note? n ≠ none := by
  induction h with
  | refl => exact ⟨rfl, fun _ => id⟩
  | tail _ hchange ih =>
    cases hchange with
    | worked h =>
      obtain ⟨e, -, rfl⟩ := h
      exact ih
    | noted p _ =>
      refine ⟨ih.1, fun n hn => ?_⟩
      rw [State.noted, note?_insert]
      split
      · simp
      · exact ih.2 n hn
    | called | rescoped | matched => exact ih
    | solved _ hrun =>
      rw [hR] at hrun
      cases hrun

theorem infer_surveys {e : Expr} {env : Env} {t : Ty} (hs : s.engine.Valid)
    (h : infer Γ refuse e env s = .ok t s') : Surveys Γ e.serials e.mentions s s' := by
  have hpass := (Remit.infer_liberal refuse e (fun _ hg => hg) env s).ends.of_ok h
  have hkept := hpass.changes.kept rfl
  refine ⟨(infer_touches (refuse_within fun _ => False) hs h).valid, hkept.1, hkept.2, fun n hn => ?_,
    fun g hg => ?_, fun x hx => ?_⟩
  · obtain ⟨s₁, p, u, -, h₂⟩ := hpass.noted n hn
    exact (h₂.kept rfl).2 n (by simp [note?_noted_self])
  · refine (hpass.referred g hg).imp_right ?_
    rintro ⟨s₁, h₁, hp⟩
    rwa [← (h₁.kept rfl).1]
  · rcases hpass.matched x hx with hx | hx | ⟨s₁, s₂, g, hsolve⟩
    · exact .inl hx
    · refine .inr fun hshared => ?_
      obtain ⟨s₁, g, h₁, hp⟩ := hx hshared
      exact ⟨g, by rw [← hkept.1, (h₁.kept rfl).1, hp]⟩
    · cases hsolve

/-- The functions that are mentioned in the body of a function of the module. -/
def mentionsIn (Γ : Context) (g : Global) : List Global :=
  ((Γ.module.functions.get? g).map fun f => f.body.mentions).getD []

theorem typeBody_surveys {g : Global} {span : Span} (hs : s.engine.Valid)
    (h : typeBody Γ refuse g s = .ok span s') :
    Surveys Γ (serialsIn Γ g) (mentionsIn Γ g) s s' := by
  obtain ⟨f, t, s₁, hf, hinfer, -, hrest⟩ := typeBody_eq_ok h
  have h₁ := infer_surveys hs hinfer
  obtain ⟨hrests, heq⟩ := hrest h₁.valid.store
  have h₂ : Surveys Γ [] [] s₁ s' :=
    .of_notes_eq (hrests.valid h₁.valid) (by rw [heq]) (by rw [heq]) (by rw [heq])
  refine (h₁.seq h₂).mono ?_ ?_
  · simp [serialsIn_eq hf]
  · simp [mentionsIn, hf, Function.toExpr, Expr.mentions]

theorem typeBodies_surveys {gs : List Global} {spans : List Span} (hs : s.engine.Valid)
    (h : typeBodies Γ refuse gs s = .ok spans s') :
    Surveys Γ (gs.flatMap (serialsIn Γ)) (gs.flatMap (mentionsIn Γ)) s s' := by
  induction gs generalizing s spans with
  | nil =>
    obtain ⟨-, rfl⟩ := pure_ok_iff.1 h
    exact .refl hs
  | cons g gs ih =>
    obtain ⟨span, s₁, rest, hbody, hrest, -⟩ := typeBodies_cons h
    have h₁ := typeBody_surveys hs hbody
    exact h₁.seq (ih h₁.valid hrest)

/-- Groups have been typed: only their bodies are touched, all of each body is noted, the functions
that it mentions are in the module, and a symbol that is matched on has the type of a function. -/
structure Surveyed (Γ : Context) (groups : List (List Global)) (s s' : State) : Prop where
  spares : Spares (· ∈ groups.flatten.flatMap (serialsIn Γ)) [] s s'
  kept : ∀ n, s.note? n ≠ none → s'.note? n ≠ none
  noted : ∀ n ∈ groups.flatten.flatMap (serialsIn Γ), s'.note? n ≠ none
  known : ∀ g ∈ groups.flatten.flatMap (mentionsIn Γ), Γ.module.functions.contains g = true
  matched : ∀ x ∈ s'.scrutinees, x ∈ s.scrutinees ∨ (x.1.isShared = true →
    ∃ as b ps rs, s'.engine.store.resolve x.2 = .func as b ps rs)

theorem Surveyed.trans {groups groups' : List (List Global)} (h : Surveyed Γ groups s s')
    (h' : Surveyed Γ groups' s' s'') : Surveyed Γ (groups ++ groups') s s'' where
  spares := by
    rw [flatten_append, flatMap_append]
    exact (h.spares.mono (fun n hn => mem_append_left _ hn) fun _ _ => .inl rfl).trans
      (h'.spares.mono (fun n hn => mem_append_right _ hn) fun _ _ => .inl rfl)
  kept n hn := h'.kept n (h.kept n hn)
  noted n hn := by
    rw [flatten_append, flatMap_append, mem_append] at hn
    exact hn.elim (fun hn => h'.kept n (h.noted n hn)) (h'.noted n)
  known g hg := by
    rw [flatten_append, flatMap_append, mem_append] at hg
    exact hg.elim (h.known g) (h'.known g)
  matched x hx := by
    rcases h'.matched x hx with hx | hx
    · refine (h.matched x hx).imp_right fun hx hshared => ?_
      obtain ⟨as, b, ps, rs, hfunc⟩ := hx hshared
      have hlater := h'.spares.evolves.later.resolve_resolve x.2
      rw [hfunc, Store.resolve_eq, Ty.mapCells_func] at hlater
      exact ⟨_, _, _, _, hlater.symm⟩
    · exact .inr hx

theorem typeGroup_surveyed {before after : List (List Global)} {group : List Global}
    {solve : Global → InferM Unit} (hready : Ready before s)
    (hgroups : Γ.module.groups = before ++ group :: after)
    (h : typeGroup Γ solve group s = .ok () s') : Surveyed Γ [group] s s' := by
  have hrun := hready.typeGroup hgroups h
  obtain ⟨opened, typed, spans, e, run⟩ := typeGroup_eq_ok hready hgroups hrun
  have hnodup := Module.groups_nodup hgroups
  have hopened : opened.engine.Valid := run.opened_eq.rests.valid hready.valid
  have hsurveys := typeBodies_surveys hopened run.bodies
  have hnotes : s'.nodeTypes = typed.nodeTypes := run.closes.notes_eq.1
  have hkept : ∀ n, s'.note? n = typed.note? n := fun n => by rw [State.note?, State.note?, hnotes]
  have hfirst : ∀ n, opened.note? n = s.note? n := fun n => by
    rw [State.note?, State.note?, run.opened_eq.notes_eq.1]
  constructor
  · refine (typeGroup_spares (refuse_within fun _ => False) hnodup hready.valid hrun).mono
      (fun n hn => ?_) fun _ _ => .inl rfl
    simpa [Near] using hn
  · intro n hn
    rw [hkept]
    exact hsurveys.kept n (by rwa [hfirst])
  · intro n hn
    rw [hkept]
    exact hsurveys.noted n (by simpa using hn)
  · intro g hg
    rcases hsurveys.known g (by simpa using hg) with hg | hg
    · exact hg
    -- A function has a provisional type only if it is in the group.
    · by_contra hnot
      refine hg ((run.opened_eq.others g fun hmem => hnot ?_).trans (hready.provisional_eq g))
      have hkey : g ∈ Γ.module.functions.keys := by
        apply Module.mem_keys_of_mem_groups
        rw [hgroups]
        simp [(mem_undeclared.1 hmem).1]
      exact Table.contains_iff_mem_keys.2 hkey
  · intro x hx
    rw [run.closes.scrutinees_eq] at hx
    rw [← run.opened_eq.scrutinees_eq]
    refine (hsurveys.matched x hx).imp_right fun hx hshared => ?_
    obtain ⟨g, hg⟩ := hx hshared
    -- The type was provisional when the group was open, and has become that of the function.
    by_cases hmem : g ∈ Γ.undeclared group
    · obtain ⟨hgroup, hd⟩ := mem_undeclared.1 hmem
      obtain ⟨span, hspan, rfl⟩ := mem_map.1 (run.functions_eq.symm ▸ hgroup)
      obtain ⟨t, ht, ⟨f, sig, -, -, ⟨ps, rs, hfunc⟩, -⟩, -⟩ := run.closes.recorded span hspan hd
      rw [run.grows.provisional_eq, hg] at ht
      cases ht
      exact ⟨_, _, _, _, hfunc⟩
    · rw [run.opened_eq.others g hmem, hready.provisional_eq] at hg
      cases hg

/-- The groups of a module are typed one after the other, each with all of its bodies. -/
theorem solveGroups_surveyed (hΓ : Γ.groups = Γ.module.groups) {before rest : List (List Global)}
    (hgroups : Γ.groups = before ++ rest) (hready : Ready before s)
    (h : solveGroups Γ rest s = .ok () s') : Surveyed Γ rest s s' := by
  induction rest generalizing before s with
  | nil =>
    obtain ⟨-, rfl⟩ := pure_ok_iff.1 h
    exact ⟨.refl hready.valid, fun _ hn => hn, by simp, by simp, fun _ => .inl⟩
  | cons group rest ih =>
    obtain ⟨s₁, _, _, _, _, hgroup, run, hrest⟩ := solveGroups_cons_eq_ok hΓ hgroups hready h
    have hnext := typeGroup_surveyed hready (hΓ ▸ hgroups) hgroup
    exact hnext.trans (ih (by simpa using hgroups) (run.ready hready) hrest)

end TensorTyping.Inference
