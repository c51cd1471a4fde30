import TensorTyping.Proofs.Store.Reachable

/-!
# Binding composes substitutions

A store stands for a substitution, the one by which it resolves types. To bind a cell whose root is
free is to compose this substitution with that of the one root. It is refused if the root occurs in
what it would have to stand for, and then the substitution is as before and the trail tells nothing
(`bind_composes`).
-/
namespace TensorTyping

def Substitution.single (r : Cell) (t : Ty) : Substitution := ⟨[(.cell r, t)]⟩

theorem Substitution.apply_single (r : Cell) (t u : Ty) :
    (single r t).apply u = u.mapCells (Ty.assign r t) := by
  have hparam : (single r t).onParam = .param := rfl
  have hcell : (single r t).onCell = Ty.assign r t := rfl
  rw [apply, hparam, hcell, Ty.mapCells]

theorem Substitution.apply_single_self (r : Cell) (u : Ty) : (single r (.cell r)).apply u = u := by
  rw [apply_single]
  refine Ty.mapCells_eq_self fun c _ => ?_
  by_cases hc : c = r
  · rw [hc, Ty.assign_self]
  · rw [Ty.assign_of_ne _ hc]

namespace Store

variable {s s' : Store} {t : Ty} {v r : Cell}

theorem Valid.resolve_eq_cell_iff (h : s.Valid) (ht : s.ownsAll t = true) :
    s.resolve t = .cell r ↔ s.top t = .cell r := by
  -- A type that stands for a cell resolves to it, because that cell is free.
  have hresolve {c : Cell} (hc : s.top t = .cell c) : s.resolve t = .cell c := by
    obtain ⟨howns, hfree⟩ := h.top_eq_cell ht hc
    rw [← h.resolve_top, hc]
    exact h.value_free howns hfree
  refine ⟨fun hr => ?_, hresolve⟩
  have hcell : (s.top t).isCell = true := by
    rw [h.isCell_top, hr]
    rfl
  obtain ⟨c, hc⟩ := Ty.isCell_iff.1 hcell
  rw [hc, ← hresolve hc, hr]

theorem resolve?_of_ownsAll (ht : s.ownsAll t = true) : s.resolve? t = .ok (s.resolve t) :=
  if_pos ht

/-- Nothing but paths has changed: types resolve as before and the trail tells nothing new. -/
structure Unchanged (s s' : Store) : Prop where
  resolve_eq : ∀ x, s.ownsAll x = true → s'.resolve? x = s.resolve? x
  trail_eq : s'.trail = s.trail

/-- The substitution of the root `r` has been composed with what was known, and the trail tells of
the root unless it stood for itself. -/
structure Composed (s : Store) (r : Cell) (t : Ty) (s' : Store) : Prop where
  resolve_eq : ∀ x, s.ownsAll x = true →
    s'.resolve? x = .ok ((Substitution.single r t).apply (s.resolve x))
  trail_eq : t ≠ .cell r → s'.trail = s.trail.push r.index
  trail_eq_self : t = .cell r → s'.trail = s.trail

theorem Kept.unchanged (h : s.Kept s') : s.Unchanged s' where
  resolve_eq x hx := by
    have hx' : s'.ownsAll x = true := h.view.ownsAll_eq x ▸ hx
    rw [resolve?_of_ownsAll hx, resolve?_of_ownsAll hx', h.view.resolve_eq]
  trail_eq := h.view.trail_eq

theorem Kept.composed_self (h : s.Kept s') : s.Composed r (.cell r) s' where
  resolve_eq x hx := by
    rw [h.unchanged.resolve_eq x hx, resolve?_of_ownsAll hx, Substitution.apply_single_self]
  trail_eq hne := absurd rfl hne
  trail_eq_self _ := h.view.trail_eq

theorem Binds.composed (h : s.Binds r t s') (hs : s.Valid) : s.Composed r (s.resolve t) s' where
  resolve_eq x hx := by
    rw [resolve?_of_ownsAll ((h.later hs).ownsAll hx), h.resolve_eq, Substitution.apply_single]
  trail_eq _ := h.trail_eq
  trail_eq_self hr := by
    -- A root that is bound does not occur in what it comes to stand for.
    refine absurd ?_ h.not_mem
    rw [hr]
    exact List.mem_singleton_self r

end Store

namespace StoreM

open Store

variable {s : Store} {v : Cell} {t : Ty}

/-- Everything that can come of binding a cell with a free root to a type of the store. -/
theorem bind_free_cases (h : s.Valid) (hv : s.owns v = true)
    (hroot : s.slots[s.root v.index]? = some .free) (ht : s.ownsAll t = true)
    (site : Option Phrase) :
    let r := s.cellAt (s.root v.index)
    (∃ s' i, bind (.cell v) t site s = .error (.issue i) s' ∧ i.kind = .occursCheck ∧
        s.resolve t ≠ .cell r ∧ r ∈ (s.resolve t).cells ∧ s.Unchanged s') ∨
      ∃ s', bind (.cell v) t site s = .ok () s' ∧
        (s.resolve t = .cell r ∨ r ∉ (s.resolve t).cells) ∧ s.Composed r (s.resolve t) s' := by
  intro r
  have htop : s.top (.cell v) = .cell r := by
    rcases h.peek_cases hv with ⟨-, hpeek⟩ | ⟨u, hu, -⟩
    · exact hpeek
    · rw [hroot] at hu
      cases hu
  have hcell := h.resolve_eq_cell_iff ht (r := r)
  have ho := bind_outcome h (.cell v) t site
  generalize hrun : bind (.cell v) t site s = result at ho
  cases ho with
  | foreign hforeign =>
    rcases hforeign with hforeign | hforeign
    · rw [ownsAll_iff.2 (by simpa using hv)] at hforeign
      cases hforeign
    · rw [ht] at hforeign
      cases hforeign
  | notFree hbound =>
    rw [htop] at hbound
    cases hbound
  | already hr hsame hkept =>
    obtain rfl := Ty.cell.inj (htop.symm.trans hr)
    have hself := hcell.2 hsame
    exact .inr ⟨_, rfl, .inl hself, hself ▸ hkept.composed_self⟩
  | occurs hr hproper hmem hkept =>
    obtain rfl := Ty.cell.inj (htop.symm.trans hr)
    refine .inl ⟨_, _, rfl, rfl, fun hself => ?_, Ty.mem_cells.2 hmem, hkept.unchanged⟩
    rw [hcell.1 hself] at hproper
    cases hproper
  | binds hr hbinds =>
    obtain rfl := Ty.cell.inj (htop.symm.trans hr)
    refine .inr ⟨_, rfl, .inr fun hmem => ?_, hbinds.composed h⟩
    exact hbinds.not_mem (Ty.mem_cells.1 hmem)

/-- Binding composes the substitution or changes nothing. A cell whose root is free is refused a
type exactly if the root occurs in what the type resolves to and is not all of it; then types
resolve as before and the trail tells nothing. Otherwise every type resolves to what it resolved to
before with the root replaced, and the trail tells of the root, once, unless it was all of the
type. -/
theorem bind_composes (hs : s.Reachable) (hv : s.owns v = true)
    (hroot : s.slots[s.root v.index]? = some .free) (ht : s.ownsAll t = true)
    (site : Option Phrase) :
    let r := s.cellAt (s.root v.index)
    ((∃ i s', bind (.cell v) t site s = .error (.issue i) s' ∧ i.kind = .occursCheck) ↔
        s.resolve t ≠ .cell r ∧ r ∈ (s.resolve t).cells) ∧
      (∀ fault s', bind (.cell v) t site s = .error fault s' →
        (∃ i, fault = .issue i ∧ i.kind = .occursCheck) ∧ s.Unchanged s') ∧
      ∀ s', bind (.cell v) t site s = .ok () s' → s.Composed r (s.resolve t) s' := by
  intro r
  rcases bind_free_cases hs.valid hv hroot ht site with
    ⟨s', i, hrun, hkind, hne, hmem, hunchanged⟩ | ⟨s', hrun, hfits, hcomposed⟩
  · rw [hrun]
    refine ⟨⟨fun _ => ⟨hne, hmem⟩, fun _ => ⟨i, s', rfl, hkind⟩⟩, ?_, nofun⟩
    intro fault s₁ herror
    cases herror
    exact ⟨⟨i, rfl, hkind⟩, hunchanged⟩
  · rw [hrun]
    refine ⟨⟨nofun, fun hoccurs => ?_⟩, nofun, ?_⟩
    · exact absurd hoccurs.2 (hfits.resolve_left hoccurs.1)
    · intro s₁ hok
      cases hok
      exact hcomposed

/-- Two cells are made equal and the second is then bound to a pair with a third one; the first
resolves to that pair, and the trail tells of the one root. -/
theorem bind_composes_linked :
    let s := afterAll {} [.fresh, .fresh, .fresh, .bind (.cell ⟨0, 0⟩) (.cell ⟨0, 1⟩) none]
    let t := Ty.tuple [.cell ⟨0, 2⟩, .cell ⟨0, 2⟩]
    s.Reachable ∧ s.owns ⟨0, 0⟩ = true ∧ s.root 0 = 1 ∧ s.slots[1]? = some .free ∧
      s.ownsAll t = true ∧
      ∃ s', bind (.cell ⟨0, 0⟩) t none s = .ok () s' ∧ s.Composed ⟨0, 1⟩ t s' := by
  intro s t
  have hs : s.Reachable := ⟨0, _, rfl⟩
  have hcomposes := bind_composes hs (v := ⟨0, 0⟩) (t := t) (by decide +kernel) rfl
    (by decide +kernel) none
  obtain ⟨⟨⟩, hrun⟩ := succeeds_iff.1 (by decide +kernel : succeeds (bind (.cell ⟨0, 0⟩) t none) s)
  exact ⟨hs, by decide +kernel, by decide +kernel, rfl, by decide +kernel, _, hrun,
    hcomposes.2.2 _ hrun⟩

end StoreM

end TensorTyping
