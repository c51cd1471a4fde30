import TensorTyping.Proofs.Unify.Pair

/-!
# Reachable stores

A store is reachable when some sequence of operations leads to it from an empty store. The
operations may be given any types, those with cells of other stores as well, and may stop part way
with a fault; what was done up to then counts.

Every operation keeps a store valid, so a reachable store is. From the graph of a valid store
follows that its substitution is acyclic, and that resolving, said as a recursion without any
bound, comes to an end.
-/
namespace TensorTyping.Store

variable {s : Store}

inductive Operation where
  | fresh
  | find (t : Ty)
  | resolve (t : Ty)
  | freeCells (t : Ty)
  | bind (v t : Ty) (site : Option Phrase)
  | unify (a b : Ty) (site : Option Phrase)

def Operation.perform : Operation → StoreM Unit
  | .fresh => do let _ ← StoreM.fresh
  | .find t => do let _ ← StoreM.find t
  | .resolve t => do let _ ← StoreM.resolve t
  | .freeCells t => do let _ ← StoreM.freeCells t
  | .bind v t site => StoreM.bind v t site
  | .unify a b site => StoreM.unify a b site

def after (s : Store) (op : Operation) : Store := endState op.perform s

def afterAll (s : Store) (ops : List Operation) : Store := ops.foldl after s

/-- Some sequence of operations leads from an empty store to this one. -/
def Reachable (s : Store) : Prop :=
  ∃ (serial : Serial) (ops : List Operation), afterAll { serial } ops = s

theorem valid_empty (serial : Serial) : ({ serial } : Store).Valid where
  link_lt h := by simp [Link] at h
  owned h := by simp at h
  proper h := by simp at h
  height_le h := by simp at h
  acyclic i h := by
    obtain ⟨j, hij, _⟩ := Relation.TransGen.head'_iff.1 h
    simp [Needs, Link] at hij

theorem value_empty (serial : Serial) (c : Cell) : ({ serial } : Store).value c = .cell c := by
  rw [(valid_empty serial).value_eq_expand, expand]
  split <;> rfl

def Operation.isQuery : Operation → Bool
  | .find _ | .resolve _ | .freeCells _ => true
  | _ => false

theorem Valid.after_kept (h : s.Valid) {op : Operation} (hop : op.isQuery = true) :
    s.Kept (s.after op) := by
  unfold after
  cases op with
  | find t =>
    rw [Operation.perform, endState_bind_pure _ fun _ => ()]
    exact StoreM.find_kept h t
  | resolve t =>
    rw [Operation.perform, endState_bind_pure _ fun _ => ()]
    exact StoreM.resolve_kept h t
  | freeCells t =>
    rw [Operation.perform, endState_bind_pure _ fun _ => ()]
    exact StoreM.freeCells_kept h t
  | _ => cases hop

theorem Valid.after_evolves (h : s.Valid) (op : Operation) : s.Evolves (s.after op) := by
  cases op with
  | fresh => exact StoreM.fresh_evolves h
  | find | resolve | freeCells => exact (h.after_kept rfl).evolves
  | bind v t site => exact StoreM.bind_evolves h v t site
  | unify a b site => exact StoreM.unify_evolves h a b site

theorem Valid.afterAll_evolves (h : s.Valid) (ops : List Operation) :
    s.Evolves (s.afterAll ops) := by
  induction ops generalizing s with
  | nil => exact .refl h
  | cons op ops ih =>
    have hop := h.after_evolves op
    exact hop.trans (ih hop.valid)

theorem Reachable.valid (h : s.Reachable) : s.Valid := by
  obtain ⟨serial, ops, rfl⟩ := h
  exact ((valid_empty serial).afterAll_evolves ops).valid

/-- The cell `i` is bound to a type in which a cell with the root `r` occurs. -/
def BoundOver (s : Store) (i r : Nat) : Prop :=
  ∃ t, s.slots[i]? = some (.bound t) ∧ ∃ c ∈ t.cellOccurrences, s.root c.index = r

theorem Valid.path_of_boundOver (h : s.Valid) {i r : Nat} (hir : s.BoundOver i r) :
    Relation.TransGen s.Needs i r := by
  obtain ⟨t, ht, c, hc, rfl⟩ := hir
  have hlt := (owns_iff.1 (h.owned ht c hc)).2
  exact Relation.TransGen.head' (.inr ⟨t, ht, c, hc, rfl⟩) (needs_path (h.path_root hlt))

/-- The substitution of a reachable store is acyclic: links lead every cell to a root, bound cells
are roots, every cell in a bound type belongs to the store, and no chain of bound types leads back
to where it started. So the recursion that resolves a type of the store comes to an end, only free
cells of the store are left in its result, and resolving it again changes nothing. -/
theorem Reachable.substitution_acyclic {s : Store} (h : s.Reachable) :
    (∀ i < s.size, Relation.ReflTransGen s.Link i (s.root i) ∧ s.root i < s.size ∧
        s.IsRoot (s.root i)) ∧
      (∀ i t, s.slots[i]? = some (.bound t) → s.IsRoot i ∧ s.ownsAll t = true) ∧
      (∀ i, ¬ Relation.TransGen s.BoundOver i i) ∧
      ∀ t, s.ownsAll t = true →
        (∃ s', StoreM.resolve t s = .ok (s.resolve t) s') ∧ s.Resolves t (s.resolve t) ∧
        (∀ c ∈ (s.resolve t).cellOccurrences,
          s.owns c = true ∧ s.slots[c.index]? = some .free) ∧
        s.resolve (s.resolve t) = s.resolve t := by
  have hv := h.valid
  refine ⟨fun i hi => ?_, fun i t ht => ?_, ?_, fun t ht => ?_⟩
  · exact ⟨hv.path_root hi, hv.root_lt hi, hv.isRoot_root hi⟩
  · exact ⟨isRoot_of_bound ht, ownsAll_iff.2 (hv.owned ht)⟩
  · exact acyclic_of_paths (fun _ _ => hv.path_of_boundOver) hv.acyclic
  · obtain ⟨s', hrun, _⟩ := StoreM.resolve_ok hv ht
    exact ⟨⟨s', hrun⟩, hv.resolves_resolve t, fun c hc => hv.free_of_mem_resolve ht hc,
      hv.resolve_resolve t⟩

/-- One cell is bound to a tuple of the other, and the unification that would close the circle is
refused. -/
theorem substitution_acyclic_after_refusal :
    let s := afterAll {} [.fresh, .fresh, .bind (.cell ⟨0, 0⟩) (.tuple [.cell ⟨0, 1⟩]) none,
      .unify (.cell ⟨0, 1⟩) (.cell ⟨0, 0⟩) none]
    s.Reachable ∧ s.BoundOver 0 1 ∧ ∀ i, ¬ Relation.TransGen s.BoundOver i i := by
  intro s
  have hs : s.Reachable := ⟨0, _, rfl⟩
  have hmem : ⟨0, 1⟩ ∈ (Ty.tuple [.cell ⟨0, 1⟩]).cellOccurrences := by decide
  exact ⟨hs, ⟨_, rfl, _, hmem, rfl⟩, hs.substitution_acyclic.2.2.1⟩

end TensorTyping.Store
