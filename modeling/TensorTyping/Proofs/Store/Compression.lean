import TensorTyping.Proofs.Simulation
import TensorTyping.Proofs.Store.Reachable

/-!
# Shorter paths are invisible

Following the links from a cell points every cell on the way straight at the root. The loop that
does this ends, no cell gets another root by it, and from then on the root is one link away. Two
stores that differ only in their paths give the same answers to every operation and then differ
only in their paths again. So it never shows whether something was looked up before.
-/
namespace TensorTyping

section InStep

variable {ε σ α β : Type} {R : σ → σ → Prop} {s s' t t' : σ} {x : EStateM ε σ α}

/-- From both states the computation comes to the same result, or stops with the same fault, and
the states in which it ends are related. -/
abbrev InStep (R : σ → σ → Prop) (x : EStateM ε σ α) (s t : σ) : Prop :=
  Lockstep R (fun _ => Eq) Eq (x s) (x t)

namespace InStep

theorem ok {a : α} (hs : x s = .ok a s') (ht : x t = .ok a t') (h : R s' t') : InStep R x s t := by
  rw [InStep, hs, ht]
  exact Lockstep.ok h rfl

theorem error {e : ε} (hs : x s = .error e s') (ht : x t = .error e t') (h : R s' t') :
    InStep R x s t := by
  rw [InStep, hs, ht]
  exact Lockstep.error h rfl

protected theorem pure {a : α} (h : R s t) : InStep R (pure a : EStateM ε σ α) s t := ok rfl rfl h

protected theorem throw {e : ε} (h : R s t) : InStep R (throw e : EStateM ε σ α) s t :=
  error rfl rfl h

protected theorem bind {f : α → EStateM ε σ β} (hx : InStep R x s t)
    (hf : ∀ a s' t', x s = .ok a s' → R s' t' → InStep R (f a) s' t') : InStep R (x >>= f) s t := by
  apply Lockstep.bind hx
  rintro a _ s' t' hs h rfl
  exact hf a s' t' hs h

end InStep

end InStep

namespace Store

variable {s s' t t' : Store} {v : Cell} {u : Ty} {r i : Nat} {slots slots' : Array Slot}

/-- The cell that a cell is linked to, or the cell itself if it is a root. -/
def parent (s : Store) (i : Nat) : Nat :=
  match s.slots[i]? with
  | some (.link j) => j
  | _ => i

/-- Cells are pointed at `r` one after the other, along the old links from `i`, until one comes that
has no other parent. This is the loop without a bound on the number of steps. -/
inductive Straightens (r : Nat) : Nat → Array Slot → Array Slot → Prop
  | stop {i : Nat} {slots : Array Slot} : (∀ j, slots[i]? = some (.link j) → j = r) →
      Straightens r i slots slots
  | step {i j : Nat} {slots slots' : Array Slot} : slots[i]? = some (.link j) → j ≠ r →
      Straightens r j (slots.setIfInBounds i (.link r)) slots' → Straightens r i slots slots'

theorem Valid.rank_relink_le (h : s.Valid) {j : Nat} (hij : s.Link i j) (k : Nat) :
    (h.relink hij).rank k ≤ h.rank k := by
  classical
  refine Finset.card_le_card fun l hl => ?_
  simp only [Finset.mem_filter, size_relink] at hl ⊢
  exact ⟨hl.1, Relation.TransGen.closed (fun _ _ => h.needs_relink hij) _ _ hl.2⟩

/-- The bound on the number of steps is never felt, since the number of cells behind the next cell
is less each time. -/
theorem Valid.straightens (h : s.Valid) {fuel : Nat} (hi : i < s.size) (hfuel : h.rank i ≤ fuel) :
    Straightens (s.root i) i s.slots (Store.shortenWithin (s.root i) fuel i s.slots) := by
  induction fuel generalizing s i with
  | zero =>
    refine .stop fun j hij => ?_
    have := h.rank_lt_of_link hij
    omega
  | succ fuel ih =>
    unfold Store.shortenWithin
    split
    · next j hj =>
      have hij : s.Link i j := hj
      split
      · next heq => exact .stop fun k hk => by cases hj.symm.trans hk; exact heq
      · next hne =>
        have hroot : (s.relink i).root j = s.root i := by
          rw [h.root_relink hij (h.link_lt hij), h.root_of_link hij]
        have hrank := (h.rank_relink_le hij j).trans_lt (h.rank_lt_of_link hij)
        have hrest := ih (h.relink hij) (by rw [size_relink]; exact h.link_lt hij) (by omega)
        rw [hroot] at hrest
        exact .step hj hne hrest
    · next hnone => exact .stop fun j hj => absurd hj (hnone j)

/-- What points at `r` is left to. -/
theorem Straightens.keeps (h : Straightens r i slots slots') {k : Nat}
    (hk : slots[k]? = some (.link r)) : slots'[k]? = some (.link r) := by
  induction h with
  | stop => exact hk
  | @step i j slots slots' hj hne _ ih =>
    apply ih
    rw [slots_set (Array.getElem?_eq_some_iff.1 hj).1]
    split
    · rfl
    · exact hk

theorem Straightens.points (h : Straightens r i slots slots') {j : Nat}
    (hj : slots[i]? = some (.link j)) : slots'[i]? = some (.link r) := by
  cases h with
  | stop hstop => rw [hj, hstop j hj]
  | step hj' _ hrest =>
    apply hrest.keeps
    rw [slots_set (Array.getElem?_eq_some_iff.1 hj').1, if_pos rfl]

theorem Straightens.eq_self (h : Straightens r i slots slots')
    (hi : ∀ j, slots[i]? ≠ some (.link j)) : slots' = slots := by
  cases h with
  | stop => rfl
  | step hj => exact absurd hj (hi _)

theorem Valid.parent_shorten (h : s.Valid) (hi : i < s.size) :
    (s.shorten i).parent i = s.root i := by
  have hloop := h.straightens hi (Nat.le_of_lt (h.rank_lt_size hi))
  by_cases hroot : s.IsRoot i
  · rw [h.root_of_isRoot hi hroot, parent, Store.shorten, hloop.eq_self hroot]
    split
    · next j hj => exact absurd hj (hroot j)
    · rfl
  · obtain ⟨j, hj⟩ := not_forall_not.1 hroot
    have hpoints : (s.shorten i).slots[i]? = some (.link (s.root i)) := hloop.points hj
    rw [parent, hpoints]

theorem SameView.symm (h : s.SameView s') : s'.SameView s where
  serial_eq := h.serial_eq.symm
  size_eq := h.size_eq.symm
  trail_eq := h.trail_eq.symm
  height_eq := h.height_eq.symm
  root_eq i hi := (h.root_eq i (by rwa [← h.size_eq])).symm
  peek_eq c := (h.peek_eq c).symm

/-- Both stores are valid, and they differ only in their paths. -/
structure Alike (s t : Store) : Prop where
  left : s.Valid
  right : t.Valid
  view : s.SameView t

theorem Alike.kept (h : s.Alike t) (hs : s.Kept s') (ht : t.Kept t') : s'.Alike t' :=
  ⟨hs.valid, ht.valid, (hs.view.symm.trans h.view).trans ht.view⟩

/-- A free cell of the store. -/
def HasFree (s : Store) (c : Cell) : Prop := s.owns c = true ∧ s.slots[c.index]? = some .free

theorem Alike.hasFree (h : s.Alike t) (hv : s.HasFree v) : t.HasFree v :=
  ⟨by rw [h.view.owns_eq, hv.1], (h.view.free_iff h.left h.right hv.1).2 hv.2⟩

theorem Alike.binds (h : s.Alike t) (hs : s.Binds v u s') (ht : t.Binds v u t')
    (hheight : t'.height = s'.height) : s'.Alike t' := by
  refine ⟨hs.valid, ht.valid, ?_⟩
  have hserial : t'.serial = s'.serial := by rw [ht.serial_eq, hs.serial_eq, h.view.serial_eq]
  refine ⟨hserial, by rw [ht.size_eq, hs.size_eq, h.view.size_eq],
    by rw [ht.trail_eq, hs.trail_eq, h.view.trail_eq], hheight, fun i hi => ?_, fun c => ?_⟩
  · rw [hs.size_eq] at hi
    have hc : s.owns (s.cellAt i) = true := owns_cellAt.2 hi
    have hleader : t'.leader (s.cellAt i) = s'.leader (s.cellAt i) := by
      rw [ht.leader_eq _ (by rw [h.view.owns_eq, hc]), hs.leader_eq _ hc, h.view.leader_eq hc,
        h.view.top_eq]
    exact congrArg Cell.index hleader
  · by_cases hc : s.peek c = .cell v
    · rw [ht.peek_self c (by rw [h.view.peek_eq, hc]), hs.peek_self c hc, h.view.top_eq]
    · rw [ht.peek_of_ne c (by rwa [h.view.peek_eq]), hs.peek_of_ne c hc, h.view.peek_eq]

theorem Alike.fresh (h : s.Alike t) : s.fresh.2.Alike t.fresh.2 := by
  refine ⟨h.left.fresh, h.right.fresh, h.view.serial_eq, by simp [h.view.size_eq],
    h.view.trail_eq, h.view.height_eq, fun i hi => ?_, fun c => ?_⟩
  · rw [size_fresh] at hi
    by_cases hlt : i < s.size
    · rw [h.left.root_fresh hlt, h.right.root_fresh (by rwa [h.view.size_eq]), h.view.root_eq i hlt]
    · obtain rfl : i = s.size := by omega
      rw [root_new s h.left, ← h.view.size_eq, root_new t h.right]
  · rw [h.left.peek_fresh, h.right.peek_fresh, h.view.peek_eq]

end Store

namespace StoreM

open Store

variable {s s' t : Store} {a b u v : Ty} {c : Cell} {site : Option Phrase}

theorem find_inStep (h : s.Alike t) (u : Ty) : InStep Alike (find u) s t := by
  cases hu : s.ownsTop u with
  | false =>
    exact .error (find_foreign hu) (find_foreign (by rw [h.view.ownsTop_eq, hu])) h
  | true =>
    obtain ⟨s', hs, hks⟩ := find_ok h.left hu
    obtain ⟨t', ht, hkt⟩ := find_ok h.right (by rw [h.view.ownsTop_eq, hu])
    rw [h.view.top_eq] at ht
    exact .ok hs ht (h.kept hks hkt)

theorem resolve_inStep (h : s.Alike t) (u : Ty) : InStep Alike (resolve u) s t := by
  cases hu : s.ownsAll u with
  | false =>
    obtain ⟨s', hs, hks⟩ := resolve_foreign h.left hu
    obtain ⟨t', ht, hkt⟩ := resolve_foreign h.right (by rw [h.view.ownsAll_eq, hu])
    exact .error hs ht (h.kept hks hkt)
  | true =>
    obtain ⟨s', hs, hks⟩ := resolve_ok h.left hu
    obtain ⟨t', ht, hkt⟩ := resolve_ok h.right (by rw [h.view.ownsAll_eq, hu])
    rw [h.view.resolve_eq] at ht
    exact .ok hs ht (h.kept hks hkt)

theorem freeCells_inStep (h : s.Alike t) (u : Ty) : InStep Alike (freeCells u) s t :=
  (resolve_inStep h u).bind fun _ _ _ _ => .pure

theorem hasFree_of_find (h : s.Valid) (hrun : find v s = .ok (.cell c) s') : s'.HasFree c := by
  cases hv : s.ownsTop v with
  | false => cases (find_foreign hv).symm.trans hrun
  | true =>
    obtain ⟨_, hfind, hk⟩ := find_ok h hv
    obtain ⟨htop, rfl⟩ : s.top v = .cell c ∧ _ = s' := by simpa [hfind] using hrun
    have hov : s.ownsAll v = true := by
      cases v with
      | cell d => exact ownsAll_iff.2 (by simpa [ownsTop] using hv)
      | _ => cases htop
    exact Alike.hasFree ⟨h, hk.valid, hk.view⟩ (h.top_eq_cell hov htop)

theorem bindProper_inStep (h : s.Alike t) (hc : s.HasFree c) (hu : u.isCell = false) :
    InStep Alike (bindProper c u site) s t := by
  apply (freeCells_inStep h u).bind
  intro cs s₁ t₁ hs₁ h₁
  split
  · exact .throw h₁
  · next hmem =>
    refine .ok rfl rfl ?_
    cases hou : s.ownsAll u with
    | false =>
      obtain ⟨_, hforeign, -⟩ := freeCells_foreign h.left hou
      cases hforeign.symm.trans hs₁
    | true =>
      obtain ⟨_, hfree, hk⟩ := freeCells_ok h.left hou
      cases hfree.symm.trans hs₁
      have hou₁ : s₁.ownsAll u = true := by rw [hk.view.ownsAll_eq, hou]
      have hocc : c ∉ (s₁.resolve u).cellOccurrences := by
        rw [hk.view.resolve_eq]
        exact fun hmem' => hmem (Ty.mem_cells.2 hmem')
      have hs := Alike.hasFree ⟨h.left, hk.valid, hk.view⟩ hc
      have ht := h₁.hasFree hs
      refine h₁.binds (h₁.left.binds_bound hs.1 hs.2 hu hou₁ hocc)
        (h₁.right.binds_bound ht.1 ht.2 hu ?_ ?_) (congrArg (max · _) h₁.view.height_eq)
      · rw [h₁.view.ownsAll_eq, hou₁]
      · rwa [h₁.view.resolve_eq]

theorem bind_inStep (h : s.Alike t) (v u : Ty) (site : Option Phrase) :
    InStep Alike (bind v u site) s t := by
  unfold bind
  apply (find_inStep h v).bind
  intro a s₁ t₁ hs₁ h₁
  cases a with
  | cell r =>
    apply (find_inStep h₁ u).bind
    intro b s₂ t₂ hs₂ h₂
    have hr : s₂.HasFree r := by
      have hk := find_kept h₁.left u
      rw [endState_of_ok hs₂] at hk
      exact Alike.hasFree ⟨h₁.left, hk.valid, hk.view⟩ (hasFree_of_find h.left hs₁)
    cases b with
    | cell d =>
      have hd := hasFree_of_find h₁.left hs₂
      have hr' := h₂.hasFree hr
      have hd' := h₂.hasFree hd
      simp only
      split
      · exact .pure h₂
      · next hne =>
        exact .ok rfl rfl (h₂.binds (h₂.left.binds_link hr.1 hr.2 hd.1 hd.2 hne)
          (h₂.right.binds_link hr'.1 hr'.2 hd'.1 hd'.2 hne)
          (congrArg (max · 0) h₂.view.height_eq))
    | _ => exact bindProper_inStep h₂ hr rfl
  | _ => exact .throw h₁

theorem unifyPair_inStep (h : s.Alike t) (x y : Ty) : InStep Alike (unifyPair site x y) s t := by
  unfold unifyPair
  apply (find_inStep h x).bind
  intro x s₁ t₁ _ h₁
  apply (find_inStep h₁ y).bind
  intro y s₂ t₂ _ h₂
  have hbind (a b : Ty) :
      InStep Alike (do bind a b site; return [] : StoreM (List (Ty × Ty))) s₂ t₂ :=
    (bind_inStep h₂ a b site).bind fun _ _ _ _ => .pure
  split
  · exact .pure h₂
  · split
    · exact hbind _ _
    · exact hbind _ _
    · split
      · exact .pure h₂
      · apply (resolve_inStep h₂ _).bind
        intro a s₃ t₃ _ h₃
        apply (resolve_inStep h₃ _).bind
        intro b s₄ t₄ _ h₄
        exact .throw h₄
      · exact .throw h₂

theorem unifyRound_inStep (h : s.Alike t) (pairs : List (Ty × Ty)) :
    InStep Alike (unifyRound site pairs) s t := by
  induction pairs generalizing s t with
  | nil => exact .pure h
  | cons pair pairs ih =>
    apply (unifyPair_inStep h pair.1 pair.2).bind
    intro parts s₁ t₁ _ h₁
    exact (ih h₁).bind fun _ _ _ _ => .pure

theorem unifyWithin_inStep (h : s.Alike t) (fuel : Nat) (pairs : List (Ty × Ty)) :
    InStep Alike (unifyWithin site fuel pairs) s t := by
  induction fuel generalizing s t pairs with
  | zero =>
    cases pairs with
    | nil => exact .pure h
    | cons => exact .throw h
  | succ fuel ih =>
    cases pairs with
    | nil => exact .pure h
    | cons pair pairs =>
      exact (unifyRound_inStep h (pair :: pairs)).bind fun _ _ _ _ h₁ => ih h₁ _

theorem unify_inStep (h : s.Alike t) (a b : Ty) (site : Option Phrase) :
    InStep Alike (unify a b site) s t := by
  have hrounds : rounds t a b = rounds s a b := by
    rw [rounds, rounds, h.view.height_eq, h.view.size_eq]
  unfold unify
  rw [InStep, get_bind, get_bind, hrounds]
  exact unifyWithin_inStep h (rounds s a b) [(a, b)]

end StoreM

namespace Store

variable {s t : Store}

inductive Answer where
  | done
  | type (t : Ty)
  | cells (cs : List Cell)

namespace Operation

def ask : Operation → StoreM Answer
  | .fresh => do return .type (← StoreM.fresh)
  | .find t => do return .type (← StoreM.find t)
  | .resolve t => do return .type (← StoreM.resolve t)
  | .freeCells t => do return .cells (← StoreM.freeCells t)
  | .bind v t site => do StoreM.bind v t site; return .done
  | .unify a b site => do StoreM.unify a b site; return .done

def reply (op : Operation) (s : Store) : Except Fault Answer :=
  match op.ask s with
  | .ok a _ => .ok a
  | .error f _ => .error f

theorem endState_ask (op : Operation) (s : Store) : endState op.ask s = s.after op := by
  cases op <;> simp only [ask, after, perform, endState_bind_pure]

theorem ask_inStep (h : s.Alike t) (op : Operation) : InStep Alike op.ask s t := by
  cases op with
  | fresh =>
    have hcell : t.fresh.1 = s.fresh.1 := by
      simp only [Store.fresh, cellAt, h.view.serial_eq, h.view.size_eq]
    have hrun : StoreM.fresh t = .ok (.cell s.fresh.1) t.fresh.2 := by
      rw [← hcell]
      rfl
    exact InStep.bind (.ok rfl hrun h.fresh) fun _ _ _ _ => .pure
  | find u => exact (StoreM.find_inStep h u).bind fun _ _ _ _ => .pure
  | resolve u => exact (StoreM.resolve_inStep h u).bind fun _ _ _ _ => .pure
  | freeCells u => exact (StoreM.freeCells_inStep h u).bind fun _ _ _ _ => .pure
  | bind v u site => exact (StoreM.bind_inStep h v u site).bind fun _ _ _ _ => .pure
  | unify a b site => exact (StoreM.unify_inStep h a b site).bind fun _ _ _ _ => .pure

end Operation

abbrev Query := { op : Operation // op.isQuery = true }

/-- Perform operations with queries in between, and tell what the operations answer. -/
def replies : Store → List (Query ⊕ Operation) → List (Except Fault Answer)
  | _, [] => []
  | s, .inl q :: steps => replies (s.after q.1) steps
  | s, .inr op :: steps => op.reply s :: replies (s.after op) steps

/-- Queries change no later reply. -/
theorem Alike.replies_eq (h : s.Alike t) (steps : List (Query ⊕ Operation)) :
    s.replies steps = t.replies (steps.filter Sum.isRight) := by
  induction steps generalizing s t with
  | nil => rfl
  | cons step steps ih =>
    cases step with
    | inl q => exact ih (h.kept (h.left.after_kept q.2) (.refl h.right))
    | inr op =>
      have hop := op.ask_inStep h
      have hafter := hop.endState
      rw [Operation.endState_ask, Operation.endState_ask] at hafter
      have hreply : op.reply s = op.reply t := by
        unfold Operation.reply
        unfold InStep at hop
        generalize op.ask s = rs at hop
        generalize op.ask t = rt at hop
        cases hop with
        | ok _ hab => rw [hab]
        | error _ hfg => rw [hfg]
      rw [List.filter_cons_of_pos rfl, replies, replies, hreply, ih hafter]

/-- Shorter paths are invisible. In a reachable store the links from a cell lead to its root, and
pointing the cells on the way at the root comes to an end, leaves the roots of all cells as they
were and makes the root the parent of the cell. So whatever operations are performed from there on,
they answer the same, whether or not anything is looked up before or between them. -/
theorem Reachable.compression_invisible (h : s.Reachable) :
    (∀ i < s.size,
      Relation.ReflTransGen s.Link i (s.root i) ∧ s.IsRoot (s.root i) ∧
      Straightens (s.root i) i s.slots (s.shorten i).slots ∧
      (∀ k < s.size, (s.shorten i).root k = s.root k) ∧
      (s.shorten i).parent i = s.root i) ∧
    ∀ steps : List (Query ⊕ Operation), s.replies steps = s.replies (steps.filter Sum.isRight) := by
  have hv := h.valid
  refine ⟨fun i hi => ?_, fun steps => Alike.replies_eq ⟨hv, hv, .refl s⟩ steps⟩
  exact ⟨hv.path_root hi, hv.isRoot_root hi, hv.straightens hi (Nat.le_of_lt (hv.rank_lt_size hi)),
    (hv.shorten i).2.root_eq, hv.parent_shorten hi⟩

/-- A chain of two links, the first of which is made to point at the root. -/
theorem compression_invisible_chain :
    let s := afterAll {} [.fresh, .fresh, .fresh, .bind (.cell ⟨0, 0⟩) (.cell ⟨0, 1⟩) none,
      .bind (.cell ⟨0, 1⟩) (.cell ⟨0, 2⟩) none]
    s.Reachable ∧ s.parent 0 = 1 ∧ (s.shorten 0).parent 0 = 2 ∧
      ∀ steps : List (Query ⊕ Operation),
        s.replies steps = s.replies (steps.filter Sum.isRight) := by
  intro s
  have hs : s.Reachable := ⟨0, _, rfl⟩
  have hroot : s.root 0 = 2 := by decide +kernel
  obtain ⟨hcells, hreplies⟩ := hs.compression_invisible
  have hparent := (hcells 0 (by decide +kernel)).2.2.2.2
  rw [hroot] at hparent
  exact ⟨hs, by decide +kernel, hparent, hreplies⟩

end Store

end TensorTyping
