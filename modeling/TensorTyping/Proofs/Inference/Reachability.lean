import Mathlib.Data.List.Nodup
import TensorTyping.Inference.Generalise

/-!
# Cells connected by relations

A relation connects the cells in its slots with each other. The cells that generalisation turns
into parameters are those that relations connect to the types of the group, and a relation that has
cells but connects to none of these is the one that is blamed. Passes over the waiting relations
compute this: one pass can only add connected cells and let through relations whose cells it has
added, each pass but the last lets one through, and where a pass lets none through, no relation
leads out of the reached cells.
-/
namespace TensorTyping.Inference

open List

variable {cells reached reached' reached'' free : List Cell} {x : Instance × TypeRelation}
  {relations relations' waiting waiting' waiting'' stuck : List (Instance × TypeRelation)}
variable {c : Cell}

/-- The least set of cells that holds the given ones and, with one cell of a relation, all cells of
that relation. -/
inductive Connected (cells : List Cell) (relations : List (Instance × TypeRelation)) : Cell → Prop
  | given {c : Cell} : c ∈ cells → Connected cells relations c
  | across {x : Instance × TypeRelation} {c d : Cell} : x ∈ relations → c ∈ cellsOf x.2.args →
      Connected cells relations c → d ∈ cellsOf x.2.args → Connected cells relations d

/-- A relation that has cells, none of which is connected to the given ones. -/
def Isolated (cells : List Cell) (relations : List (Instance × TypeRelation))
    (x : Instance × TypeRelation) : Prop :=
  cellsOf x.2.args ≠ [] ∧ ∀ c ∈ cellsOf x.2.args, ¬ Connected cells relations c

/-- Passes are made until one lets nothing through. This is the loop without a bound on the number
of passes. -/
inductive Sweeps : List Cell → List (Instance × TypeRelation) →
    List Cell → List (Instance × TypeRelation) → Prop
  | idle {reached : List Cell} {waiting : List (Instance × TypeRelation)} :
      (reachPass reached waiting).2.length = waiting.length →
      Sweeps reached waiting (reachPass reached waiting).1 (reachPass reached waiting).2
  | again {reached reached' : List Cell} {waiting waiting' : List (Instance × TypeRelation)} :
      (reachPass reached waiting).2.length ≠ waiting.length →
      Sweeps (reachPass reached waiting).1 (reachPass reached waiting).2 reached' waiting' →
      Sweeps reached waiting reached' waiting'

/-- Whether a relation has cells and none of them is reached. -/
def waits (reached : List Cell) (x : Instance × TypeRelation) : Bool :=
  !((cellsOf x.2.args).isEmpty || (cellsOf x.2.args).any reached.contains)

theorem waits_iff : waits reached x = true ↔
    cellsOf x.2.args ≠ [] ∧ ∀ c ∈ cellsOf x.2.args, c ∉ reached := by
  simp [waits]

theorem reachPass_of_waits (h : waits reached x = true) :
    reachPass reached (x :: waiting) =
      ((reachPass reached waiting).1, x :: (reachPass reached waiting).2) := by
  rw [waits, Bool.not_eq_true'] at h
  simp only [reachPass, h, Bool.false_eq_true, if_false]

theorem reachPass_of_not_waits (h : waits reached x = false) :
    reachPass reached (x :: waiting) =
      reachPass (reached ++ (cellsOf x.2.args).filter fun c => !reached.contains c) waiting := by
  rw [waits, Bool.not_eq_false'] at h
  simp only [reachPass, h, if_true]

theorem Connected.of_advance (hcells : ∀ c ∈ reached', Connected reached relations c)
    (hsub : waiting ⊆ relations) (h : Connected reached' waiting c) :
    Connected reached relations c := by
  induction h with
  | given hc => exact hcells _ hc
  | across hx hc _ hd ih => exact .across (hsub hx) hc ih hd

theorem Connected.mono (hsub : relations ⊆ relations') (h : Connected cells relations c) :
    Connected cells relations' c :=
  h.of_advance (fun _ => .given) hsub

/-- Cells were added behind those reached, each once and each connected to them, and relations all
of whose cells are reached were let through. -/
structure Advances (reached : List Cell) (relations : List (Instance × TypeRelation))
    (reached' : List Cell) (waiting : List (Instance × TypeRelation)) : Prop where
  starts : reached <+: reached'
  nodup : reached.Nodup → reached'.Nodup
  connected : ∀ c ∈ reached', Connected reached relations c
  sublist : waiting.Sublist relations
  covered : ∀ x ∈ relations, x ∈ waiting ∨ ∀ c ∈ cellsOf x.2.args, c ∈ reached'
  filter_eq : ∀ final, reached' ⊆ final →
    waiting.filter (waits final) = relations.filter (waits final)

namespace Advances

theorem refl (reached : List Cell) (relations : List (Instance × TypeRelation)) :
    Advances reached relations reached relations where
  starts := prefix_refl _
  nodup h := h
  connected _ := .given
  sublist := .refl _
  covered _ := .inl
  filter_eq _ _ := rfl

theorem trans (h : Advances reached relations reached' waiting)
    (h' : Advances reached' waiting reached'' waiting') :
    Advances reached relations reached'' waiting' where
  starts := h.starts.trans h'.starts
  nodup hn := h'.nodup (h.nodup hn)
  connected c hc := (h'.connected c hc).of_advance h.connected h.sublist.subset
  sublist := h'.sublist.trans h.sublist
  covered x hx := by
    rcases h.covered x hx with hwaits | hcells
    · exact h'.covered x hwaits
    · exact .inr fun c hc => h'.starts.subset (hcells c hc)
  filter_eq final hfinal :=
    (h'.filter_eq final hfinal).trans
      (h.filter_eq final (List.Subset.trans h'.starts.subset hfinal))

theorem cons (h : Advances reached relations reached' waiting) :
    Advances reached (x :: relations) reached' (x :: waiting) where
  starts := h.starts
  nodup := h.nodup
  connected c hc := (h.connected c hc).mono (subset_cons_self _ _)
  sublist := h.sublist.cons_cons x
  covered := by
    refine forall_mem_cons.2 ⟨.inl (.head _), fun y hy => ?_⟩
    exact (h.covered y hy).imp_left (mem_cons_of_mem _)
  filter_eq final hfinal := by rw [filter_cons, filter_cons, h.filter_eq final hfinal]

end Advances

theorem advances_of_not_waits (h : waits reached x = false) :
    Advances reached (x :: relations)
      (reached ++ (cellsOf x.2.args).filter fun c => !reached.contains c) relations where
  starts := prefix_append _ _
  nodup hn := by
    apply List.Nodup.append hn ((nodup_firstAppearances _ _).filter _)
    intro c hc hmem
    simp only [mem_filter, contains_eq_mem, Bool.not_eq_true',
      decide_eq_false_iff_not] at hmem
    exact hmem.2 hc
  connected c hc := by
    rcases mem_append.1 hc with hc | hc
    · exact .given hc
    · -- The relation has a cell, so one of its cells is reached already.
      have hc := (mem_filter.1 hc).1
      have hsome : ∃ d ∈ cellsOf x.2.args, d ∈ reached := by
        by_contra hnone
        have hwaits : waits reached x = true :=
          waits_iff.2 ⟨ne_nil_of_mem hc, fun d hd hr => hnone ⟨d, hd, hr⟩⟩
        simp [h] at hwaits
      obtain ⟨d, hd, hr⟩ := hsome
      exact .across (.head _) hd (.given hr) hc
  sublist := sublist_cons_self _ _
  covered := by
    refine forall_mem_cons.2 ⟨.inr fun c hc => ?_, fun y hy => .inl hy⟩
    by_cases hr : c ∈ reached
    · exact mem_append_left _ hr
    · exact mem_append_right _ (mem_filter.2 ⟨hc, by simpa using hr⟩)
  filter_eq final hfinal := by
    rw [filter_cons_of_neg]
    intro hwaits
    obtain ⟨hne, hnone⟩ := waits_iff.1 hwaits
    rw [waits_iff.2 ⟨hne, fun c hc hr => hnone c hc (hfinal (mem_append_left _ hr))⟩] at h
    cases h

theorem reachPass_advances (reached : List Cell) (waiting : List (Instance × TypeRelation)) :
    Advances reached waiting (reachPass reached waiting).1 (reachPass reached waiting).2 := by
  induction waiting generalizing reached with
  | nil => exact .refl reached []
  | cons x rest ih =>
    cases hw : waits reached x with
    | true =>
      rw [reachPass_of_waits hw]
      exact (ih reached).cons
    | false =>
      rw [reachPass_of_not_waits hw]
      exact (advances_of_not_waits hw).trans (ih _)

/-- A pass that lets nothing through reaches no cell, and all relations wait. -/
theorem reachPass_idle (h : (reachPass reached waiting).2.length = waiting.length) :
    (reachPass reached waiting).1 = reached ∧ ∀ x ∈ waiting, waits reached x = true := by
  induction waiting with
  | nil => exact ⟨rfl, forall_mem_nil _⟩
  | cons x rest ih =>
    cases hw : waits reached x with
    | true =>
      rw [reachPass_of_waits hw] at h ⊢
      obtain ⟨hreached, hrest⟩ := ih (Nat.succ.inj h)
      exact ⟨hreached, forall_mem_cons.2 ⟨hw, hrest⟩⟩
    | false =>
      rw [reachPass_of_not_waits hw, length_cons] at h
      have hle := (reachPass_advances (reached ++ (cellsOf x.2.args).filter fun c =>
        !reached.contains c) rest).sublist.length_le
      omega

/-- The bound on the number of passes is never felt. -/
theorem sweeps_reachWithin {fuel : Nat} (hfuel : waiting.length < fuel) :
    Sweeps reached waiting (reachWithin fuel reached waiting).1
      (reachWithin fuel reached waiting).2 := by
  induction fuel generalizing reached waiting with
  | zero => omega
  | succ fuel ih =>
    have hle := (reachPass_advances reached waiting).sublist.length_le
    simp only [reachWithin]
    split
    · next hidle => exact .idle hidle
    · next hagain => exact .again hagain (ih (by omega))

namespace Sweeps

variable (h : Sweeps cells relations reached stuck)

include h

theorem advances : Advances cells relations reached stuck := by
  induction h with
  | idle => exact reachPass_advances _ _
  | again _ _ ih => exact (reachPass_advances _ _).trans ih

theorem waits_of_mem : ∀ x ∈ stuck, waits reached x = true := by
  induction h with
  | @idle reached waiting hidle =>
    obtain ⟨hreached, hwaits⟩ := reachPass_idle hidle
    intro x hx
    rw [hreached]
    exact hwaits x ((reachPass_advances reached waiting).sublist.subset hx)
  | again _ _ ih => exact ih

/-- The reached cells are those that are connected to the given ones. -/
theorem mem_iff : c ∈ reached ↔ Connected cells relations c := by
  refine ⟨h.advances.connected c, fun hc => ?_⟩
  induction hc with
  | given hc => exact h.advances.starts.subset hc
  | @across x c d hx hc _ hd ih =>
    rcases h.advances.covered x hx with hstuck | hcells
    · exact absurd ih ((waits_iff.1 (h.waits_of_mem x hstuck)).2 c hc)
    · exact hcells d hd

theorem waits_iff_isolated : waits reached x = true ↔ Isolated cells relations x := by
  simp only [waits_iff, Isolated, h.mem_iff]

/-- The relations that are left over are those that never connect, in their order. -/
theorem stuck_eq : stuck = relations.filter (waits reached) := by
  rw [← h.advances.filter_eq reached (List.Subset.refl _), filter_eq_self.2 h.waits_of_mem]

end Sweeps

/-- The passes end, and the result is read off their end. -/
theorem reachable_sweeps (cells : List Cell) (relations : List (Instance × TypeRelation)) :
    ∃ reached stuck, Sweeps cells relations reached stuck ∧
      (stuck = [] ∧ reachable cells relations = .ok reached ∨
        ∃ x rest, stuck = x :: rest ∧ reachable cells relations = .error x) := by
  have hsweeps : Sweeps cells relations (reachWithin (relations.length + 1) cells relations).1 _ :=
    sweeps_reachWithin (Nat.lt_succ_self relations.length)
  unfold reachable
  generalize reachWithin (relations.length + 1) cells relations = result at hsweeps ⊢
  obtain ⟨reached, stuck⟩ := result
  refine ⟨reached, stuck, hsweeps, ?_⟩
  cases stuck with
  | nil => exact .inl ⟨rfl, rfl⟩
  | cons x rest => exact .inr ⟨x, rest, rfl, rfl⟩

theorem sweeps_of_ok (h : reachable cells relations = .ok free) :
    Sweeps cells relations free [] := by
  obtain ⟨reached, stuck, hsweeps, ⟨rfl, hok⟩ | ⟨x, rest, -, herror⟩⟩ :=
    reachable_sweeps cells relations
  · cases hok.symm.trans h
    exact hsweeps
  · cases herror.symm.trans h

theorem sweeps_of_error (h : reachable cells relations = .error x) :
    ∃ reached rest, Sweeps cells relations reached (x :: rest) := by
  obtain ⟨reached, stuck, hsweeps, ⟨rfl, hok⟩ | ⟨y, rest, rfl, herror⟩⟩ :=
    reachable_sweeps cells relations
  · cases hok.symm.trans h
  · cases herror.symm.trans h
    exact ⟨reached, rest, hsweeps⟩

/-- All cells of all relations are reached, unless some relation never connects. -/
theorem mem_of_reachable (h : reachable cells relations = .ok free) (hx : x ∈ relations)
    (hc : c ∈ cellsOf x.2.args) : c ∈ free :=
  ((sweeps_of_ok h).advances.covered x hx).elim (fun hx => absurd hx not_mem_nil)
    fun hcells => hcells c hc

theorem reachable_eq_error_iff : reachable cells relations = .error x ↔
    ∃ before after, relations = before ++ x :: after ∧ Isolated cells relations x ∧
      ∀ y ∈ before, ¬ Isolated cells relations y := by
  obtain ⟨reached, stuck, hsweeps, hend⟩ := reachable_sweeps cells relations
  have hfind : reachable cells relations = .error x ↔
      relations.find? (waits reached) = some x := by
    rw [← head?_filter, ← hsweeps.stuck_eq]
    rcases hend with ⟨rfl, hok⟩ | ⟨y, rest, rfl, herror⟩
    · simp [hok]
    · simp [herror]
  rw [hfind, find?_eq_some_iff_append, hsweeps.waits_iff_isolated]
  simp only [Bool.not_eq_true', ← Bool.not_eq_true, hsweeps.waits_iff_isolated]
  constructor
  · rintro ⟨hx, before, after, heq, hbefore⟩
    exact ⟨before, after, heq, hx, hbefore⟩
  · rintro ⟨before, after, heq, hx, hbefore⟩
    exact ⟨hx, before, after, heq, hbefore⟩

theorem exists_isolated_iff : (∃ x, reachable cells relations = .error x) ↔
    ∃ x ∈ relations, Isolated cells relations x := by
  obtain ⟨reached, stuck, hsweeps, hend⟩ := reachable_sweeps cells relations
  have hmem : ∀ x, x ∈ stuck ↔ x ∈ relations ∧ Isolated cells relations x := by
    intro x
    rw [hsweeps.stuck_eq, mem_filter, hsweeps.waits_iff_isolated]
  simp only [← hmem]
  rcases hend with ⟨rfl, hok⟩ | ⟨y, rest, rfl, herror⟩
  · simp [hok]
  · exact ⟨fun _ => ⟨y, .head _⟩, fun _ => ⟨y, herror⟩⟩

/-- The passes compute which cells relations connect. They come to an end. Some relation is blamed
if and only if one has cells and connects to nothing, and it is the first such relation. Otherwise
the result lists the given cells and behind them, each once, all cells connected to them. What is
reached, and whether a relation is blamed, does not depend on the order of the relations. -/
theorem reachable_closure {cells : List Cell} (hcells : cells.Nodup)
    (relations : List (Instance × TypeRelation)) :
    (∃ reached stuck, Sweeps cells relations reached stuck ∧
      (stuck = [] ∧ reachable cells relations = .ok reached ∨
        ∃ x rest, stuck = x :: rest ∧ reachable cells relations = .error x)) ∧
      ((∃ x, reachable cells relations = .error x) ↔
        ∃ x ∈ relations, Isolated cells relations x) ∧
      (∀ x, reachable cells relations = .error x ↔
        ∃ before after, relations = before ++ x :: after ∧ Isolated cells relations x ∧
          ∀ y ∈ before, ¬ Isolated cells relations y) ∧
      (∀ free, reachable cells relations = .ok free →
        cells <+: free ∧ free.Nodup ∧ ∀ c, c ∈ free ↔ Connected cells relations c) ∧
      ∀ relations', relations'.Perm relations →
        ((∃ x, reachable cells relations' = .error x) ↔
          ∃ x, reachable cells relations = .error x) ∧
        ∀ free free', reachable cells relations = .ok free →
          reachable cells relations' = .ok free' → ∀ c, c ∈ free' ↔ c ∈ free := by
  refine ⟨reachable_sweeps cells relations, exists_isolated_iff, fun x => reachable_eq_error_iff,
    fun free hfree => ?_, fun relations' hperm => ?_⟩
  · have hsweeps := sweeps_of_ok hfree
    exact ⟨hsweeps.advances.starts, hsweeps.advances.nodup hcells, fun c => hsweeps.mem_iff⟩
  · have hconnected : ∀ c, Connected cells relations' c ↔ Connected cells relations c :=
      fun c => ⟨.mono hperm.subset, .mono hperm.symm.subset⟩
    refine ⟨?_, fun free free' hfree hfree' c => ?_⟩
    · simp only [exists_isolated_iff, hperm.mem_iff, Isolated, hconnected]
    · rw [(sweeps_of_ok hfree').mem_iff, hconnected, (sweeps_of_ok hfree).mem_iff]

/-- A relation that connects through the one behind it, and one that does not connect. -/
theorem reachable_closure_indirect :
    let r := fun i j => TypeRelation.of "R" [.cell ⟨0, i⟩, .cell ⟨0, j⟩] none {}
    let x := fun n i j => ((⟨n, r i j, none, {}, false⟩, r i j) : Instance × TypeRelation)
    reachable [⟨0, 0⟩] [x 1 1 2, x 2 0 1] = .ok [⟨0, 0⟩, ⟨0, 1⟩, ⟨0, 2⟩] ∧
      Connected [⟨0, 0⟩] [x 1 1 2, x 2 0 1] ⟨0, 2⟩ ∧
      Isolated [⟨0, 0⟩] [x 1 1 2, x 2 0 1, x 3 3 4] (x 3 3 4) := by
  intro r x
  have hok : reachable [⟨0, 0⟩] [x 1 1 2, x 2 0 1] = .ok [⟨0, 0⟩, ⟨0, 1⟩, ⟨0, 2⟩] := rfl
  have herror : reachable [⟨0, 0⟩] [x 1 1 2, x 2 0 1, x 3 3 4] = .error (x 3 3 4) := rfl
  obtain ⟨-, -, -, hreached, -⟩ := reachable_closure (List.nodup_singleton _) [x 1 1 2, x 2 0 1]
  obtain ⟨-, -, hblamed, -⟩ :=
    reachable_closure (List.nodup_singleton _) [x 1 1 2, x 2 0 1, x 3 3 4]
  obtain ⟨_, _, -, hisolated, -⟩ := (hblamed _).1 herror
  exact ⟨hok, ((hreached _ hok).2.2 _).1 (by decide), hisolated⟩

end TensorTyping.Inference
