import TensorTyping.Proofs.Ty.Agreement
import TensorTyping.Relation.Rule

/-!
# How rules end

A rule concludes a tensor type or passes on a field of a tuple. From plain slots it concludes
nothing but plain types: sizes are known when they are built from known sizes. Given as many types
as it has slots, a rule has little to complain about. Only two of them read settings that may be
unfit: expansion wants whole numbers, unless it can refuse before it uses them, and projection wants
an index in range.
-/
namespace TensorTyping

open List

variable {s : Shape} {v : Value} {d e : Dim}

namespace Value

/-- Whether a value is a whole number that is no greater than the bound. -/
def isCount (bound : Nat) (v : Value) : Prop := ∃ n, v.int? = some n ∧ n ≤ bound

def isWhole (v : Value) : Prop := ∃ n, v.int? = some n

instance (bound : Nat) (v : Value) : Decidable (v.isCount bound) :=
  match h : v.int? with
  | some n => decidable_of_iff (n ≤ bound) (by simp [isCount, h])
  | none => .isFalse (by simp [isCount, h])

instance (v : Value) : Decidable v.isWhole :=
  match h : v.int? with
  | some n => .isTrue ⟨n, h⟩
  | none => .isFalse (by simp [isWhole, h])

theorem numeral?_of_int? {n : Int} (h : v.int? = some n) : v.numeral? = some (.exact n) := by
  cases v with
  | bool b =>
    cases b <;> simp_all [int?, numeral?]
    · obtain rfl := h
      rfl
    · obtain rfl := h
      rfl
  | int m =>
    obtain rfl : m = n := by simpa [int?] using h
    rfl
  | _ => cases h

end Value

namespace Shape

variable {r t : Shape}

def Known (s : Shape) : Prop := ∀ d ∈ s, d.isKnown = true

theorem known_iff : s.all Dim.isKnown = true ↔ s.Known := all_eq_true

theorem stretch?_known {x : Dim} (hd : d.isKnown = true) (he : e.isKnown = true)
    (h : d.stretch? e = some x) : x.isKnown = true := by
  unfold Dim.stretch? at h
  grind

theorem stretchEach?_known (hs : s.Known) (ht : t.Known)
    (h : stretchEach? Dim.stretch? s t = some r) : r.Known := by
  fun_induction stretchEach? Dim.stretch? s t generalizing r with
  | case1 d s e t x rest hrest hx ih =>
    obtain rfl : x :: rest = r := by simpa using h
    rw [Known, forall_mem_cons] at hs ht ⊢
    exact ⟨stretch?_known hs.1 ht.1 hx, ih hs.2 ht.2 hrest⟩
  | case2 => simp at h
  | case3 =>
    obtain rfl : [] = r := by simpa using h
    exact forall_mem_nil _

theorem padTo_known (hs : s.Known) (rank : Nat) : Known (padTo (.known 1) rank s) := by
  intro d hd
  rcases mem_append.1 hd with hd | hd
  · rw [eq_of_mem_replicate hd]
    rfl
  · exact hs d hd

theorem broadcast?_known (hs : s.Known) (ht : t.Known) (h : s.broadcast? t = some r) : r.Known :=
  stretchEach?_known (padTo_known hs _) (padTo_known ht _) h

end Shape

namespace Rule

theorem reducedShape_known (hs : s.Known) (keep : Bool) (axes : List Nat) :
    (reducedShape keep axes s).Known := by
  intro x hx
  obtain ⟨⟨d, i⟩, hmem, hd⟩ := mem_filterMap.1 hx
  have hknown := hs d (fst_mem_of_mem_zipIdx hmem)
  dsimp only at hd
  split at hd
  · split at hd
    · cases hd
      rfl
    · cases hd
  · cases hd
    exact hknown

theorem expandedShape_known (hs : s.Known) (axis count : Nat) :
    (expandedShape axis count s).Known := by
  intro x hx
  simp only [expandedShape, mem_append] at hx
  rcases hx with (hx | hx) | hx
  · exact hs x (mem_of_mem_take hx)
  · rw [eq_of_mem_replicate hx]
    rfl
  · exact hs x (mem_of_mem_drop hx)

theorem join_known (hd : d.isKnown = true) (he : e.isKnown = true) : (d.join e).isKnown = true := by
  cases d <;> cases e <;> simp_all [Dim.join, Dim.isKnown]

theorem foldl_join_known {xs : List (Shape × String)} (hxs : ∀ x ∈ xs, x.1.Known) (a : Nat)
    {n : Dim} (hn : n.isKnown = true) :
    (xs.foldl (fun n t => Dim.join n (t.1.getD a (.known 0))) n).isKnown = true := by
  induction xs generalizing n with
  | nil => exact hn
  | cons x xs ih =>
    rw [forall_mem_cons] at hxs
    apply ih hxs.2
    apply join_known hn
    rw [getD_eq_getElem?_getD]
    cases hd : x.1[a]? with
    | none => rfl
    | some d => exact hxs.1 d (mem_of_getElem? hd)

/-- Whether expansion by such settings of a tensor of this rank comes to a decision. Numbers are
compared first, and only then they have to be whole. -/
def Answerable (rank : Nat) (axis count : Value) : Prop :=
  ∃ a, axis.numeral? = some a ∧ ((a.atLeast (-rank - 1) && a.atMost rank) = true →
    ∃ c, count.numeral? = some c ∧ (c.below 0 = false →
      axis.isWhole ∧ count.isCount rankLimit))

/-- What may come of expanding a tensor: a fault just when it cannot be told what is asked for. -/
theorem expand_cases (s : Shape) (axis count : Value) :
    (¬ Answerable s.length axis count ∧ ∃ f, expand s axis count = .error (.fault f)) ∨
      Answerable s.length axis count ∧ (expand s axis count = .error .fails ∨
        ∃ a c, expand s axis count = .ok (expandedShape a c s)) := by
  have hlimit : (rankLimit : Int) ≤ lengthLimit := by decide
  unfold Answerable expand number wholeNumber Value.isWhole Value.isCount
  cases axis.numeral? with
  | none => exact .inl ⟨by simp, _, rfl⟩
  | some a =>
    simp only [bind, Except.bind, Option.some.injEq, exists_eq_left']
    generalize (a.atLeast (-s.length - 1) && a.atMost s.length) = inRange
    cases inRange with
    | false => exact .inr ⟨by simp, .inl rfl⟩
    | true =>
      cases count.numeral? with
      | none => exact .inl ⟨by simp, _, rfl⟩
      | some c =>
        simp only [Option.some.injEq, exists_eq_left']
        cases c.below 0 with
        | true => exact .inr ⟨by simp, .inl rfl⟩
        | false =>
          cases axis.int? with
          | none => exact .inl ⟨by simp, _, rfl⟩
          | some m =>
            cases count.int? with
            | none => exact .inl ⟨by simp, _, rfl⟩
            | some n =>
              by_cases hn : n ≤ rankLimit
              · have hadded : addedRank n = .ok n.toNat := by
                  rw [addedRank, if_neg (by omega), if_neg (by omega)]
                simp only [hadded]
                exact .inr ⟨by simpa using hn, .inr ⟨_, _, rfl⟩⟩
              · obtain ⟨f, hadded⟩ : ∃ f, addedRank n = .error (.fault f) := by
                  unfold addedRank
                  rw [if_pos (Int.not_le.1 hn)]
                  split
                  · exact ⟨_, rfl⟩
                  · exact ⟨_, rfl⟩
                simp only [hadded]
                exact .inl ⟨by simpa using hn, f, rfl⟩
variable {α β : Type} {p : Fault → Prop} {q : α → Prop} {r : β → Prop} {types : List Ty}
  {attrs : Attrs}
variable {x : Except Halt α} {i n : Nat} {rule : Rule}

/-- The computation ends with no results but such ones and with no faults but such ones. -/
def Ends (p : Fault → Prop) (q : α → Prop) : Except Halt α → Prop
  | .ok a => q a
  | .error (.fault f) => p f
  | .error _ => True

theorem Ends.of_ok (h : Ends p q x) {a : α} (ha : x = .ok a) : q a := by
  rw [ha] at h
  exact h

theorem Ends.of_fault (h : Ends p q x) {f : Fault} (hf : x = .error (.fault f)) : p f := by
  rw [hf] at h
  exact h

theorem Ends.bind {g : α → Except Halt β} (hx : Ends p q x) (hg : ∀ a, q a → Ends p r (g a)) :
    Ends p r (x >>= g) := by
  cases x with
  | ok a => exact hg a hx
  | error e =>
    cases e with
    | fault f => exact hx
    | _ => trivial

theorem Ends.mono {p' : Fault → Prop} {q' : α → Prop} (hx : Ends p q x) (hp : ∀ f, p f → p' f)
    (hq : ∀ a, q a → q' a) : Ends p' q' x := by
  cases x with
  | ok a => exact hq a hx
  | error e =>
    cases e with
    | fault f => exact hp f hx
    | _ => trivial

theorem slot_ends (hi : i ≤ n) :
    Ends (fun f => n < types.length → p f) (fun t => types[i]? = some t) (slot types i) := by
  unfold slot
  cases h : types[i]? with
  | some t => exact rfl
  | none => exact fun hn => absurd h (by simp; omega)

theorem tensor_ends (t : Ty) : Ends p (fun x => t = .tensor x.1 x.2) (tensor t) := by
  cases t with
  | tensor s d => exact rfl
  | _ => trivial

theorem tensorSlot_ends (hi : i ≤ n) :
    Ends (fun f => n < types.length → p f) (fun x => types[i]? = some (.tensor x.1 x.2))
      (tensorSlot types i) := by
  apply (slot_ends hi).bind
  intro t ht
  rw [ht]
  simp only [Option.some.injEq]
  exact tensor_ends t

theorem fields_ends (t : Ty) : Ends p (fun ts => t = .tuple ts) (fields t) := by
  cases t with
  | tuple ts => exact rfl
  | _ => trivial

theorem tensors_ends (ts : List Ty) :
    Ends p (fun xs => ∀ x ∈ xs, .tensor x.1 x.2 ∈ ts) (tensors ts) := by
  induction ts with
  | nil => exact forall_mem_nil _
  | cons t ts ih =>
    apply (tensor_ends t).bind
    rintro x rfl
    apply ih.bind
    intro xs hxs
    exact forall_mem_cons.2
      ⟨.head _, fun y hy => .tail _ (hxs y hy)⟩

def PlainSlots (types : List Ty) : Prop := ∀ t ∈ types, t.plain = true

theorem known_of_slot {x : Shape × String} (h : types[i]? = some (.tensor x.1 x.2))
    (htypes : PlainSlots types) : x.1.Known :=
  Shape.known_iff.1 (htypes _ (mem_of_getElem? h))

/-- A type that a rule may conclude: a tensor type, or a field of a tuple for a projection. -/
def Concludes (rule : Rule) (types : List Ty) (t : Ty) : Prop :=
  (∃ s d, t = .tensor s d ∧ (PlainSlots types → s.Known)) ∨
    rule = .projection ∧ ∃ ts, .tuple ts ∈ types ∧ t ∈ ts

/-- A projection out of the range of a tuple in one of the slots. -/
def OutOfRange (types : List Ty) (f : Fault) : Prop :=
  ∃ index ts, Ty.tuple ts ∈ types ∧
    f = .issue { kind := .indexOutOfRange, evidence := [.value index, .type (.tuple ts)] }

/-- A fault that a rule may stop with, if there is a type for each of its slots. -/
def Stops (rule : Rule) (types : List Ty) (attrs : Attrs) (f : Fault) : Prop :=
  match rule with
  | .expandDims => ∃ s d, types[0]? = some (.tensor s d) ∧
      ¬ Answerable s.length ((attrs.get? "axis").getD (.int 0))
        ((attrs.get? "num_newaxis").getD (.int 1))
  | .projection => (∃ index, attrs.get? "index" = some index ∧ index.isWhole) → OutOfRange types f
  | _ => False

theorem number_ends (h : v.numeral? = none → ∀ f, p f) :
    Ends p (fun n => v.numeral? = some n) (number v) := by
  unfold number
  cases hv : v.numeral? with
  | some n => exact rfl
  | none => exact h hv _

theorem wholeNumber_ends (h : ¬ v.isWhole → ∀ f, p f) :
    Ends p (fun n => v.int? = some n) (wholeNumber v) := by
  unfold wholeNumber
  cases hv : v.int? with
  | some n => exact rfl
  | none => exact h (by simp [Value.isWhole, hv]) _

theorem project_ends {ts : List Ty} {index : Value} (hts : Ty.tuple ts ∈ types) :
    Ends (fun f => index.isWhole → OutOfRange types f) (fun t => t ∈ ts) (project ts index) := by
  have hnumber : index.numeral? = none → ∀ f, index.isWhole → OutOfRange types f := by
    rintro hnone f ⟨k, hk⟩
    cases hnone.symm.trans (Value.numeral?_of_int? hk)
  apply (number_ends hnumber).bind
  intro n hn
  split
  · next hrange =>
    apply (wholeNumber_ends fun hnot _ hwhole => absurd hwhole hnot).bind
    intro k hk
    rw [Value.numeral?_of_int? hk, Option.some.injEq] at hn
    rw [← hn, Bool.and_eq_true] at hrange
    simp only [Numeral.atLeast, Numeral.below, decide_eq_true_eq] at hrange
    have hpos : 0 ≤ k := by exact_mod_cast hrange.1
    have hlt : k < ts.length := by exact_mod_cast hrange.2
    unfold slot
    rw [getElem?_eq_getElem (by omega)]
    exact getElem_mem _
  · exact fun _ => ⟨index, ts, hts, rfl⟩

theorem stretched_ends (hrule : rule.target = 2) (dtype : String → String) :
    Ends (fun f => rule.target < types.length → p f) (Concludes rule types)
      (stretched types dtype) := by
  apply (tensorSlot_ends (by omega)).bind
  rintro ⟨s, d⟩ hs
  apply (tensorSlot_ends (by omega)).bind
  rintro ⟨t, e⟩ ht
  dsimp only
  split
  · trivial
  · cases hshape : s.broadcast? t with
    | none => trivial
    | some shape =>
      exact .inl ⟨shape, dtype d, rfl, fun h =>
        Shape.broadcast?_known (known_of_slot hs h) (known_of_slot ht h) hshape⟩

theorem matmul_ends : Ends (fun f => 2 < types.length → p f) (Concludes .matmul types)
    (conclude .matmul types attrs) := by
  apply (tensorSlot_ends (Nat.zero_le _)).bind
  rintro ⟨s, d⟩ hs
  apply (tensorSlot_ends (Nat.le_succ 1)).bind
  rintro ⟨t, e⟩ ht
  dsimp only
  split
  · trivial
  · split
    · next outer rest _ =>
      split
      · refine .inl ⟨_, d, rfl, fun h x hx => ?_⟩
        rcases mem_append.1 hx with hx | hx
        · exact known_of_slot hs h x ((dropLast_sublist s).subset hx)
        · exact known_of_slot ht h x (.tail _ hx)
      · trivial
    · trivial

theorem concatenation_ends (first : Shape × String) (rest : List (Shape × String)) (axis : Value) :
    Ends p (fun x => (∀ y ∈ first :: rest, y.1.Known) → x.1.Known)
      (concatenation first (first :: rest) axis) := by
  unfold concatenation
  split
  · trivial
  · next a _ =>
    split
    · intro hall x hx
      have hfirst := hall first (.head _)
      rcases mem_append.1 hx with hx | hx
      · exact hfirst x (mem_of_mem_take hx)
      · rcases mem_cons.1 hx with rfl | hx
        · exact foldl_join_known hall a rfl
        · exact hfirst x (mem_of_mem_drop hx)
    · trivial

theorem concatenate_ends : Ends (fun f => 1 < types.length → p f) (Concludes .concatenate types)
    (conclude .concatenate types attrs) := by
  apply (slot_ends (Nat.zero_le _)).bind
  intro t ht
  apply (fields_ends t).bind
  rintro ts rfl
  cases ts with
  | nil => trivial
  | cons t ts =>
    apply (tensor_ends t).bind
    rintro first rfl
    apply (tensors_ends ts).bind
    intro rest hrest
    apply (concatenation_ends first rest _).bind
    rintro ⟨s, d⟩ hs
    refine .inl ⟨s, d, rfl, fun h => hs fun y hy => ?_⟩
    have hfields := Ty.plainList_iff.1 (h _ (mem_of_getElem? ht))
    rcases mem_cons.1 hy with rfl | hy
    · exact Shape.known_iff.1 (hfields _ (.head _))
    · exact Shape.known_iff.1 (hfields _ (.tail _ (hrest y hy)))

/-- What a rule may conclude and what it may stop with. -/
theorem conclude_ends (rule : Rule) (types : List Ty) (attrs : Attrs) :
    Ends (fun f => rule.target < types.length → Stops rule types attrs f) (Concludes rule types)
      (rule.conclude types attrs) := by
  cases rule with
  | identity =>
    apply (tensorSlot_ends (Nat.zero_le _)).bind
    rintro ⟨s, d⟩ hs
    exact .inl ⟨s, d, rfl, known_of_slot hs⟩
  | broadcast => exact stretched_ends rfl id
  | comparison => exact stretched_ends rfl fun _ => "bool"
  | matmul => exact matmul_ends
  | reduce =>
    apply (tensorSlot_ends (Nat.zero_le _)).bind
    rintro ⟨s, d⟩ hs
    dsimp only
    split
    · trivial
    · exact .inl ⟨_, d, rfl, fun h => reducedShape_known (known_of_slot hs h) _ _⟩
  | expandDims =>
    apply (tensorSlot_ends (Nat.zero_le _)).bind
    rintro ⟨s, d⟩ hs
    dsimp only
    obtain ⟨hnot, f, hf⟩ | ⟨-, hfails | ⟨a, c, hok⟩⟩ := expand_cases s
      ((attrs.get? "axis").getD (.int 0)) ((attrs.get? "num_newaxis").getD (.int 1))
    · rw [hf]
      exact fun _ => ⟨s, d, hs, hnot⟩
    · rw [hfails]
      trivial
    · rw [hok]
      exact .inl ⟨_, d, rfl, fun h => expandedShape_known (known_of_slot hs h) _ _⟩
  | concatenate => exact concatenate_ends
  | projection =>
    apply (slot_ends (Nat.zero_le _)).bind
    intro t ht
    cases hindex : attrs.get? "index" with
    | none =>
      rintro - ⟨index, hget, -⟩
      cases hindex.symm.trans hget
    | some index =>
      apply (fields_ends t).bind
      rintro ts rfl
      have hts := mem_of_getElem? ht
      refine (project_ends hts).mono (fun f h _ hread => ?_) fun t ht => .inr ⟨rfl, ts, hts, ht⟩
      obtain ⟨index', hget, hwhole⟩ := hread
      cases hindex.symm.trans hget
      exact h hwhole

theorem conclude_plain {t : Ty} (htypes : PlainSlots types)
    (h : rule.conclude types attrs = .ok t) : t.plain = true := by
  rcases (conclude_ends rule types attrs).of_ok h with ⟨s, d, rfl, hs⟩ | ⟨-, ts, hts, ht⟩
  · exact Shape.known_iff.2 (hs htypes)
  · exact Ty.plainList_iff.1 (htypes _ hts) t ht

end Rule

end TensorTyping
