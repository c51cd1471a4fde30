import Mathlib.Order.Bounds.Basic
import TensorTyping.Shape

/-!
# Broadcasting is a least upper bound

Shapes are compared from the innermost dimension outwards, and beyond the outermost one every size
counts as one. Stretching two lists of sizes is then a matter of one place at a time. With known
sizes, one shape is below another if it has no more dimensions and each of them is one or the same.
Broadcasting finds the least shape above two others, and its laws are those of least upper bounds.
-/
namespace TensorTyping

open List

namespace Shape

section Alignment

variable {α β : Type} {one : α} {stretch? : α → α → Option α} {s t r : List α}

def fromEnd (one : α) (s : List α) (i : Nat) : α := s.reverse.getD i one

theorem fromEnd_of_length_le {i : Nat} (h : s.length ≤ i) : fromEnd one s i = one := by
  simp [fromEnd, h]

theorem fromEnd_cons (d : α) (s : List α) (i : Nat) :
    fromEnd one (d :: s) i = if i = s.length then d else fromEnd one s i := by
  unfold fromEnd
  rw [reverse_cons, getD_eq_getElem?_getD, getD_eq_getElem?_getD,
    getElem?_append, length_reverse]
  rcases Nat.lt_trichotomy i s.length with hlt | rfl | hgt
  · rw [if_pos hlt, if_neg (Nat.ne_of_lt hlt)]
  · simp
  · have hnil : ([d] : List α)[i - s.length]? = none := getElem?_eq_none (by simp; omega)
    have hout : s.reverse[i]? = none := getElem?_eq_none (by simp; omega)
    rw [if_neg (by omega), if_neg (by omega), hnil, hout]

theorem fromEnd_map (one : α) (g : α → β) (s : List α) (i : Nat) :
    fromEnd (g one) (s.map g) i = g (fromEnd one s i) := by
  simp [fromEnd, ← map_reverse, getD_eq_getElem?_getD, Option.getD_map]

theorem fromEnd_padTo (rank : Nat) (s : List α) (i : Nat) :
    fromEnd one (padTo one rank s) i = fromEnd one s i := by
  unfold fromEnd padTo
  rw [reverse_append, reverse_replicate, getD_eq_getElem?_getD,
    getD_eq_getElem?_getD, getElem?_append, length_reverse]
  split
  · rfl
  · have hout : s.reverse[i]? = none := getElem?_eq_none (by simp; omega)
    rw [getElem?_replicate, hout]
    split <;> rfl

theorem getElem?_eq_fromEnd (one : α) {i : Nat} (h : i < s.length) :
    s[i]? = some (fromEnd one s (s.length - 1 - i)) := by
  have hi : s.length - 1 - (s.length - 1 - i) = i := by omega
  rw [fromEnd, getD_eq_getElem?_getD, getElem?_reverse (by omega), hi,
    getElem?_eq_getElem h, Option.getD_some]

theorem ext_fromEnd (hlen : s.length = t.length) (h : ∀ i, fromEnd one s i = fromEnd one t i) :
    s = t := by
  apply ext_getElem?
  intro i
  by_cases hi : i < s.length
  · rw [getElem?_eq_fromEnd one hi, getElem?_eq_fromEnd one (hlen ▸ hi), h, hlen]
  · rw [getElem?_eq_none (by omega), getElem?_eq_none (by omega)]

theorem forall_fromEnd_cons (p : α → α → α → Prop) (hone : p one one one) {d e x : α}
    (ht : t.length = s.length) (hr : r.length = s.length) :
    (∀ i, p (fromEnd one (d :: s) i) (fromEnd one (e :: t) i) (fromEnd one (x :: r) i)) ↔
      p d e x ∧ ∀ i, p (fromEnd one s i) (fromEnd one t i) (fromEnd one r i) := by
  simp only [fromEnd_cons, ht, hr]
  constructor
  · intro h
    refine ⟨by simpa using h s.length, fun i => ?_⟩
    by_cases hi : i = s.length
    · rw [fromEnd_of_length_le hi.ge, fromEnd_of_length_le (by omega),
        fromEnd_of_length_le (by omega)]
      exact hone
    · simpa [hi] using h i
  · rintro ⟨hfirst, hrest⟩ i
    by_cases hi : i = s.length
    · simpa [hi] using hfirst
    · simpa [hi] using hrest i

theorem stretchEach?_cons (stretch? : α → α → Option α) (d e : α) (s t : List α) :
    stretchEach? stretch? (d :: s) (e :: t) =
      (stretch? d e).bind fun x => (stretchEach? stretch? s t).map (x :: ·) := by
  rw [stretchEach?]
  cases stretch? d e <;> cases stretchEach? stretch? s t <;> rfl

section

variable (hone : stretch? one one = some one)

include hone

theorem stretchEach?_eq_some_iff (ht : t.length = s.length) :
    stretchEach? stretch? s t = some r ↔
      r.length = s.length ∧
        ∀ i, stretch? (fromEnd one s i) (fromEnd one t i) = some (fromEnd one r i) := by
  induction s generalizing t r with
  | nil =>
    obtain rfl := eq_nil_of_length_eq_zero ht
    cases r <;> simp [stretchEach?, fromEnd, hone]
  | cons d s ih =>
    obtain ⟨e, t, rfl⟩ := exists_cons_of_length_eq_add_one ht
    have ht : t.length = s.length := Nat.succ.inj ht
    cases r with
    | nil => simp [stretchEach?_cons, Option.bind_eq_some_iff]
    | cons x r =>
      have hcons : stretchEach? stretch? (d :: s) (e :: t) = some (x :: r) ↔
          stretch? d e = some x ∧ stretchEach? stretch? s t = some r := by
        simp [stretchEach?_cons, Option.bind_eq_some_iff]
      rw [hcons, ih ht, length_cons, length_cons, Nat.succ_inj, and_left_comm]
      exact and_congr_right fun hr =>
        (forall_fromEnd_cons (fun d e x => stretch? d e = some x) hone ht hr).symm

theorem stretchEach?_isSome_iff (ht : t.length = s.length) :
    (stretchEach? stretch? s t).isSome ↔
      ∀ i, (stretch? (fromEnd one s i) (fromEnd one t i)).isSome := by
  induction s generalizing t with
  | nil =>
    obtain rfl := eq_nil_of_length_eq_zero ht
    simp [stretchEach?, fromEnd, hone]
  | cons d s ih =>
    obtain ⟨e, t, rfl⟩ := exists_cons_of_length_eq_add_one ht
    have ht : t.length = s.length := Nat.succ.inj ht
    have hcons : (stretchEach? stretch? (d :: s) (e :: t)).isSome ↔
        (stretch? d e).isSome ∧ (stretchEach? stretch? s t).isSome := by
      rw [stretchEach?_cons]
      cases stretch? d e <;> simp
    have hsome : (stretch? one one).isSome := hone ▸ rfl
    rw [hcons, ih ht]
    exact (forall_fromEnd_cons (x := d) (r := s) (fun d e _ => (stretch? d e).isSome) hsome ht
      rfl).symm

/-- Lists of any lengths are stretched place by place from the innermost size. -/
theorem stretchAligned?_eq_some_iff :
    stretchAligned? one stretch? s t = some r ↔
      r.length = max s.length t.length ∧
        ∀ i, stretch? (fromEnd one s i) (fromEnd one t i) = some (fromEnd one r i) := by
  unfold stretchAligned?
  rw [stretchEach?_eq_some_iff hone (by simp only [length_padTo]; omega)]
  simp only [fromEnd_padTo, length_padTo]
  rw [max_eq_left (le_max_left _ _)]

theorem stretchAligned?_eq_none_iff :
    stretchAligned? one stretch? s t = none ↔
      ∃ i, stretch? (fromEnd one s i) (fromEnd one t i) = none := by
  unfold stretchAligned?
  rw [← Option.not_isSome_iff_eq_none,
    stretchEach?_isSome_iff hone (by simp only [length_padTo]; omega)]
  simp [fromEnd_padTo]

end

theorem stretchAligned?_map {stretch?' : β → β → Option β} (g : α → β)
    (h : ∀ d e, stretch?' (g d) (g e) = (stretch? d e).map g) (s t : List α) :
    stretchAligned? (g one) stretch?' (s.map g) (t.map g) =
      (stretchAligned? one stretch? s t).map (List.map g) := by
  have hpad (rank : Nat) (s : List α) :
      padTo (g one) rank (s.map g) = (padTo one rank s).map g := by
    simp [padTo]
  unfold stretchAligned?
  simp only [length_map, hpad]
  generalize padTo one _ s = s
  generalize padTo one _ t = t
  induction s generalizing t with
  | nil => rfl
  | cons d s ih =>
    cases t with
    | nil => rfl
    | cons e t =>
      rw [map_cons, map_cons, stretchEach?_cons, stretchEach?_cons, h, ih]
      cases stretch? d e <;> cases stretchEach? stretch? s t <;> rfl

end Alignment

end Shape

theorem Dim.stretch?_toEntry (d e : Dim) :
    d.toEntry.stretch? e.toEntry = (d.stretch? e).map toEntry := by
  have hone : DimEntry.one = (Dim.known 1).toEntry := rfl
  unfold DimEntry.stretch? stretch?
  simp only [hone, same_toEntry, decide_eq_true_eq]
  split
  · rfl
  split
  · rfl
  split
  · rfl
  · cases d <;> cases e <;> rfl

/-- Entries that give dimensions are broadcast as the dimensions are. -/
theorem Shape.broadcast?_toEntry (s t : Shape) :
    DimEntry.broadcast? (s.map Dim.toEntry) (t.map Dim.toEntry) =
      (s.broadcast? t).map (List.map Dim.toEntry) := by
  change stretchAligned? (Dim.known 1).toEntry DimEntry.stretch? _ _ = _
  exact stretchAligned?_map Dim.toEntry Dim.stretch?_toEntry s t

@[ext] structure Sizes where
  dims : List Nat
deriving DecidableEq, Repr

namespace Sizes

variable {s t u : Sizes}

def rank (s : Sizes) : Nat := s.dims.length

def fromEnd (s : Sizes) (i : Nat) : Nat := Shape.fromEnd 1 s.dims i

def shape (s : Sizes) : Shape := s.dims.map .known

theorem fromEnd_shape (s : Sizes) (i : Nat) :
    Shape.fromEnd (.known 1) s.shape i = .known (s.fromEnd i) :=
  Shape.fromEnd_map 1 Dim.known s.dims i

/-- One tensor is below another if it has no more dimensions, and each of them, counted from the
innermost one, is one or the same as in the other. -/
instance : LE Sizes where
  le s t := s.rank ≤ t.rank ∧ ∀ i < s.rank, s.fromEnd i = 1 ∨ s.fromEnd i = t.fromEnd i

instance (s t : Sizes) : Decidable (s ≤ t) :=
  inferInstanceAs (Decidable (_ ∧ ∀ i < s.rank, _))

theorem le_iff : s ≤ t ↔ s.rank ≤ t.rank ∧ ∀ i, s.fromEnd i = 1 ∨ s.fromEnd i = t.fromEnd i := by
  refine and_congr_right fun _ => ⟨fun h i => ?_, fun h i _ => h i⟩
  by_cases hi : i < s.rank
  · exact h i hi
  · exact .inl (Shape.fromEnd_of_length_le (Nat.le_of_not_lt hi))

theorem ext_fromEnd (hrank : s.rank = t.rank) (h : ∀ i, s.fromEnd i = t.fromEnd i) : s = t :=
  Sizes.ext (Shape.ext_fromEnd hrank h)

instance : PartialOrder Sizes where
  le_refl s := ⟨le_rfl, fun _ _ => .inr rfl⟩
  le_trans s t u hst htu := by
    rw [le_iff] at *
    refine ⟨hst.1.trans htu.1, fun i => ?_⟩
    have h₁ := hst.2 i
    have h₂ := htu.2 i
    omega
  le_antisymm s t hst hts := by
    rw [le_iff] at hst hts
    refine ext_fromEnd (hst.1.antisymm hts.1) fun i => ?_
    have h₁ := hst.2 i
    have h₂ := hts.2 i
    omega

def stretch? (m n : Nat) : Option Nat :=
  if m = n ∨ n = 1 then some m else if m = 1 then some n else none

theorem stretch?_known (m n : Nat) :
    Dim.stretch? (.known m) (.known n) = (stretch? m n).map .known := by
  unfold Dim.stretch? stretch?
  grind

theorem stretch?_eq_some {m n k : Nat} (h : stretch? m n = some k) :
    (m = 1 ∨ m = k) ∧ (n = 1 ∨ n = k) ∧ (k = m ∨ k = n) := by
  unfold stretch? at h
  grind

theorem stretch?_ne_none {m n k : Nat} (hm : m = 1 ∨ m = k) (hn : n = 1 ∨ n = k) :
    stretch? m n ≠ none := by
  unfold stretch?
  grind

/-- The least tensor above two others, if there is one. -/
def join? (s t : Sizes) : Option Sizes :=
  (Shape.stretchAligned? 1 stretch? s.dims t.dims).map .mk

theorem broadcast?_shape (s t : Sizes) : s.shape.broadcast? t.shape = (s.join? t).map shape := by
  unfold Shape.broadcast? join? shape
  rw [Shape.stretchAligned?_map Dim.known stretch?_known, Option.map_map]
  rfl

theorem join?_eq_some (h : s.join? t = some u) :
    u.rank = max s.rank t.rank ∧
      ∀ i, stretch? (s.fromEnd i) (t.fromEnd i) = some (u.fromEnd i) := by
  obtain ⟨r, hr, rfl⟩ := Option.map_eq_some_iff.1 h
  exact (Shape.stretchAligned?_eq_some_iff rfl).1 hr

theorem join?_eq_none : s.join? t = none ↔ ∃ i, stretch? (s.fromEnd i) (t.fromEnd i) = none := by
  unfold join?
  rw [Option.map_eq_none_iff]
  exact Shape.stretchAligned?_eq_none_iff rfl

theorem isLUB_pair_iff : IsLUB {s, t} u ↔ ∀ v, u ≤ v ↔ s ≤ v ∧ t ≤ v := by
  simp [isLUB_iff_le_iff, upperBounds_insert]

theorem join?_isLUB (h : s.join? t = some u) : IsLUB {s, t} u := by
  obtain ⟨hrank, hplace⟩ := join?_eq_some h
  rw [isLUB_pair_iff]
  intro v
  simp only [le_iff]
  constructor
  · rintro ⟨hle, hu⟩
    refine ⟨⟨by omega, fun i => ?_⟩, by omega, fun i => ?_⟩
    all_goals
      have hjoin := stretch?_eq_some (hplace i)
      have huv := hu i
      omega
  · rintro ⟨⟨hsle, hs⟩, htle, ht⟩
    refine ⟨by omega, fun i => ?_⟩
    have hjoin := stretch?_eq_some (hplace i)
    have hsv := hs i
    have htv := ht i
    omega

theorem exists_join? {v : Sizes} (hs : s ≤ v) (ht : t ≤ v) : ∃ u, s.join? t = some u := by
  rw [← Option.ne_none_iff_exists']
  intro hnone
  obtain ⟨i, hi⟩ := join?_eq_none.1 hnone
  exact stretch?_ne_none ((le_iff.1 hs).2 i) ((le_iff.1 ht).2 i) hi

theorem join?_eq_some_iff : s.join? t = some u ↔ ∀ v, u ≤ v ↔ s ≤ v ∧ t ≤ v := by
  rw [← isLUB_pair_iff]
  refine ⟨join?_isLUB, fun h => ?_⟩
  have hle := (isLUB_pair_iff.1 h u).1 le_rfl
  obtain ⟨w, hw⟩ := exists_join? hle.1 hle.2
  rw [hw, (join?_isLUB hw).unique h]

theorem join?_eq_none_iff : s.join? t = none ↔ ¬ BddAbove {s, t} := by
  constructor
  · rintro hnone ⟨v, hv⟩
    obtain ⟨u, hu⟩ := exists_join? (hv (Set.mem_insert s {t})) (hv (Set.mem_insert_of_mem s rfl))
    rw [hnone] at hu
    cases hu
  · intro h
    rw [Option.eq_none_iff_forall_ne_some]
    exact fun u hu => h ⟨u, (join?_isLUB hu).1⟩

theorem join?_comm (s t : Sizes) : s.join? t = t.join? s := by
  ext u
  simp only [join?_eq_some_iff, and_comm]

theorem bind_join?_eq_some_iff {v : Sizes} :
    (s.join? t).bind (·.join? u) = some v ↔ ∀ w, v ≤ w ↔ (s ≤ w ∧ t ≤ w) ∧ u ≤ w := by
  rw [Option.bind_eq_some_iff]
  constructor
  · rintro ⟨x, hx, hv⟩ w
    rw [join?_eq_some_iff.1 hv, join?_eq_some_iff.1 hx]
  · intro h
    have hle := (h v).1 le_rfl
    obtain ⟨x, hx⟩ := exists_join? hle.1.1 hle.1.2
    refine ⟨x, hx, join?_eq_some_iff.2 fun w => ?_⟩
    rw [h, join?_eq_some_iff.1 hx]

theorem join?_assoc (s t u : Sizes) :
    (s.join? t).bind (·.join? u) = (t.join? u).bind (s.join? ·) := by
  ext v
  simp only [join?_comm s]
  rw [bind_join?_eq_some_iff, bind_join?_eq_some_iff]
  simp only [and_assoc, and_comm]

theorem scalar_le (s : Sizes) : (⟨[]⟩ : Sizes) ≤ s :=
  ⟨Nat.zero_le _, fun _ h => absurd h (Nat.not_lt_zero _)⟩

/-- Broadcasting gives the least shape above two shapes of known sizes, and fails if no shape is
above both. So it is commutative and idempotent, a scalar changes nothing, and it is associative
where a failure of a part is a failure of the whole. The entries that sizes are written as are
broadcast alike. -/
theorem broadcast?_isLUB (s t u : Sizes) :
    (∀ r, s.shape.broadcast? t.shape = some r ↔ ∃ v, IsLUB {s, t} v ∧ v.shape = r) ∧
      (s.shape.broadcast? t.shape = none ↔ ¬ BddAbove {s, t}) ∧
      s.shape.broadcast? t.shape = t.shape.broadcast? s.shape ∧
      s.shape.broadcast? s.shape = some s.shape ∧
      s.shape.broadcast? [] = some s.shape ∧
      (s.shape.broadcast? t.shape).bind (·.broadcast? u.shape) =
        (t.shape.broadcast? u.shape).bind (s.shape.broadcast? ·) ∧
      DimEntry.broadcast? (s.shape.map Dim.toEntry) (t.shape.map Dim.toEntry) =
        (s.shape.broadcast? t.shape).map (List.map Dim.toEntry) := by
  refine ⟨fun r => ?_, ?_, ?_, ?_, ?_, ?_, Shape.broadcast?_toEntry s.shape t.shape⟩
  · simp only [broadcast?_shape, Option.map_eq_some_iff, join?_eq_some_iff, isLUB_pair_iff]
  · rw [broadcast?_shape, Option.map_eq_none_iff, join?_eq_none_iff]
  · rw [broadcast?_shape, broadcast?_shape, join?_comm]
  · have hself : s.join? s = some s := join?_eq_some_iff.2 fun v => (and_self_iff).symm
    rw [broadcast?_shape, hself, Option.map_some]
  · have hscalar : s.join? ⟨[]⟩ = some s :=
      join?_eq_some_iff.2 fun v => (and_iff_left (scalar_le v)).symm
    have hshape := broadcast?_shape s ⟨[]⟩
    rwa [hscalar] at hshape
  · have hassoc := congrArg (Option.map shape) (join?_assoc s t u)
    simpa only [Option.map_bind, broadcast?_shape, Option.bind_map, Function.comp_def] using hassoc

end Sizes

end TensorTyping
