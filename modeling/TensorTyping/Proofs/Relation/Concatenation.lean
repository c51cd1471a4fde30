import TensorTyping.Proofs.Relation.Axes
import TensorTyping.Proofs.Shape.Broadcasting

/-!
# Concatenation in parts

Concatenation compares every tensor with the first one, and reads its axis off the first one too.
With known sizes that makes all of them alike off the axis, so what comes out does not depend on
the one that is first: tensors laid end to end in two parts, and the parts end to end, come to the
same as all of them at once.
-/
namespace TensorTyping

open List

namespace Rule

variable {s t : Shape} {axis : Value} {x y : Shape × String} {a : Nat}

theorem agreeExcept_iff :
    agreeExcept a s t = true ↔ s.length = t.length ∧
      ∀ i d e, i ≠ a → s[i]? = some d → t[i]? = some e → d.agree e = true := by
  unfold agreeExcept
  rw [Bool.and_eq_true, beq_iff_eq, all_eq_true]
  refine and_congr_right fun _ => ?_
  constructor
  · intro h i d e hi hs ht
    have hmem : ((d, e), i) ∈ (s.zip t).zipIdx :=
      mem_zipIdx_iff_getElem?.2 (getElem?_zip_eq_some.2 ⟨hs, ht⟩)
    simpa [hi] using h _ hmem
  · rintro h ⟨⟨d, e⟩, i⟩ hmem
    obtain ⟨hs, ht⟩ := getElem?_zip_eq_some.1 (mem_zipIdx_iff_getElem?.1 hmem)
    by_cases hi : i = a
    · simp [hi]
    · simp [h i d e hi hs ht]

def tensorOf (x : Shape × String) : Ty := .tensor x.1 x.2

theorem tensors_map (xs : List (Shape × String)) : tensors (xs.map tensorOf) = .ok xs := by
  induction xs with
  | nil => rfl
  | cons x xs ih =>
    rw [map_cons, tensors, ih]
    rfl

theorem conclude_concatenate (x : Shape × String) (xs : List (Shape × String)) (out : Ty)
    (attrs : Attrs) :
    conclude .concatenate [.tuple ((x :: xs).map tensorOf), out] attrs =
      (concatenation x (x :: xs) ((attrs.get? "axis").getD (.int 0))).map tensorOf := by
  change (tensors (xs.map tensorOf) >>= fun rest =>
    concatenation x (x :: rest) _ >>= fun q => pure (tensorOf q)) = _
  rw [tensors_map]
  rfl

/-- Two tensors can be laid end to end: they have one element type and one rank, which the axis is
in the range of, and sizes that agree off the axis. -/
structure Fits (axis : Value) (x y : Shape × String) : Prop where
  dtype : x.2 = y.2
  rank : x.1.length = y.1.length
  dims : ∃ a, axis? x.1.length axis = some a ∧
    ∀ i d e, i ≠ a → x.1[i]? = some d → y.1[i]? = some e → d.agree e = true

theorem fits_iff (ha : axis? x.1.length axis = some a) :
    Fits axis x y ↔ (y.2 == x.2 && agreeExcept a x.1 y.1) = true := by
  rw [Bool.and_eq_true, beq_iff_eq, agreeExcept_iff]
  constructor
  · rintro ⟨hdtype, hrank, b, hb, hdims⟩
    rw [ha, Option.some.injEq] at hb
    exact ⟨hdtype.symm, hrank, hb ▸ hdims⟩
  · rintro ⟨hdtype, hrank, hdims⟩
    exact ⟨hdtype.symm, hrank, a, ha, hdims⟩

/-- Concatenation holds if all tensors fit the first, and fails otherwise. -/
theorem concatenate_verdict (x : Shape × String) (xs : List (Shape × String)) (attrs : Attrs)
    (out : Ty) :
    (∃ t, concatenate.verdict [.tuple ((x :: xs).map tensorOf), out] attrs = .ok (.holds 1 t) ∧
        ∀ y ∈ x :: xs, Fits ((attrs.get? "axis").getD (.int 0)) x y) ∨
      concatenate.verdict [.tuple ((x :: xs).map tensorOf), out] attrs = .ok .fails ∧
        ¬ ∀ y ∈ x :: xs, Fits ((attrs.get? "axis").getD (.int 0)) x y := by
  simp only [verdict_eq_holds, verdict_eq_fails, conclude_concatenate, concatenation]
  cases ha : axis? x.1.length ((attrs.get? "axis").getD (.int 0)) with
  | none =>
    refine .inr ⟨rfl, fun h => ?_⟩
    obtain ⟨a, hsome, -⟩ := (h x (.head _)).dims
    rw [ha] at hsome
    cases hsome
  | some a =>
    simp only [fits_iff ha, ← all_eq_true]
    split
    · next hall => exact .inl ⟨_, ⟨rfl, rfl⟩, hall⟩
    · next hall => exact .inr ⟨rfl, hall⟩

end Rule

@[ext] structure SizedTensor extends Sizes where
  dtype : String

namespace SizedTensor

open Rule

variable {p n : Nat} {axis : Int} {x y z u : SizedTensor} {xs ys : List SizedTensor}

def parts (x : SizedTensor) : Shape × String := (x.shape, x.dtype)

def ty (x : SizedTensor) : Ty := .tensor x.shape x.dtype

def resize (x : SizedTensor) (p n : Nat) : SizedTensor := ⟨⟨x.dims.set p n⟩, x.dtype⟩

def total (p : Nat) (xs : List SizedTensor) : Nat := (xs.map fun x => x.dims.getD p 0).sum

/-- The tensors have one element type and the same sizes but for one place. -/
structure Alike (p : Nat) (x y : SizedTensor) : Prop where
  dtype : x.dtype = y.dtype
  rank : x.rank = y.rank
  dims : ∀ i, i ≠ p → x.dims[i]? = y.dims[i]?

theorem Alike.symm (h : Alike p x y) : Alike p y x :=
  ⟨h.dtype.symm, h.rank.symm, fun i hi => (h.dims i hi).symm⟩

theorem Alike.trans (hxy : Alike p x y) (hyz : Alike p y z) : Alike p x z :=
  ⟨hxy.dtype.trans hyz.dtype, hxy.rank.trans hyz.rank,
    fun i hi => (hxy.dims i hi).trans (hyz.dims i hi)⟩

@[simp] theorem rank_resize : (x.resize p n).rank = x.rank := length_set

theorem resize_alike (x : SizedTensor) (p n : Nat) : Alike p (x.resize p n) x :=
  ⟨rfl, rank_resize, fun _ hi => getElem?_set_ne hi.symm⟩

theorem getElem?_resize (hp : p < x.rank) : (x.resize p n).dims[p]? = some n :=
  getElem?_set_self hp

theorem Alike.eq_resize (h : Alike p x y) (hn : x.dims[p]? = some n) : x = y.resize p n := by
  obtain ⟨hp, -⟩ := List.getElem?_eq_some_iff.1 hn
  refine SizedTensor.ext (ext_getElem? fun i => ?_) h.dtype
  by_cases hi : i = p
  · rw [hi]
    exact hn.trans (getElem?_resize (h.rank ▸ hp)).symm
  · exact (h.dims i hi).trans ((resize_alike y p n).dims i hi).symm

/-- The tensors are alike but for the dimension of the axis, and there `u` has their sizes
together. -/
structure Joined (axis : Int) (xs : List SizedTensor) (u : SizedTensor) : Prop where
  range : InRange u.rank axis
  alike : ∀ x ∈ xs, Alike (position u.rank axis) x u
  total : u.dims[position u.rank axis]? = some (total (position u.rank axis) xs)

theorem joined_resize (h : InRange u.rank axis) (hxs : ∀ x ∈ xs, Alike (position u.rank axis) x u) :
    Joined axis xs (u.resize (position u.rank axis) (total (position u.rank axis) xs)) := by
  refine ⟨?_, fun x hx => ?_, ?_⟩ <;> rw [rank_resize]
  · exact h
  · exact (hxs x hx).trans (resize_alike ..).symm
  · exact getElem?_resize h.position_lt

/-- The first tensor settles the axis and what the others have to be like. -/
theorem joined_cons_iff :
    Joined axis (x :: xs) u ↔
      (InRange x.rank axis ∧ ∀ y ∈ x :: xs, Alike (position x.rank axis) y x) ∧
        u = x.resize (position x.rank axis)
          (SizedTensor.total (position x.rank axis) (x :: xs)) := by
  constructor
  · intro h
    have hx := h.alike x (.head _)
    obtain ⟨hrange, halike, htotal⟩ := h
    rw [← hx.rank] at *
    exact ⟨⟨hrange, fun y hy => (halike y hy).trans hx.symm⟩, hx.symm.eq_resize htotal⟩
  · rintro ⟨⟨hrange, halike⟩, rfl⟩
    exact joined_resize hrange halike

theorem total_append : total p (xs ++ ys) = total p xs + total p ys := by
  simp [total]

theorem total_pair {m n : Nat} (hx : x.dims[p]? = some m) (hy : y.dims[p]? = some n) :
    total p [x, y] = m + n := by
  simp [total, hx, hy]

/-- Tensors are joined in two parts as they are all at once. -/
theorem joined_append_iff :
    Joined axis (xs ++ ys) u ↔
      ∃ v w, Joined axis xs v ∧ Joined axis ys w ∧ Joined axis [v, w] u := by
  constructor
  · rintro ⟨hrange, halike, htotal⟩
    rw [forall_mem_append] at halike
    refine ⟨_, _, joined_resize hrange halike.1, joined_resize hrange halike.2, hrange, ?_, ?_⟩
    · simp only [forall_mem_cons]
      exact ⟨resize_alike .., resize_alike .., forall_mem_nil _⟩
    · rw [htotal, total_append, total_pair (getElem?_resize hrange.position_lt)
        (getElem?_resize hrange.position_lt)]
  · rintro ⟨v, w, ⟨-, hxs, hv⟩, ⟨-, hys, hw⟩, hrange, halike, htotal⟩
    simp only [forall_mem_cons] at halike
    obtain ⟨hvu, hwu, -⟩ := halike
    rw [hvu.rank] at hxs hv
    rw [hwu.rank] at hys hw
    refine ⟨hrange, forall_mem_append.2 ⟨fun x hx => ?_, fun y hy => ?_⟩, ?_⟩
    · exact (hxs x hx).trans hvu
    · exact (hys y hy).trans hwu
    · rw [htotal, total_pair hv hw, total_append]

theorem agreeExcept_shape :
    agreeExcept p x.shape y.shape = true ↔
      x.rank = y.rank ∧ ∀ i, i ≠ p → x.dims[i]? = y.dims[i]? := by
  rw [agreeExcept_iff]
  simp only [Sizes.shape, Sizes.rank, length_map, getElem?_map]
  refine and_congr_right fun hlen => forall_congr' fun i => ?_
  constructor
  · intro h hi
    cases hx : x.dims[i]? with
    | none =>
      rw [getElem?_eq_none_iff] at hx
      rw [getElem?_eq_none (hlen ▸ hx)]
    | some m =>
      obtain ⟨hlt, -⟩ := List.getElem?_eq_some_iff.1 hx
      have hy : y.dims[i]? = some _ := getElem?_eq_getElem (hlen ▸ hlt)
      have hagree := h _ _ hi (congrArg _ hx) (congrArg _ hy)
      rw [hy, eq_of_beq hagree]
  · rintro h d e hi hd he
    obtain rfl := Option.some.inj (hd.symm.trans ((congrArg _ (h hi)).trans he))
    exact d.agree_self

theorem foldl_join (p n : Nat) (xs : List SizedTensor) :
    (xs.map parts).foldl (fun n t => Dim.join n (t.1.getD p (.known 0))) (.known n) =
      .known (n + total p xs) := by
  induction xs generalizing n with
  | nil => rfl
  | cons x xs ih =>
    have hx : x.parts.1.getD p (.known 0) = .known (x.dims.getD p 0) := by
      simp [parts, Sizes.shape]
    rw [map_cons, foldl_cons, hx, Dim.join, ih, Nat.add_assoc]
    rfl

theorem parts_resize (hp : p < x.rank) :
    (x.resize p n).parts = (x.shape.take p ++ .known n :: x.shape.drop (p + 1), x.dtype) := by
  have hset : x.dims.set p n = x.dims.take p ++ n :: x.dims.drop (p + 1) := by
    rw [set_eq_take_append_cons_drop]
    exact if_pos hp
  simp only [parts, Sizes.shape, resize, hset, map_append, map_cons, map_take,
    map_drop]

/-- What concatenation concludes of tensors with known sizes. -/
theorem concatenation_eq_ok_iff {q : Shape × String} :
    concatenation x.parts ((x :: xs).map parts) (.int axis) = .ok q ↔
      ∃ u, q = u.parts ∧ Joined axis (x :: xs) u := by
  have hlen : x.parts.1.length = x.rank := length_map _
  simp only [joined_cons_iff, concatenation, hlen, axis?_int]
  generalize hp : position x.rank axis = p
  have hall : (((x :: xs).map parts).all fun t =>
      t.2 == x.parts.2 && agreeExcept p x.parts.1 t.1) = true ↔ ∀ y ∈ x :: xs, Alike p y x := by
    rw [all_map, all_eq_true]
    refine forall₂_congr fun y _ => ?_
    rw [Function.comp_apply, Bool.and_eq_true, beq_iff_eq]
    refine (and_congr_right' agreeExcept_shape).trans ⟨fun h => ?_, fun h => ?_⟩
    · exact ⟨h.1, h.2.1.symm, fun i hi => (h.2.2 i hi).symm⟩
    · exact ⟨h.dtype, h.rank.symm, fun i hi => (h.dims i hi).symm⟩
  by_cases hrange : InRange x.rank axis
  · have hparts := parts_resize (n := total p (x :: xs)) (hp ▸ hrange.position_lt)
    rw [if_pos hrange]
    simp only [hrange, true_and, foldl_join, Nat.zero_add]
    by_cases hcheck : ∀ y ∈ x :: xs, Alike p y x
    · rw [if_pos (hall.2 hcheck)]
      constructor
      · rintro ⟨⟩
        exact ⟨_, hparts.symm, hcheck, rfl⟩
      · rintro ⟨_, rfl, -, rfl⟩
        rw [hparts]
        rfl
    · rw [if_neg (mt hall.1 hcheck)]
      refine iff_of_false (fun h => by cases h) ?_
      rintro ⟨_, -, h, -⟩
      exact hcheck h
  · rw [if_neg hrange]
    simp [hrange]

theorem map_ty (xs : List SizedTensor) : xs.map ty = (xs.map parts).map tensorOf := by
  rw [map_map]
  rfl

/-- Concatenation holds for tensors that can be joined, with what they come to. -/
theorem concatenate_holds_iff {attrs : Attrs} {out t : Ty} (hxs : xs ≠ [])
    (haxis : (attrs.get? "axis").getD (.int 0) = .int axis) :
    concatenate.verdict [.tuple (xs.map ty), out] attrs = .ok (.holds 1 t) ↔
      ∃ u, t = u.ty ∧ Joined axis xs u := by
  obtain ⟨x, xs, rfl⟩ := exists_cons_of_ne_nil hxs
  rw [verdict_eq_holds, map_ty, map_cons, conclude_concatenate, haxis, ← map_cons]
  constructor
  · rintro ⟨h, -⟩
    cases hq : concatenation x.parts ((x :: xs).map parts) (.int axis) with
    | error =>
      rw [hq] at h
      cases h
    | ok q =>
      obtain ⟨u, rfl, hu⟩ := concatenation_eq_ok_iff.1 hq
      rw [hq] at h
      cases h
      exact ⟨u, rfl, hu⟩
  · rintro ⟨u, rfl, hu⟩
    rw [concatenation_eq_ok_iff.2 ⟨u, rfl, hu⟩]
    exact ⟨rfl, rfl⟩

theorem concatenate_fails_or_holds (hxs : xs ≠ []) (attrs : Attrs) (out : Ty) :
    concatenate.verdict [.tuple (xs.map ty), out] attrs = .ok .fails ∨
      ∃ t, concatenate.verdict [.tuple (xs.map ty), out] attrs = .ok (.holds 1 t) := by
  obtain ⟨x, xs, rfl⟩ := exists_cons_of_ne_nil hxs
  rw [map_ty, map_cons]
  rcases concatenate_verdict x.parts (xs.map parts) attrs out with ⟨t, ht, -⟩ | ⟨hfails, -⟩
  · exact .inr ⟨t, ht⟩
  · exact .inl hfails

/-- Tensors of known sizes can be concatenated in two parts. The whole holds with the type that the
parts come to, or else fails. What holds has the sizes of every tensor, but along the axis the sum
of them. -/
theorem concatenate_append (xs ys : List SizedTensor) (hxs : xs ≠ []) (hys : ys ≠ []) (axis : Int)
    (attrs : Attrs) (haxis : (attrs.get? "axis").getD (.int 0) = .int axis) (out : Ty) :
    let verdict (ts : List Ty) := concatenate.verdict [.tuple ts, out] attrs
    (∀ t, verdict ((xs ++ ys).map ty) = .ok (.holds 1 t) ↔ ∃ x y,
      verdict (xs.map ty) = .ok (.holds 1 x) ∧ verdict (ys.map ty) = .ok (.holds 1 y) ∧
        verdict [x, y] = .ok (.holds 1 t)) ∧
    (verdict ((xs ++ ys).map ty) = .ok .fails ∨
      ∃ t, verdict ((xs ++ ys).map ty) = .ok (.holds 1 t)) ∧
    ∀ t, verdict ((xs ++ ys).map ty) = .ok (.holds 1 t) →
      ∃ u : SizedTensor, t = u.ty ∧ Joined axis (xs ++ ys) u := by
  intro verdict
  have hboth : xs ++ ys ≠ [] := List.append_ne_nil_of_left_ne_nil hxs ys
  have hholds {zs : List SizedTensor} (hzs : zs ≠ []) {t : Ty} :
      verdict (zs.map ty) = .ok (.holds 1 t) ↔ ∃ u, t = u.ty ∧ Joined axis zs u :=
    concatenate_holds_iff hzs haxis
  refine ⟨fun t => ?_, concatenate_fails_or_holds hboth attrs out, fun t => (hholds hboth).1⟩
  rw [hholds hboth]
  constructor
  · rintro ⟨u, rfl, hu⟩
    obtain ⟨v, w, hv, hw, hpair⟩ := joined_append_iff.1 hu
    exact ⟨v.ty, w.ty, (hholds hxs).2 ⟨v, rfl, hv⟩, (hholds hys).2 ⟨w, rfl, hw⟩,
      (hholds (List.cons_ne_nil v [w])).2 ⟨u, rfl, hpair⟩⟩
  · rintro ⟨x, y, hx, hy, ht⟩
    obtain ⟨v, rfl, hv⟩ := (hholds hxs).1 hx
    obtain ⟨w, rfl, hw⟩ := (hholds hys).1 hy
    obtain ⟨u, rfl, hu⟩ := (hholds (List.cons_ne_nil v [w])).1 ht
    exact ⟨u, rfl, joined_append_iff.2 ⟨v, w, hv, hw, hu⟩⟩

theorem concatenate_append_rows :
    concatenate.verdict [.tuple [.tensor [.known 2, .known 3] "float32",
        .tensor [.known 0, .known 3] "float32", .tensor [.known 4, .known 3] "float32"], .tuple []]
      (.ofList [("axis", .int (-2))]) =
        .ok (.holds 1 (.tensor [.known 6, .known 3] "float32")) := by
  have happend := (concatenate_append [⟨⟨[2, 3]⟩, "float32"⟩, ⟨⟨[0, 3]⟩, "float32"⟩]
    [⟨⟨[4, 3]⟩, "float32"⟩] (List.cons_ne_nil _ _) (List.cons_ne_nil _ _) (-2)
    (.ofList [("axis", .int (-2))]) rfl (.tuple [])).1 (.tensor [.known 6, .known 3] "float32")
  exact happend.2 ⟨.tensor [.known 2, .known 3] "float32", .tensor [.known 4, .known 3] "float32",
    rfl, rfl, rfl⟩

end SizedTensor

end TensorTyping
