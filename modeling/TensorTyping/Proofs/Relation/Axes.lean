import Mathlib.Data.Int.ModEq
import Mathlib.Data.List.Basic
import Mathlib.Data.Rat.Cast.Order
import TensorTyping.Proofs.Relation.Refinement

/-!
# Axes of reduction and expansion

Reduction counts a negative axis from the rank of its operand, expansion from the rank of its
result if one dimension is put in. So expanding a reduced tensor at the axis of the reduction
restores the dimension with the size one, and reducing the dimensions that an expansion put in
restores its operand.
-/
namespace TensorTyping

open List

namespace Attrs

variable {j k : String} {v w : Value}

theorem get?_ofList_pair_left (h : j ≠ k) : (ofList [(j, v), (k, w)]).get? j = some v := by
  simp [ofList, get?_insert, h]

theorem get?_ofList_pair_right : (ofList [(j, v), (k, w)]).get? k = some w := by
  simp [ofList, get?_insert]

end Attrs

namespace Rule

variable {s : Shape} {d : String} {out : Ty} {rank : Nat} {axis : Int}
variable {axes : List Nat} {a : Int} {p : Nat} {attrs : Attrs}

/-- Whether an axis is in the range of a rank. -/
def InRange (rank : Nat) (axis : Int) : Prop := -(rank : Int) ≤ axis ∧ axis < rank

instance (rank : Nat) (axis : Int) : Decidable (InRange rank axis) :=
  inferInstanceAs (Decidable (_ ∧ _))

/-- Whether some axis of a list is congruent to a position modulo the rank. -/
def Listed (axes : List Int) (rank i : Nat) : Prop := ∃ a ∈ axes, a ≡ i [ZMOD rank]

instance (axes : List Int) (rank i : Nat) : Decidable (Listed axes rank i) :=
  inferInstanceAs (Decidable (∃ a ∈ axes, a % rank = i % rank))

/-- The position that an axis in the range of a rank means. -/
def position (rank : Nat) (axis : Int) : Nat := (axis % rank).toNat

theorem InRange.position_lt (h : InRange rank axis) : position rank axis < rank := by
  obtain ⟨hle, hlt⟩ := h
  have hmod := Int.emod_lt_of_pos axis (b := rank) (by omega)
  unfold position
  omega

theorem axis?_int (rank : Nat) (a : Int) :
    axis? rank (.int a) = if InRange rank a then some (position rank a) else none := rfl

theorem axes?_int (rank : Nat) (axes : List Int) :
    axes? rank (axes.map .int) =
      if ∀ a ∈ axes, InRange rank a then some (axes.map (position rank)) else none := by
  induction axes with
  | nil => rfl
  | cons a axes ih =>
    rw [map_cons, axes?, ih, axis?_int]
    simp only [forall_mem_cons]
    by_cases ha : InRange rank a
    · by_cases hall : ∀ b ∈ axes, InRange rank b
      · rw [if_pos ha, if_pos hall, if_pos ⟨ha, hall⟩, map_cons]
      · rw [if_pos ha, if_neg hall, if_neg (not_and_of_not_right _ hall)]
    · simp only [if_neg ha, if_neg (not_and_of_not_left _ ha)]

theorem axes?_nat (h : ∀ i ∈ axes, i < rank) :
    axes? rank (axes.map fun i : Nat => .int i) = some axes := by
  have hmap : (axes.map fun i : Nat => Value.int i) = (axes.map Int.ofNat).map .int := by
    rw [map_map]
    rfl
  have hrange : ∀ a ∈ axes.map Int.ofNat, InRange rank a := by
    simp only [forall_mem_map, InRange, Int.ofNat_eq_natCast]
    intro i hi
    have := h i hi
    omega
  rw [hmap, axes?_int, if_pos hrange, map_map, Option.some.injEq]
  conv => rhs; rw [← map_id axes]
  apply map_congr_left
  intro i hi
  have hlt := h i hi
  simp only [Function.comp_apply, Int.ofNat_eq_natCast, id_eq, position]
  rw [Int.emod_eq_of_lt (by omega) (by omega), Int.toNat_natCast]

theorem mem_map_position {axes : List Int} {i : Nat} (hi : i < rank) :
    i ∈ axes.map (position rank) ↔ Listed axes rank i := by
  rw [mem_map]
  refine exists_congr fun a => and_congr_right fun _ => ?_
  have hnonneg := Int.emod_nonneg a (b := rank) (by omega)
  have hmod : (i : Int) % rank = i := Int.emod_eq_of_lt (by omega) (by omega)
  rw [Int.ModEq, hmod, position]
  omega

theorem reducedShape_keep (axes : List Nat) (s : Shape) :
    reducedShape true axes s = s.mapIdx fun i d => if i ∈ axes then .known 1 else d := by
  rw [mapIdx_eq_zipIdx_map, ← filterMap_eq_map]
  apply filterMap_congr
  rintro ⟨d, i⟩ _
  by_cases hi : i ∈ axes <;> simp [hi]

theorem reducedShape_drop (axes : List Nat) (s : Shape) :
    reducedShape false axes s = (s.zipIdx.filter fun p => p.2 ∉ axes).map Prod.fst := by
  rw [← filterMap_eq_map, filterMap_filter]
  apply filterMap_congr
  rintro ⟨d, i⟩ _
  by_cases hi : i ∈ axes <;> simp [hi]

theorem reducedShape_listed (keep : Bool) (axes : List Int) (s : Shape) :
    reducedShape keep (axes.map (position s.length)) s =
      if keep then s.mapIdx fun i d => if Listed axes s.length i then .known 1 else d
      else (s.zipIdx.filter fun p => ¬ Listed axes s.length p.2).map Prod.fst := by
  have hlisted {p : Dim × Nat} (hp : p ∈ s.zipIdx) :
      p.2 ∈ axes.map (position s.length) ↔ Listed axes s.length p.2 :=
    mem_map_position (by simpa using snd_lt_add_of_mem_zipIdx hp)
  cases keep with
  | true =>
    rw [reducedShape_keep, if_pos rfl, mapIdx_eq_zipIdx_map, mapIdx_eq_zipIdx_map]
    refine map_congr_left fun p hp => ?_
    simp only [hlisted hp]
  | false =>
    rw [reducedShape_drop, if_neg Bool.false_ne_true]
    refine congrArg _ (filter_congr fun p hp => ?_)
    simp only [hlisted hp]

theorem reducedShape_range' (l m r : Shape) :
    reducedShape false (List.range' l.length m.length) (l ++ m ++ r) = l ++ r := by
  have hout (s : Shape) (k : Nat) (h : k + s.length ≤ l.length ∨ l.length + m.length ≤ k) :
      (s.zipIdx k).filter (fun p => p.2 ∉ List.range' l.length m.length) = s.zipIdx k := by
    rw [filter_eq_self]
    intro p hp
    have hle := le_snd_of_mem_zipIdx hp
    have hlt := snd_lt_add_of_mem_zipIdx hp
    simp only [mem_range'_1, decide_eq_true_eq]
    omega
  have hin : (m.zipIdx l.length).filter (fun p => p.2 ∉ List.range' l.length m.length) = [] := by
    rw [filter_eq_nil_iff]
    intro p hp
    have hle := le_snd_of_mem_zipIdx hp
    have hlt := snd_lt_add_of_mem_zipIdx hp
    simp only [mem_range'_1, decide_eq_true_eq]
    omega
  rw [reducedShape_drop, zipIdx_append, zipIdx_append, filter_append,
    filter_append, Nat.zero_add, hout l 0 (by omega), hin, hout r _ (by simp), append_nil,
    map_append, zipIdx_map_fst, zipIdx_map_fst]

theorem conclude_reduce (s : Shape) (d : String) (out : Ty) (attrs : Attrs) :
    conclude .reduce [.tensor s d, out] attrs =
      match reducedAxes? s.length ((attrs.get? "axis").getD .null) with
      | none => .error .fails
      | some axes =>
        .ok (.tensor (reducedShape ((attrs.get? "keepdims").getD .null).isTrue axes s) d) := rfl

theorem conclude_expandDims (s : Shape) (d : String) (out : Ty) (attrs : Attrs) :
    conclude .expandDims [.tensor s d, out] attrs =
      (expand s ((attrs.get? "axis").getD (.int 0)) ((attrs.get? "num_newaxis").getD (.int 1))).map
        (.tensor · d) := rfl

theorem expand_int {n : Int} (ha : -(s.length : Int) - 1 ≤ a ∧ a ≤ s.length)
    (hn : 0 ≤ n ∧ n ≤ rankLimit) (hp : (if a < 0 then a + s.length + 1 else a) = p) :
    expand s (.int a) (.int n) = .ok (expandedShape p n.toNat s) := by
  have haxis : ((Numeral.exact a).atLeast (-(s.length : Int) - 1) &&
      (Numeral.exact a).atMost s.length) = true := by
    simp only [Numeral.atLeast, Numeral.atMost, Rat.intCast_le_intCast, Bool.and_eq_true,
      decide_eq_true_eq]
    exact ha
  have hcount : (Numeral.exact n).below 0 = false := by
    simp only [Numeral.below, Rat.intCast_lt_intCast, decide_eq_false_iff_not]
    omega
  have hadded : addedRank n = .ok n.toNat := by
    have hlimit : (rankLimit : Int) ≤ lengthLimit := by decide
    unfold addedRank
    rw [if_neg (by omega), if_neg (by omega)]
  unfold expand
  simp only [number, wholeNumber, Value.numeral?, Value.int?, bind, Except.bind, haxis, hcount,
    hadded, if_true, Bool.false_eq_true, if_false, hp]
  rfl

theorem emod_of_inRange (h : InRange rank a) : a % rank = if a < 0 then a + rank else a := by
  obtain ⟨hle, hlt⟩ := h
  split
  · rw [← Int.add_emod_right, Int.emod_eq_of_lt (by omega) (by omega)]
  · exact Int.emod_eq_of_lt (by omega) hlt

theorem reducedShape_singleton (l : Shape) (x : Dim) (r : Shape) :
    reducedShape false [l.length] (l ++ x :: r) = l ++ r ∧
      reducedShape true [l.length] (l ++ x :: r) = l ++ .known 1 :: r := by
  constructor
  · simpa using reducedShape_range' l [x] r
  · rw [reducedShape_keep]
    apply ext_getElem?
    intro i
    rw [getElem?_mapIdx]
    simp only [mem_singleton, getElem?_append, getElem?_cons]
    grind

/-- Expanding a reduced shape at the same axis gives the reduction that keeps the dimension. -/
theorem expand_reduced (h : InRange s.length axis) :
    ∃ p, reducedAxes? s.length (.int axis) = some [p] ∧
      expand (reducedShape false [p] s) (.int axis) (.int 1) = .ok (reducedShape true [p] s) := by
  have hmod := emod_of_inRange h
  have haxes := axes?_int s.length [axis]
  rw [if_pos (by simpa using h)] at haxes
  obtain ⟨hle, hlt⟩ := h
  obtain ⟨p, hp⟩ : ∃ p : Nat, axis % s.length = p := ⟨(axis % s.length).toNat, by omega⟩
  have hps : p < s.length := by omega
  -- The shape around the dimension that is reduced.
  obtain ⟨l, x, r, rfl, rfl⟩ : ∃ l x r, s = l ++ x :: r ∧ l.length = p :=
    ⟨s.take p, s.get ⟨p, hps⟩, s.drop (p + 1), by simp, by simp; omega⟩
  obtain ⟨hdrop, hkeep⟩ := reducedShape_singleton l x r
  have hpos : position (l ++ x :: r).length axis = l.length := by
    rw [position, hp, Int.toNat_natCast]
  refine ⟨l.length, haxes.trans (congrArg (fun p => some [p]) hpos), ?_⟩
  simp only [length_append, length_cons, Nat.cast_add, Nat.cast_one] at hmod hle hlt hp
  rw [hdrop, hkeep, expand_int (p := l.length) ⟨?_, ?_⟩ ⟨by decide, by decide⟩ ?_]
  · exact congrArg _ (by simp [expandedShape])
  all_goals
    rw [length_append]
    push_cast
    omega

/-- Reducing the dimensions that an expansion put in gives the operand back. -/
theorem reduce_expanded {n : Nat} (haxis : -(s.length : Int) - 1 ≤ axis ∧ axis ≤ s.length)
    (hn : n ≤ rankLimit) (hp : (if axis < 0 then axis + s.length + 1 else axis) = p) :
    expand s (.int axis) (.int n) = .ok (expandedShape p n s) ∧
      reducedAxes? (expandedShape p n s).length
        (.list ((List.range' p n).map fun i : Nat => .int i)) = some (List.range' p n) ∧
      reducedShape false (List.range' p n) (expandedShape p n s) = s := by
  have hlen : (s.take p).length = p := by
    rw [length_take]
    omega
  refine ⟨expand_int haxis ⟨by omega, by omega⟩ hp, axes?_nat fun i hi => ?_, ?_⟩
  · rw [mem_range'_1] at hi
    simp only [expandedShape, length_append, length_replicate, length_drop]
    omega
  · have hback := reducedShape_range' (s.take p) (List.replicate n (.known 1)) (s.drop p)
    rwa [hlen, length_replicate, take_append_drop] at hback

theorem verdict_reduce {v : Value} (keep : Bool) (haxis : attrs.get? "axis" = some v)
    (haxes : reducedAxes? s.length v = some axes)
    (hkeep : ((attrs.get? "keepdims").getD .null).isTrue = keep) :
    reduce.verdict [.tensor s d, out] attrs =
      .ok (.holds 1 (.tensor (reducedShape keep axes s) d)) := by
  refine verdict_eq_holds.2 ⟨?_, rfl⟩
  rw [conclude_reduce, haxis, Option.getD_some, haxes, hkeep]

theorem verdict_expandDims {axis count : Value} {t : Shape}
    (haxis : (attrs.get? "axis").getD (.int 0) = axis)
    (hcount : (attrs.get? "num_newaxis").getD (.int 1) = count) (h : expand s axis count = .ok t) :
    expandDims.verdict [.tensor s d, out] attrs = .ok (.holds 1 (.tensor t d)) := by
  refine verdict_eq_holds.2 ⟨?_, rfl⟩
  rw [conclude_expandDims, haxis, hcount, h]
  rfl

/-- Reduction and expansion fit together. Expanding a reduced tensor at the axis of the reduction
is to keep the dimension. Reducing what an expansion put in is to undo it, if the expansion can be
held. Reduction fails just for axes out of range, and otherwise drops the dimensions whose position
is congruent to an axis modulo the rank, or makes them one. -/
theorem reduce_fits_expandDims (s : Shape) (d : String) (out : Ty) :
    (∀ axis, InRange s.length axis → ∃ reduced kept,
      reduce.verdict [.tensor s d, out] (.ofList [("axis", .int axis)]) =
        .ok (.holds 1 reduced) ∧
      reduce.verdict [.tensor s d, out] (.ofList [("axis", .int axis), ("keepdims", .bool true)]) =
        .ok (.holds 1 kept) ∧
      expandDims.verdict [reduced, out] (.ofList [("axis", .int axis)]) = .ok (.holds 1 kept)) ∧
    (∀ (axis : Int) (n : Nat), -(s.length : Int) - 1 ≤ axis ∧ axis ≤ s.length → n ≤ rankLimit →
      let p := (if axis < 0 then axis + s.length + 1 else axis).toNat
      ∃ expanded,
        expandDims.verdict [.tensor s d, out]
            (.ofList [("axis", .int axis), ("num_newaxis", .int n)]) = .ok (.holds 1 expanded) ∧
        expanded = .tensor (s.take p ++ List.replicate n (.known 1) ++ s.drop p) d ∧
        reduce.verdict [expanded, out]
            (.ofList [("axis", .list ((List.range' p n).map fun i : Nat => .int i))]) =
          .ok (.holds 1 (.tensor s d))) ∧
    ∀ (axes : List Int) (keep : Value),
      let verdict := reduce.verdict [.tensor s d, out]
        (.ofList [("axis", .list (axes.map .int)), ("keepdims", keep)])
      (verdict = .ok .fails ↔ ∃ a ∈ axes, ¬ InRange s.length a) ∧
      ((∀ a ∈ axes, InRange s.length a) → verdict = .ok (.holds 1 (.tensor
        (if keep.isTrue then s.mapIdx fun i d => if Listed axes s.length i then .known 1 else d
        else (s.zipIdx.filter fun p => ¬ Listed axes s.length p.2).map Prod.fst) d))) := by
  have hpair {v w : Value} : (Attrs.ofList [("axis", v), ("keepdims", w)]).get? "axis" = some v :=
    Attrs.get?_ofList_pair_left (by decide)
  have hkeep {v w : Value} : ((Attrs.ofList [("axis", v), ("keepdims", w)]).get? "keepdims").getD
      .null = w := by rw [Attrs.get?_ofList_pair_right, Option.getD_some]
  refine ⟨fun axis h => ?_, fun axis n haxis hn => ?_, fun axes keep => ?_⟩
  · obtain ⟨p, haxes, hexpand⟩ := expand_reduced h
    exact ⟨_, _, verdict_reduce false rfl haxes rfl,
      verdict_reduce true hpair haxes (congrArg _ hkeep), verdict_expandDims rfl rfl hexpand⟩
  · intro p
    obtain ⟨hexpand, haxes, hback⟩ := reduce_expanded haxis hn (p := p) (by omega)
    refine ⟨.tensor (expandedShape p n s) d, ?_, rfl, ?_⟩
    · exact verdict_expandDims (by rw [Attrs.get?_ofList_pair_left (by decide), Option.getD_some])
        (by rw [Attrs.get?_ofList_pair_right, Option.getD_some]) hexpand
    · rw [verdict_reduce false rfl haxes rfl, hback]
  · intro verdict
    have haxes : reducedAxes? s.length (.list (axes.map .int)) = _ := axes?_int s.length axes
    by_cases hall : ∀ a ∈ axes, InRange s.length a
    · rw [if_pos hall] at haxes
      have hholds : verdict = _ := verdict_reduce keep.isTrue hpair haxes (congrArg _ hkeep)
      refine ⟨by simpa [hholds] using hall, fun _ => ?_⟩
      rw [← reducedShape_listed]
      exact hholds
    · rw [if_neg hall] at haxes
      refine ⟨iff_of_true ?_ (by simpa using hall), fun h => absurd h hall⟩
      rw [verdict_eq_fails, conclude_reduce, hpair, Option.getD_some, haxes]

theorem reduce_fits_expandDims_inner :
    expandDims.verdict [.tensor [.known 2, .named "n"] "float32", .tuple []]
        (.ofList [("axis", .int (-2)), ("num_newaxis", .int 2)]) =
      .ok (.holds 1 (.tensor [.known 2, .known 1, .known 1, .named "n"] "float32")) ∧
    reduce.verdict [.tensor [.known 2, .known 1, .known 1, .named "n"] "float32", .tuple []]
        (.ofList [("axis", .list [.int 1, .int 2])]) =
      .ok (.holds 1 (.tensor [.known 2, .named "n"] "float32")) := by
  obtain ⟨_, hexpand, rfl, hreduce⟩ :=
    (reduce_fits_expandDims [.known 2, .named "n"] "float32" (.tuple [])).2.1 (-2) 2 (by decide)
      (by decide)
  exact ⟨hexpand, hreduce⟩

/-- A count that is no length stops the expansion of a scalar. -/
theorem expandDims_stopped_by_count :
    ¬ ∃ expanded, expandDims.verdict [.tensor [] "int32", .tuple []]
      (.ofList [("axis", .int 0), ("num_newaxis", .int 9223372036854775808)]) =
        .ok (.holds 1 expanded) := by
  rintro ⟨t, h⟩
  rw [verdict_eq_holds, conclude_expandDims, Attrs.get?_ofList_pair_left (by decide),
    Attrs.get?_ofList_pair_right] at h
  have hstop : expand [] (.int 0) (.int 9223372036854775808) = .error (.fault .countTooBig) := rfl
  rw [Option.getD_some, Option.getD_some, hstop] at h
  cases h.1

end Rule

end TensorTyping
