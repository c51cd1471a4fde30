import TensorTyping.Proofs.Shape.Broadcasting

/-!
# Broadcasting before sizes are known

A valuation says what size each name stands for when the program runs. Broadcasting of shapes with
names in them fails only if it fails under every valuation, and a size that it promises is the size
that comes out, whatever the names stand for.
-/
namespace TensorTyping

def Dim.valued (size : String → Nat) : Dim → Nat
  | .known n => n
  | .named name => size name

def Shape.valued (size : String → Nat) (s : Shape) : Sizes := ⟨s.map (Dim.valued size)⟩

namespace Dim

variable {size : String → Nat} {d e : Dim}

theorem valued_stretch?_eq_none (h : d.stretch? e = none) :
    Sizes.stretch? (d.valued size) (e.valued size) = none := by
  unfold stretch? at h
  unfold Sizes.stretch?
  cases d <;> cases e <;> simp only [valued] <;> grind

/-- A known size that comes out is the one that comes out when the program runs. -/
theorem stretch?_valued_unique {n k : Nat} (h : d.stretch? e = some (.known n))
    (hk : Sizes.stretch? (d.valued size) (e.valued size) = some k) : n = k := by
  unfold stretch? at h
  unfold Sizes.stretch? at hk
  cases d <;> cases e <;> simp only [valued] at hk <;> grind

/-- Dimensions that can be stretched can be so when every name stands for one. -/
theorem valued_one_stretch?_ne_none {x : Dim} (h : d.stretch? e = some x) :
    Sizes.stretch? (d.valued fun _ => 1) (e.valued fun _ => 1) ≠ none := by
  unfold stretch? at h
  unfold Sizes.stretch?
  cases d <;> cases e <;> simp only [valued] <;> grind

end Dim

namespace Shape

variable {size : String → Nat} {s t r : Shape}

theorem fromEnd_valued (size : String → Nat) (s : Shape) (i : Nat) :
    (s.valued size).fromEnd i = (fromEnd (.known 1) s i).valued size :=
  fromEnd_map (Dim.known 1) (Dim.valued size) s i

theorem rank_valued (size : String → Nat) (s : Shape) : (s.valued size).rank = s.length :=
  List.length_map _

theorem valued_join?_eq_none (h : s.broadcast? t = none) :
    (s.valued size).join? (t.valued size) = none := by
  obtain ⟨i, hi⟩ := (stretchAligned?_eq_none_iff rfl).1 h
  refine Sizes.join?_eq_none.2 ⟨i, ?_⟩
  rw [fromEnd_valued, fromEnd_valued]
  exact Dim.valued_stretch?_eq_none hi

theorem valued_one_join?_ne_none (h : s.broadcast? t = some r) :
    (s.valued fun _ => 1).join? (t.valued fun _ => 1) ≠ none := by
  rw [Ne, Sizes.join?_eq_none]
  rintro ⟨i, hi⟩
  rw [fromEnd_valued, fromEnd_valued] at hi
  obtain ⟨-, hplace⟩ := (stretchAligned?_eq_some_iff rfl).1 h
  exact Dim.valued_one_stretch?_ne_none (hplace i) hi

theorem broadcast?_valued_unique {u : Sizes} (h : s.broadcast? t = some r)
    (hu : (s.valued size).join? (t.valued size) = some u) :
    r.length = u.rank ∧ ∀ i n, fromEnd (.known 1) r i = .known n → n = u.fromEnd i := by
  obtain ⟨hlen, hplace⟩ := (stretchAligned?_eq_some_iff rfl).1 h
  obtain ⟨hrank, hsizes⟩ := Sizes.join?_eq_some hu
  rw [rank_valued, rank_valued, ← hlen] at hrank
  refine ⟨hrank.symm, fun i n hn => ?_⟩
  have hsize := hsizes i
  rw [fromEnd_valued, fromEnd_valued] at hsize
  exact Dim.stretch?_valued_unique (hn ▸ hplace i) hsize

/-- Broadcasting fails exactly if it fails under every valuation of the names. If it succeeds under
one, the result has the rank of the result there, and where it has a known size, that size. The
entries that shapes are written as are broadcast alike. -/
theorem broadcast?_covers_valuations (s t : Shape) :
    (s.broadcast? t = none ↔
      ∀ size, (s.valued size).shape.broadcast? (t.valued size).shape = none) ∧
    (∀ size u, (s.valued size).shape.broadcast? (t.valued size).shape = some u →
      ∃ r, s.broadcast? t = some r ∧ r.length = u.length ∧
        ∀ i n : Nat, r[i]? = some (.known n) → u[i]? = some (.known n)) ∧
    DimEntry.broadcast? (s.map Dim.toEntry) (t.map Dim.toEntry) =
      (s.broadcast? t).map (List.map Dim.toEntry) := by
  refine ⟨?_, ?_, s.broadcast?_toEntry t⟩
  all_goals simp only [Sizes.broadcast?_shape, Option.map_eq_none_iff, Option.map_eq_some_iff]
  · refine ⟨fun h size => valued_join?_eq_none h, fun h => ?_⟩
    rw [Option.eq_none_iff_forall_ne_some]
    exact fun r hr => valued_one_join?_ne_none hr (h _)
  · rintro size _ ⟨u, hu, rfl⟩
    cases hr : s.broadcast? t with
    | none =>
      rw [valued_join?_eq_none hr] at hu
      cases hu
    | some r =>
      obtain ⟨hlen, hknown⟩ := broadcast?_valued_unique hr hu
      have hlen' : r.length = u.shape.length := hlen.trans (List.length_map _).symm
      refine ⟨r, rfl, hlen', fun i n hn => ?_⟩
      have hi : i < r.length := (List.getElem?_eq_some_iff.1 hn).1
      rw [getElem?_eq_fromEnd (.known 1) hi, Option.some.injEq] at hn
      rw [getElem?_eq_fromEnd (.known 1) (hlen' ▸ hi), ← hlen', Sizes.fromEnd_shape,
        ← hknown _ n hn]

end Shape

end TensorTyping
