import TensorTyping.Proofs.Module.Workspace
import Mathlib.Data.List.TakeWhile

/-!
# Tags of constructors

When a data type is defined, its constructors are tagged with their positions. The tag is kept with
the constructor, and it is given before it is known whether the definition will be accepted and
added to a module. So it tells the position in the last definition that got as far as the
constructor, which need not be the one that is registered.
-/
namespace TensorTyping

open List

theorem lookup_reverse_zipIdx {before after : List Serial} {s : Serial} (h : s ∉ after) :
    (before ++ s :: after).zipIdx.reverse.lookup s = some before.length := by
  have hafter : ∀ n, (after.zipIdx n).reverse.lookup s = none := by
    intro n
    refine lookup_eq_none_iff.2 fun x hx => bne_iff_ne.2 ?_
    rintro rfl
    exact h (fst_mem_of_mem_zipIdx (mem_reverse.1 hx))
  rw [zipIdx_append, zipIdx_cons, reverse_append, reverse_cons,
    append_assoc, lookup_append, hafter, Option.none_or]
  simp

namespace Workspace

variable {w : Workspace} {c : Ctor}

/-- The constructor stands at this place, and not once more after it, in the last definition that
got as far as tagging it. -/
def TaggedAt (w : Workspace) (c : Ctor) (i : Nat) : Prop :=
  ∃ later d earlier before after, w.tried = later ++ d :: earlier ∧
    (∀ e ∈ later, c ∉ e.tagged) ∧ d.tagged = before ++ c :: after ∧ c ∉ after ∧ before.length = i

/-- The tags are those that were given by the definitions, one after the other. -/
theorem Reached.tags_eq (h : w.Reached) :
    w.session.marks.tags = w.tried.flatMap DataType.places := by
  have hdefine {w : Workspace} (h : w.session.marks.tags = w.tried.flatMap DataType.places)
      (handle : Handle) (params : List TypeParam) (ctors : List Ctor) :
      (w.perform (.define handle params ctors)).session.marks.tags =
        (w.perform (.define handle params ctors)).tried.flatMap DataType.places := by
    simp only [perform, DataType.endState_define, flatMap_cons, h]
  induction h with
  | start => rfl
  | @act w a _ _ ih =>
    cases a with
    | mint | make | addData | addFunction | update => exact ih
    | define handle params ctors => exact hdefine ih handle params ctors
    | defineData k handle params cases =>
      rw [perform_defineData]
      exact hdefine (w := w.perform (.make handle cases)) ih handle params _
    | check k operators registry report =>
      exact (w.session.grows_check _ operators registry report).tags_eq.trans ih

theorem Sound.serial_notMem (h : w.Sound) (hc : c ∈ w.made) {d : DataType} (hd : d ∈ w.tried)
    {cs : List Ctor} (hcs : cs ⊆ d.tagged) (hnot : c ∉ cs) :
    c.serial ∉ cs.map fun c => c.serial := by
  intro hmem
  obtain ⟨c', hc', heq⟩ := mem_map.1 hmem
  have hctor : c' ∈ d.ctors := (List.takeWhile_prefix _).subset (hcs hc')
  obtain rfl := h.made_eq c' (h.tried d hd c' hctor) c hc heq
  exact hnot hc'

theorem Reached.tag_of_taggedAt (h : w.Reached) (hc : c ∈ w.made) {i : Nat}
    (hi : w.TaggedAt c i) : w.session.marks.tag? c.serial = some i := by
  obtain ⟨later, d, earlier, before, after, htried, hlater, htagged, hafter, rfl⟩ := hi
  have hmem : ∀ e, e ∈ later ∨ e = d → e ∈ w.tried := by
    rw [htried]
    rintro e (he | rfl)
    · exact mem_append_left _ he
    · exact mem_append_right _ (.head _)
  have hplace : d.places.lookup c.serial = some before.length := by
    rw [DataType.places, htagged, map_append, map_cons, lookup_reverse_zipIdx,
      length_map]
    refine h.sound.serial_notMem hc (hmem d (.inr rfl)) ?_ hafter
    rw [htagged]
    exact fun c hc => mem_append_right _ (.tail _ hc)
  have hnone : (later.flatMap DataType.places).lookup c.serial = none := by
    refine lookup_eq_none_iff.2 fun x hx => bne_iff_ne.2 ?_
    obtain ⟨e, he, hx⟩ := mem_flatMap.1 hx
    intro heq
    refine h.sound.serial_notMem hc (hmem e (.inl he)) (List.Subset.refl _) (hlater e he) ?_
    rw [heq]
    exact fst_mem_of_mem_zipIdx (mem_reverse.1 hx)
  rw [Marks.tag?, h.tags_eq, htried, flatMap_append, flatMap_cons, lookup_append,
    hnone, Option.none_or, lookup_append, hplace, Option.some_or]

/-- A constructor that some definition lists has a place in the last of these definitions. -/
theorem exists_taggedAt {d : DataType} (hd : d ∈ w.tried) (hc : c ∈ d.tagged) :
    ∃ i, w.TaggedAt c i := by
  classical
  obtain ⟨e, he⟩ : ∃ e, w.tried.find? (fun e => decide (c ∈ e.tagged)) = some e :=
    Option.isSome_iff_exists.1 (find?_isSome.2 ⟨d, hd, decide_eq_true hc⟩)
  obtain ⟨hce, later, earlier, htried, hlater⟩ := find?_eq_some_iff_append.1 he
  obtain ⟨after, before, htagged, hafter⟩ :=
    eq_append_cons_of_mem (mem_reverse.2 (of_decide_eq_true hce))
  refine ⟨_, later, e, earlier, before.reverse, after.reverse, htried, ?_, ?_, ?_, rfl⟩
  · exact fun e' he' => by simpa using hlater e' he'
  · rw [← reverse_reverse e.tagged, htagged]
    simp
  · rwa [mem_reverse]

/-- The tag of a constructor tells its position in the last definition that got as far as tagging
it, and it always has one. So the constructors of a registered data type are tagged with their
positions as long as no definition, accepted or not, lists one of them at another place. -/
theorem Reached.tag_eq_place (h : w.Reached) {k : Nat} {a : Handle} {d : DataType}
    (hd : (w.modules k).dataTypes.get? a = some d) {i : Nat} (hi : d.ctors[i]? = some c) :
    (∃ j, w.session.marks.tag? c.serial = some j) ∧
      (∀ j, w.session.marks.tag? c.serial = some j ↔ w.TaggedAt c j) ∧
      ((∀ e ∈ w.tried, ∀ j, e.tagged[j]? = some c → j = i) →
        w.session.marks.tag? c.serial = some i) := by
  obtain ⟨-, htried, howner⟩ := (h.sound.tidy k).defined _ (Table.mem_entries_of_get? hd)
  have hctor : c ∈ d.ctors := List.mem_of_getElem? hi
  have htagged : d.tagged = d.ctors := by
    rw [DataType.tagged, List.takeWhile_eq_self_iff]
    exact fun c hc => decide_eq_true (howner c hc)
  obtain ⟨j, hj⟩ := exists_taggedAt htried (htagged ▸ hctor)
  have htag := fun j => h.tag_of_taggedAt (i := j) (h.sound.tried d htried c hctor)
  refine ⟨⟨j, htag j hj⟩, fun j' => ⟨fun hj' => ?_, htag j'⟩, fun hplace => ?_⟩
  · obtain rfl := Option.some.inj ((htag j hj).symm.trans hj')
    exact hj
  · obtain ⟨later, e, earlier, before, after, hsplit, -, hcs, -, rfl⟩ := id hj
    have he : e ∈ w.tried := by
      rw [hsplit]
      exact List.mem_append_right _ List.mem_cons_self
    rw [← hplace e he before.length (by rw [hcs]; simp)]
    exact htag _ hj

/-- A shorter definition by the same first constructor does no harm. -/
theorem tag_eq_place_shortened :
    let t : Handle := ⟨⟨1, "T"⟩⟩
    let a : Ctor := ⟨⟨2, "A"⟩, [], t⟩
    let w := ((({} : Workspace).perform (.mint 1)).perform
      (.defineData 0 t [] [("A", []), ("B", [])])).perform (.define t [] [a])
    w.Reached ∧ w.session.marks.tag? a.serial = some 0 := by
  intro t a w
  have hw : w.Reached := .act (.act (.act (.start {}) trivial) trivial)
    (List.forall_mem_singleton.2 List.mem_cons_self)
  refine ⟨hw, (hw.tag_eq_place (k := 0) (a := t) rfl (i := 0) (c := a) rfl).2.2 ?_⟩
  intro e he j hj
  have hserial : (e.tagged.map fun c => c.serial)[j]? = some 2 := by
    rw [List.getElem?_map, hj]
    rfl
  have htried : w.tried.map (fun e => e.tagged.map fun c => c.serial) = [[2], [2, 3]] := rfl
  have hmem : (e.tagged.map fun c => c.serial) ∈ [[2], [2, 3]] :=
    htried ▸ List.mem_map_of_mem he
  rw [List.mem_cons, List.mem_singleton] at hmem
  rcases hmem with heq | heq <;> rw [heq] at hserial <;> rcases j with _ | _ | j <;>
    simp at hserial ⊢

/-- A second definition by the constructors of a registered data type, in another order. It is
refused for its name, but their tags have changed. -/
theorem tag_ne_place_reordered :
    let t : Handle := ⟨⟨1, "T"⟩⟩
    let a : Ctor := ⟨⟨2, "A"⟩, [], t⟩
    let b : Ctor := ⟨⟨3, "B"⟩, [], t⟩
    let w := (((({} : Workspace).perform (.mint 1)).perform
      (.defineData 0 t [] [("A", []), ("B", [])])).perform (.define t [] [b, a])).perform
      (.addData 0 ⟨t, [], [b, a]⟩)
    w.Reached ∧ (w.modules 0).dataTypes.get? t = some ⟨t, [], [a, b]⟩ ∧
      w.session.marks.tag? a.serial = some 1 ∧ w.session.marks.tag? b.serial = some 0 := by
  intro t a b w
  refine ⟨.act (.act (.act (.act (.start {}) trivial) trivial) ?_) ?_, rfl, rfl, rfl⟩
  · exact List.forall_mem_cons.2
      ⟨List.mem_cons_of_mem _ List.mem_cons_self, List.forall_mem_singleton.2 List.mem_cons_self⟩
  · exact ⟨List.mem_cons_self, List.forall_mem_cons.2 ⟨rfl, List.forall_mem_singleton.2 rfl⟩⟩

end Workspace

end TensorTyping
