import TensorTyping.Proofs.Relation.Concatenation

/-!
# The order of the fields of a concatenation

Concatenation holds if every tensor fits the first one. A named size fits every other, so two tensors
that fit the first need not fit each other, and with another one in front the verdict may be another.
The order makes no difference exactly if all tensors fit each other as soon as all of them fit one
(`concatenate_order`). That is so if no two known sizes differ in a place where some tensor has a
named one.
-/
namespace TensorTyping

namespace Verdict

/-- Two verdicts are the same but for the type that is concluded. -/
def Like : Verdict → Verdict → Prop
  | .holds i _, .holds j _ => i = j
  | .fails, .fails => True
  | .indeterminate, .indeterminate => True
  | _, _ => False

end Verdict

namespace Rule

variable {axis : Value} {y z w : Shape × String}

theorem agree_of_agree {c d e : Dim} (hd : c.agree d = true) (he : c.agree e = true)
    (hnamed : ∀ name, c = .named name → ∀ m n, d = .known m → e = .known n → m = n) :
    d.agree e = true := by
  cases d with
  | named _ => rfl
  | known m =>
    cases e with
    | named _ => rfl
    | known n =>
      cases c with
      | known k =>
        obtain rfl := eq_of_beq hd
        exact he
      | named name => exact beq_iff_eq.2 (hnamed name rfl m n rfl rfl)

/-- Two tensors that fit a third fit each other, unless a named size of the third keeps two known ones
apart. -/
theorem Fits.of_leader (hz : Fits axis y z) (hw : Fits axis y w)
    (hnames : ∀ a i name, axis? y.1.length axis = some a → i ≠ a → y.1[i]? = some (.named name) →
      ∀ m n, z.1[i]? = some (.known m) → w.1[i]? = some (.known n) → m = n) : Fits axis z w := by
  obtain ⟨hzt, hzr, a, ha, hzd⟩ := hz
  obtain ⟨hwt, hwr, b, hb, hwd⟩ := hw
  obtain rfl := Option.some.inj (ha.symm.trans hb)
  refine ⟨hzt.symm.trans hwt, hzr.symm.trans hwr, a, hzr ▸ ha, fun i d e hi hd he => ?_⟩
  have hlt : i < y.1.length := hzr ▸ (List.getElem?_eq_some_iff.1 hd).1
  have hc := List.getElem?_eq_getElem hlt
  refine agree_of_agree (hzd i _ d hi hc hd) (hwd i _ e hi hc he) ?_
  rintro name hname m n rfl rfl
  exact hnames a i name ha hi (hc.trans (congrArg some hname)) m n hd he

/-- The order of the tensors makes no difference, and the verdict holds only if every two of them fit,
exactly if all fit each other as soon as all fit one. That is so if known sizes in one place off the
axis are the same wherever one of the tensors has a named size there. -/
theorem concatenate_order (x : Shape × String) (xs : List (Shape × String)) (attrs : Attrs)
    (out : Ty) :
    let verdict (ys : List (Shape × String)) :=
      concatenate.verdict [.tuple (ys.map tensorOf), out] attrs
    let axis := (attrs.get? "axis").getD (.int 0)
    let fields := x :: xs
    let pairwise := ∀ y ∈ fields, ∀ z ∈ fields, Fits axis y z
    ((∀ ys, ys.Perm fields → ∃ v w, verdict ys = .ok v ∧ verdict fields = .ok w ∧ v.Like w) ∧
        ((∃ t, verdict fields = .ok (.holds 1 t)) → pairwise) ↔
      ((∃ y ∈ fields, ∀ z ∈ fields, Fits axis y z) → pairwise)) ∧
    ((∀ y ∈ fields, ∀ a i name, axis? y.1.length axis = some a → i ≠ a →
        y.1[i]? = some (.named name) → ∀ z ∈ fields, ∀ w ∈ fields, ∀ m n,
          z.1[i]? = some (.known m) → w.1[i]? = some (.known n) → m = n) →
      (∃ y ∈ fields, ∀ z ∈ fields, Fits axis y z) → pairwise) := by
  intro verdict axis fields pairwise
  refine ⟨⟨?_, fun hall => ⟨fun ys hys => ?_, ?_⟩⟩, ?_⟩
  · rintro ⟨hsame, hpairwise⟩ ⟨y, hy, hfits⟩
    -- The tensor that all others fit is put in front.
    have hperm : (y :: fields.erase y).Perm fields := (List.perm_cons_erase hy).symm
    obtain ⟨v, w, hv, hw, hlike⟩ := hsame _ hperm
    rcases concatenate_verdict y (fields.erase y) attrs out with ⟨t, ht, -⟩ | ⟨-, hnot⟩
    · obtain rfl := Except.ok.inj (hv.symm.trans ht)
      cases w with
      | holds i u =>
        cases hlike
        exact hpairwise ⟨u, hw⟩
      | _ => exact hlike.elim
    · exact absurd (fun z hz => hfits z (hperm.mem_iff.1 hz)) hnot
  · have hne : ys ≠ [] := by
      rintro rfl
      simp [fields] at hys
    obtain ⟨y, rest, rfl⟩ := List.exists_cons_of_ne_nil hne
    rcases concatenate_verdict y rest attrs out with ⟨t, ht, hy⟩ | ⟨ht, hy⟩ <;>
      rcases concatenate_verdict x xs attrs out with ⟨u, hu, hx⟩ | ⟨hu, hx⟩
    · exact ⟨_, _, ht, hu, rfl⟩
    · exact absurd (hall ⟨y, hys.mem_iff.1 List.mem_cons_self, fun z hz => hy z (hys.mem_iff.2 hz)⟩ x
        List.mem_cons_self) hx
    · refine absurd (fun z hz => ?_) hy
      exact hall ⟨x, List.mem_cons_self, hx⟩ y (hys.mem_iff.1 List.mem_cons_self) z (hys.mem_iff.1 hz)
    · exact ⟨_, _, ht, hu, trivial⟩
  · rintro ⟨t, ht⟩
    rcases concatenate_verdict x xs attrs out with ⟨u, hu, hx⟩ | ⟨hu, -⟩
    · exact hall ⟨x, List.mem_cons_self, hx⟩
    · cases ht.symm.trans hu
  · rintro hnames ⟨y, hy, hfits⟩ z hz w hw
    exact (hfits z hz).of_leader (hfits w hw) fun a i name ha hi hname m n =>
      hnames y hy a i name ha hi hname z hz w hw m n

theorem concatenate_unordered :
    let f (n : Dim) : Shape × String := ([n, .known 2], "float32")
    let verdict (ys : List (Shape × String)) :=
      concatenate.verdict [.tuple (ys.map tensorOf), .tuple []] (.ofList [("axis", .int 1)])
    verdict [f (.named "n"), f (.known 3), f (.known 4)] =
        .ok (.holds 1 (.tensor [.named "n", .known 6] "float32")) ∧
      verdict [f (.known 3), f (.named "n"), f (.known 4)] = .ok .fails :=
  ⟨rfl, rfl⟩

end Rule

end TensorTyping
