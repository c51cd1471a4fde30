import TensorTyping.Proofs.Issue
import TensorTyping.Proofs.Outcomes
import TensorTyping.Proofs.Unify.MostGeneral

/-!
# How unification stops

Unification of two types that belong to the store succeeds, or stops with an issue that blames the
phrase it was given and shows two types of the store. It keeps within what is known of the two
types (`unify_ends`).
-/
namespace TensorTyping

namespace Store

variable {s s' : Store} {t : Ty}

theorem Kept.ownsAll (h : s.Kept s') (ht : s.ownsAll t = true) : s'.ownsAll t = true := by
  rw [h.view.ownsAll_eq]
  exact ht

/-- The fault is an issue that can be shown with the store. -/
def Blames (s : Store) (phrase : Phrase → Prop) (f : Fault) : Prop :=
  ∃ i, f = .issue i ∧ i.Shown phrase s

theorem blames_of_site {phrase : Phrase → Prop} {site : Phrase} {i : Issue} (hsite : phrase site)
    (hi : i.site = some site) (howned : ∀ t ∈ Evidence.typesList i.evidence, s.ownsAll t = true)
    (hfits : i.Fits) : s.Blames phrase (.issue i) :=
  ⟨i, rfl, ⟨site, hi, hsite⟩, howned, hfits⟩

end Store

namespace StoreM

open Store

variable {s : Store} {x y : Ty} {phrase : Phrase → Prop} {site : Phrase}
variable {t : Ty} {E : Fault → Store → Prop} {kind : IssueKind}

theorem find_ends (h : s.Valid) (ht : s.ownsAll t = true) :
    Ends (find t) s (fun u s' => u = s.top t ∧ s.Kept s') E := by
  obtain ⟨s', hrun, hkept⟩ := find_ok h (ownsTop_of_ownsAll ht)
  exact .of_eq_ok hrun ⟨rfl, hkept⟩

theorem resolve_ends (h : s.Valid) (ht : s.ownsAll t = true) :
    Ends (resolve t) s (fun u s' => u = s.resolve t ∧ s.Kept s') E := by
  obtain ⟨s', hrun, hkept⟩ := resolve_ok h ht
  exact .of_eq_ok hrun ⟨rfl, hkept⟩

theorem shown_of_pair (hsite : phrase site) (hx : s.ownsAll x = true) (hy : s.ownsAll y = true)
    (hkind : Text.holes kind.sentence.toList = some 2) :
    s.Blames phrase (.issue { kind, evidence := [.type x, .type y], site := some site }) := by
  apply blames_of_site hsite rfl
  · simpa using ⟨hx, hy⟩
  · exact Issue.fits_of_holes 2 hkind rfl

theorem kind_of_parts (h : Ty.parts x y = .error kind) :
    Text.holes kind.sentence.toList = some 2 := by
  have hkinds : ∀ k ∈ IssueKind.ofUnification, Text.holes k.sentence.toList = some 2 := by
    decide +kernel
  exact hkinds kind (Ty.kind_mem_of_parts h)

theorem unifyPair_blames {s' : Store} {f : Fault} (h : s.Valid) (hsite : phrase site)
    (hx : s.ownsAll x = true) (hy : s.ownsAll y = true)
    (hrun : unifyPair (some site) x y s = .error f s') : s'.Blames phrase f := by
  have htx := h.ownsAll_top hx
  have hty := h.ownsAll_top hy
  cases unifyPair_cases h hrun with
  | foreign hof => simp [hx, hy] at hof
  | occurs hru _ _ hk =>
    rcases hru with ⟨hr, rfl⟩ | ⟨hr, rfl⟩
    · exact shown_of_pair hsite (hk.ownsAll (hr ▸ htx)) (hk.ownsAll hty) (by cbv)
    · exact shown_of_pair hsite (hk.ownsAll (hr ▸ hty)) (hk.ownsAll htx) (by cbv)
  | mismatch _ _ _ hparts huv hk =>
    rcases huv with ⟨rfl, rfl⟩ | ⟨rfl, rfl⟩
    · exact shown_of_pair hsite (hk.ownsAll htx) (hk.ownsAll hty) (kind_of_parts hparts)
    · exact shown_of_pair hsite (hk.ownsAll (h.ownsAll_resolve htx))
        (hk.ownsAll (h.ownsAll_resolve hty)) (kind_of_parts hparts)

/-- Types that belong to the store are unified, or the site is blamed. -/
theorem unify_ends {q : Ty → Prop} (hq : Ty.Steady q) {a b : Ty} (h : s.Valid)
    (hsite : phrase site) (ha : s.ownsAll a = true) (hb : s.ownsAll b = true) (hqa : s.Holds q a)
    (hqb : s.Holds q b) :
    Ends (unify a b (some site)) s (fun _ s' => s.Evolves s' ∧ s.Within q s')
      fun f s' => s'.Blames phrase f := by
  have hends := (upkeep_owned fun h hx hy hrun => unifyPair_blames h hsite hx hy hrun).run h ⟨ha, hb⟩
  exact ⟨fun hrun => ⟨hends.of_ok hrun, unify_within hq h hqa hqb hrun⟩,
    fun hrun => (hends.of_error hrun).2⟩

end StoreM

end TensorTyping
