import TensorTyping.Proofs.Engine.Trials
import TensorTyping.Proofs.Relation.Conclusions

/-!
# Settings that rules can work with

With as many types as a relation takes, the rules of the standard registry come to a verdict on any
settings, but for two of them. A projection wants an index that is a whole number, and reports one
that is out of range. An expansion compares numbers before it uses them, so it may refuse settings
that it could not use, but it stops with a fault on others.
-/
namespace TensorTyping

namespace Rule

variable {types : List Ty} {attrs : Attrs} {rule : Rule}

/-- What a rule has to find among the settings of a use. -/
def Reads (rule : Rule) (attrs : Attrs) : Prop :=
  match rule with
  | .expandDims => ((attrs.get? "axis").getD (.int 0)).isWhole ∧
      ((attrs.get? "num_newaxis").getD (.int 1)).isCount rankLimit
  | .projection => ∃ index, attrs.get? "index" = some index ∧ index.isWhole
  | _ => True

theorem Answerable.of_whole {rank : Nat} {axis count : Value} (haxis : axis.isWhole)
    (hcount : count.isCount rankLimit) : Answerable rank axis count := by
  obtain ⟨a, ha⟩ := haxis
  obtain ⟨c, hc, hle⟩ := hcount
  exact ⟨_, Value.numeral?_of_int? ha, fun _ =>
    ⟨_, Value.numeral?_of_int? hc, fun _ => ⟨⟨a, ha⟩, c, hc, hle⟩⟩⟩

theorem verdict_error {f : Fault} (htypes : rule.target < types.length)
    (hattrs : rule.Reads attrs) (h : rule.verdict types attrs = .error f) : OutOfRange types f := by
  have hstops := (conclude_ends rule types attrs).of_fault (verdict_eq_error.1 h) htypes
  cases rule with
  | expandDims =>
    obtain ⟨s, d, -, hnot⟩ := hstops
    exact absurd (.of_whole hattrs.1 hattrs.2) hnot
  | projection => exact hstops hattrs
  | _ => exact hstops.elim

/-- The settings can be worked with if the rule is to expand a tensor. -/
def Expandable (rule : Rule) (types : List Ty) (attrs : Attrs) : Prop :=
  rule = .expandDims → ∀ s d, types[0]? = some (.tensor s d) →
    Answerable s.length ((attrs.get? "axis").getD (.int 0))
      ((attrs.get? "num_newaxis").getD (.int 1))

theorem expandable_of_verdict {v : Verdict} (h : rule.verdict types attrs = .ok v) :
    Expandable rule types attrs := by
  rintro rfl s d hs
  obtain ⟨-, f, hf⟩ | ⟨hanswer, -⟩ := expand_cases s ((attrs.get? "axis").getD (.int 0))
    ((attrs.get? "num_newaxis").getD (.int 1))
  · have hslot : tensorSlot types 0 = .ok (s, d) := by
      unfold tensorSlot slot
      rw [hs]
      rfl
    have hfault : expandDims.conclude types attrs = .error (.fault f) := by
      unfold conclude
      simp only [hslot, bind, Except.bind, hf]
    cases h.symm.trans (verdict_eq_error.2 hfault)
  · exact hanswer

theorem exists_verdict_iff (htypes : rule.target < types.length) (hrule : rule ≠ .projection) :
    (∃ v, rule.verdict types attrs = .ok v) ↔ Expandable rule types attrs := by
  constructor
  · rintro ⟨v, hv⟩
    exact expandable_of_verdict hv
  · intro h
    cases hv : rule.verdict types attrs with
    | ok v => exact ⟨v, rfl⟩
    | error f =>
      have hstops := (conclude_ends rule types attrs).of_fault (verdict_eq_error.1 hv) htypes
      cases rule with
      | expandDims =>
        obtain ⟨s, d, hs, hnot⟩ := hstops
        exact absurd (h rfl s d hs) hnot
      | projection => exact absurd rfl hrule
      | _ => exact hstops.elim

end Rule

namespace EngineM

/-- A relation other than a projection, with as many types as it takes, comes to a verdict on any
settings, unless it is to expand a tensor and cannot work with them. What it concludes is a tensor
type for its last slot, and what it refuses is reported as a violation of the relation. A fault of a
rule goes past the engine as it is. -/
theorem settings_decided {name : String} {site : Option Phrase} {entry : RelationEntry}
    {types : List Ty} (hentry : Registry.standard.lookup name site = .ok entry)
    (hname : name ≠ "TupleGetItem") (harity : entry.arity = some (types.length : Int))
    (attrs : Attrs) :
    ((∃ v, entry.rule.verdict types attrs = .ok v ∧ ∀ slot t, v = .holds slot t →
        slot + 1 = types.length ∧ ∃ s d, t = .tensor s d) ↔
      entry.rule.Expandable types attrs) ∧
    ∀ (e : Engine) (i : Instance), e.store.Valid →
      i.relation.name = name → i.origin = site → i.attrs = attrs →
      (∀ a ∈ i.relation.args, e.store.ownsAll a = true) →
      i.relation.args.map e.store.resolve = types →
      (entry.rule.verdict types attrs = .ok .fails → ∃ issue e',
        attempt .standard i e = .error (.issue issue) e' ∧ issue.kind = .relationViolation) ∧
      ∀ f, entry.rule.verdict types attrs = .error f → ∃ e',
        attempt .standard i e = .error (f.blame site) e' := by
  obtain ⟨hlast, hprojection⟩ := Registry.standard_entry (Registry.lookup_eq_ok.1 hentry)
  rw [harity, Option.some.injEq] at hlast
  have hrule : entry.rule ≠ .projection := fun h => hname (hprojection h)
  refine ⟨?_, ?_⟩
  · rw [← Rule.exists_verdict_iff (by omega) hrule]
    refine exists_congr fun v => and_iff_left_of_imp ?_
    rintro hv slot t rfl
    obtain ⟨hc, rfl⟩ := Rule.verdict_eq_holds.1 hv
    refine ⟨by omega, ?_⟩
    rcases (Rule.conclude_ends entry.rule types attrs).of_ok hc with ⟨s, d, rfl, -⟩ | ⟨hp, -⟩
    · exact ⟨s, d, rfl⟩
    · exact absurd hp hrule
  · rintro e i h rfl rfl rfl howned rfl
    refine ⟨fun hv => ?_, fun f hv => ?_⟩
    · obtain ⟨issue, e', hrun, hkind, -⟩ := attempt_of_fails h hentry howned hv
      exact ⟨issue, e', hrun, hkind⟩
    · obtain ⟨e₁, hrun, -⟩ := resolveAll_ok h howned
      refine ⟨e₁, ?_⟩
      rw [attempt_eq, bind_of_ok (ofExcept_eq_ok.2 ⟨hentry, rfl⟩), bind_of_ok hrun]
      have hblame : blaming i.origin
          (ofExcept (entry.rule.verdict (i.relation.args.map e.store.resolve) i.attrs)) e₁ =
          .error (f.blame i.origin) e₁ := by
        rw [hv]
        rfl
      exact bind_of_error hblame

/-- Expansion counts an axis from the end, but it does not get over one that is a list. -/
theorem settings_decided_expansion :
    let slots : List Ty := [.tensor [.known 2] "int32", .cell ⟨1, 0⟩]
    Registry.standard.lookup "ExpandDims" none = .ok ⟨.expandDims, some 2⟩ ∧
      (∃ v, Rule.expandDims.verdict slots (.ofList [("axis", .int (-1))]) = .ok v ∧
        ∀ slot t, v = .holds slot t → slot + 1 = 2 ∧ ∃ s d, t = .tensor s d) ∧
      ¬ ∃ v, Rule.expandDims.verdict slots (.ofList [("axis", .list [])]) = .ok v ∧
        ∀ slot t, v = .holds slot t → slot + 1 = 2 ∧ ∃ s d, t = .tensor s d := by
  intro slots
  have hentry : Registry.standard.lookup "ExpandDims" none = .ok ⟨.expandDims, some 2⟩ := rfl
  have hlength : some (2 : Int) = some (slots.length : Int) := rfl
  have hdecided := fun attrs => (settings_decided hentry (by decide) hlength attrs).1
  refine ⟨hentry, (hdecided _).2 ?_, fun h => ?_⟩
  · rintro - s d -
    exact .of_whole ⟨-1, rfl⟩ ⟨1, rfl, by decide⟩
  · obtain ⟨a, ha, -⟩ := (hdecided _).1 h rfl _ _ rfl
    cases ha

/-- An axis that is no number at all is not refused: the rule to expand a tensor stops with a fault
that is no issue. -/
theorem unfit_axis_not_refused :
    Registry.standard.lookup "ExpandDims" none = .ok ⟨.expandDims, some 2⟩ ∧
      Rule.expandDims.verdict [.tensor [.known 2] "int32", .cell ⟨1, 0⟩]
        (.ofList [("axis", .null)]) = .error .unfitAttribute := ⟨rfl, rfl⟩

end EngineM

end TensorTyping
