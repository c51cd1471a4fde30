import TensorTyping.Proofs.Inference.Consistency
import TensorTyping.Proofs.Inference.RunConduct
import TensorTyping.Proofs.Relation.Faults
import TensorTyping.Proofs.Ty.Constituents

/-!
# What checking a module reports

Checking a module comes to the end of it without a problem, or it reports one problem and says where
in the module it is. This takes that the settings which rules read are whole numbers, and that no
tensor is to be given more dimensions than can be held: a greater number stops the work without a
report.
-/
namespace TensorTyping

open List

variable {name : String} {entry : RelationEntry} {s : Store}

namespace Attrs

/-- Settings that every rule can work with. -/
def Usable (a : Attrs) : Prop :=
  ∀ e ∈ a.entries, (e.1 = "axis" → e.2.isWhole) ∧
    (e.1 = "num_newaxis" → e.2.isCount Rule.rankLimit) ∧ (e.1 = "index" → e.2.isWhole)

instance (a : Attrs) : Decidable a.Usable :=
  inferInstanceAs (Decidable (∀ e ∈ a.entries, _ ∧ _ ∧ _))

theorem mem_entries_of_get? {a : Attrs} {v : Value} (h : a.get? name = some v) :
    (name, v) ∈ a.entries := by
  obtain ⟨entries⟩ := a
  unfold get? at h
  induction entries with
  | nil => cases h
  | cons e entries ih =>
    obtain ⟨n, w⟩ := e
    rw [lookup_cons] at h
    split at h
    · next hn =>
      cases h
      rw [LawfulBEq.eq_of_beq hn]
      exact .head _
    · exact .tail _ (ih h)

theorem get?_merge (a b : Attrs) (name : String) :
    (∀ v, (a.merge b).get? name = some v → a.get? name = some v ∨ (name, v) ∈ b.entries) ∧
      ((a.get? name).isSome = true → ((a.merge b).get? name).isSome = true) := by
  obtain ⟨entries⟩ := b
  unfold merge
  induction entries generalizing a with
  | nil => exact ⟨fun v hv => .inl hv, id⟩
  | cons e entries ih =>
    obtain ⟨hcases, hsome⟩ := ih (a.insert e.1 e.2)
    constructor
    · intro v hv
      rcases hcases v hv with h | h
      · rw [get?_insert] at h
        split at h
        · next hname =>
          cases h
          rw [hname]
          exact .inr (.head _)
        · exact .inl h
      · exact .inr (.tail _ h)
    · intro h
      apply hsome
      rw [get?_insert]
      split
      · rfl
      · exact h

end Attrs

/-- Settings that the rules can work with, and an index if the relation is that of projections. -/
def TypeRelation.Usable (r : TypeRelation) : Prop :=
  r.attrs.Usable ∧ (r.name = "TupleGetItem" → (r.attrs.get? "index").isSome = true)

instance (r : TypeRelation) : Decidable r.Usable := inferInstanceAs (Decidable (_ ∧ _))

namespace Rule

variable {rule : Rule} {a b : Attrs}

theorem Reads.of_usable (ha : a.Usable)
    (hindex : rule = .projection → (a.get? "index").isSome = true) : rule.Reads a := by
  have hwhole {v : Value} (h : a.get? "axis" = some v) : v.isWhole :=
    (ha _ (Attrs.mem_entries_of_get? h)).1 rfl
  cases rule with
  | expandDims =>
    constructor
    · cases h : a.get? "axis" with
      | none => exact ⟨0, rfl⟩
      | some v => exact hwhole h
    · cases h : a.get? "num_newaxis" with
      | none => exact ⟨1, rfl, by decide⟩
      | some v => exact (ha _ (Attrs.mem_entries_of_get? h)).2.1 rfl
  | projection =>
    obtain ⟨v, hv⟩ := Option.isSome_iff_exists.1 (hindex rfl)
    exact ⟨v, hv, (ha _ (Attrs.mem_entries_of_get? hv)).2.2 rfl⟩
  | _ => trivial

theorem Reads.merge (ha : rule.Reads a) (hb : b.Usable) : rule.Reads (a.merge b) := by
  cases rule with
  | expandDims =>
    constructor
    · cases h : (a.merge b).get? "axis" with
      | none => exact ⟨0, rfl⟩
      | some v =>
        rcases (Attrs.get?_merge a b "axis").1 v h with h | h
        · have haxis := ha.1
          rwa [h] at haxis
        · exact (hb _ h).1 rfl
    · cases h : (a.merge b).get? "num_newaxis" with
      | none => exact ⟨1, rfl, by decide⟩
      | some v =>
        rcases (Attrs.get?_merge a b "num_newaxis").1 v h with h | h
        · have hcount := ha.2
          rwa [h] at hcount
        · exact (hb _ h).2.1 rfl
  | projection =>
    obtain ⟨w, hw, hwhole⟩ := ha
    obtain ⟨hcases, hsome⟩ := Attrs.get?_merge a b "index"
    obtain ⟨v, hv⟩ := Option.isSome_iff_exists.1 (hsome (by rw [hw]; rfl))
    refine ⟨v, hv, ?_⟩
    rcases hcases v hv with h | h
    · rw [hw] at h
      cases h
      exact hwhole
    · exact (hb _ h).2.2 rfl
  | _ => trivial

end Rule

/-- A standard relation has as many slots as its rule needs, and only projections are read off by
their index. -/
theorem TypeRelation.Usable.reads {r : TypeRelation} (h : r.Usable)
    (hentry : Registry.standard.table.get? r.name = some entry) : entry.rule.Reads r.attrs := by
  apply Rule.Reads.of_usable h.1
  exact fun hrule => h.2 ((Registry.standard_entry hentry).2 hrule)

namespace Discipline

open Inference

/-- Every rule can work with the settings of its uses, and an issue is shown at one of the phrases
given. -/
def reporting (phrase : Phrase → Prop) : Discipline where
  part t := ∀ r ∈ t.relations, ∀ entry,
    Registry.standard.table.get? r.name = some entry → entry.rule.Reads r.attrs
  phrase := phrase
  setting name attrs := ∀ entry,
    Registry.standard.table.get? name = some entry → entry.rule.Reads attrs
  added := Attrs.Usable
  stops f s := s.Blames phrase f

variable {phrase : Phrase → Prop}

theorem reporting_rules {attrs : Attrs} {types : List Ty} {f : Fault} {site : Phrase}
    (hentry : Registry.standard.table.get? name = some entry)
    (harity : ∀ n, entry.arity = some n → n = types.length)
    (hattrs : (reporting phrase).setting name attrs) (howned : ∀ t ∈ types, s.ownsAll t = true)
    (hsite : phrase site) (h : entry.rule.verdict types attrs = .error f) :
    s.Blames phrase (f.blame (some site)) := by
  have hlength := harity _ (Registry.standard_entry hentry).1
  have htarget : entry.rule.target < types.length := by omega
  obtain ⟨index, ts, hts, rfl⟩ := Rule.verdict_error htarget (hattrs entry hentry) h
  apply Store.blames_of_site hsite rfl
  · intro t ht
    have heq : t = .tuple ts := by simpa [Issue.blame] using ht
    rw [heq]
    exact howned _ hts
  · exact Issue.fits_of_holes 2 (by cbv) rfl

theorem reporting_coherent (phrase : Phrase → Prop) : (reporting phrase).Coherent .standard where
  tensor _ _ r hr := absurd hr not_mem_nil
  param _ r hr := absurd hr not_mem_nil
  tuple _ r hr := absurd hr not_mem_nil
  data _ _ r hr := absurd hr not_mem_nil
  func _ _ _ h := h
  relations h := h
  mapChildren_iff h t := by
    cases t with
    | func as r ps rs =>
      constructor
      · intro hpart x hx
        exact hpart { x with args := x.args.map h } (mem_map_of_mem hx)
      · intro hpart y hy
        obtain ⟨x, hx, rfl⟩ := mem_map.1 hy
        exact hpart x hx
    | _ => exact Iff.rfl
  merge ha hb entry hentry := (ha entry hentry).merge hb
  plain _ he := absurd he not_mem_nil
  index i entry hentry := by
    cases hentry
    refine ⟨i.toValue, rfl, ?_⟩
    cases i with
    | int n => exact ⟨n, rfl⟩
    | bool b => exact ⟨_, rfl⟩
  blames h := h
  blame site := by
    rintro ⟨i, rfl, hi⟩
    exact ⟨i, congrArg Fault.issue (hi.blame site), hi⟩
  rules hentry harity hattrs howned hsite h :=
    reporting_rules hentry harity hattrs howned hsite h
  slots hentry harity hn := by
    have hlength := harity _ (Registry.standard_entry hentry).1
    omega

theorem reporting_operators (supply : Supply) {sig : Signature}
    (h : (Operators.standard supply).1.table.get? name = some sig) :
    (reporting phrase).AllowsSignature sig := by
  have hfamilies : ∀ f ∈ Operators.families, f.relation ≠ "TupleGetItem" ∧
      (f.relation = "Reduce" ∨ f.attrs.Usable) := by decide
  have hsetting : ∀ f ∈ Operators.families, (reporting phrase).setting f.relation f.attrs := by
    intro f hf
    obtain ⟨hne, hreduce | husable⟩ := hfamilies f hf
    · rw [hreduce]
      intro entry hentry
      cases hentry
      trivial
    · intro entry hentry
      have hr : TypeRelation.Usable ⟨f.relation, [], 0, f.attrs⟩ :=
        ⟨husable, fun h => absurd h hne⟩
      exact hr.reads hentry
  exact allows_standard (reporting_coherent phrase) hsetting supply h

end Discipline

namespace Inference

/-- What is written in a module is such that every problem with it can be reported: types hold no
cells, constants have proper dimensions, and the settings of calls and relations are usable. -/
@[mk_iff]
structure Presentable (m : Module) : Prop where
  cells : ∀ f ∈ m.functions.values, ∀ d ∈ f.toExpr.parts, ∀ t ∈ d.written, t.cellOccurrences = []
  constants : ∀ f ∈ m.functions.values, ∀ d ∈ f.toExpr.parts, ∀ c ∈ d.literal?,
    (Ty.ofEntries c.shape c.dtype).isOk = true
  calls : ∀ f ∈ m.functions.values, ∀ d ∈ f.toExpr.parts, ∀ attrs ∈ d.settings?, attrs.Usable
  relations : ∀ f ∈ m.functions.values, ∀ d ∈ f.toExpr.parts, ∀ r ∈ d.relations, r.Usable
  types : ∀ f ∈ m.functions.values, ∀ d ∈ f.toExpr.parts, ∀ t ∈ d.written,
    ∀ u ∈ t.constituents, ∀ r ∈ u.relations, r.Usable

instance (m : Module) : Decidable (Presentable m) :=
  decidable_of_iff _ (presentable_iff m).symm

/-- A phrase that occurs in a function of the module. -/
def Occurs (m : Module) (p : Phrase) : Prop := ∃ f ∈ m.functions.values, p ∈ f.toExpr.phrases

section

variable {m : Module} (h : Presentable m)
variable {d : Expr}
include h

theorem Presentable.everywhere {f : Function} (hf : f ∈ m.functions.values)
    (hd : d ∈ f.toExpr.parts) {t : Ty} (ht : t ∈ d.written) :
    Ty.Everywhere (Discipline.reporting (Occurs m)).part t :=
  Ty.everywhere_iff_constituents.2 fun u hu r hr _ hentry =>
    (h.types f hf d hd t ht u hu r hr).reads hentry

theorem Presentable.builds {f : Function} (hf : f ∈ m.functions.values) (hd : d ∈ f.toExpr.parts) :
    Builds (Discipline.reporting (Occurs m)).part d := by
  apply Builds.of_written
  · exact fun _ _ r hr => absurd hr not_mem_nil
  · exact fun _ _ r hr _ hentry => (h.relations f hf d hd r hr).reads hentry
  · exact fun t ht => h.everywhere hf hd ht

theorem Presentable.admits {f : Function} (hf : f ∈ m.functions.values) :
    (Discipline.reporting (Occurs m)).Admits f.toExpr where
  neat :=
    { written d hd t ht := ⟨h.everywhere hf hd ht, h.cells f hf d hd t ht⟩
      builds c hc d hd := h.builds hf (Expr.parts_of_child hc hd) }
  settings d hd attrs hattrs := h.calls f hf d hd attrs hattrs
  relations d hd r hr _ hentry := (h.relations f hf d hd r hr).reads hentry
  literals d hd c hc e he := by
    have hok := h.constants f hf d hd c hc
    rw [he] at hok
    cases hok
  phrases p hp := ⟨f, hf, hp⟩

theorem Presentable.suits (supply : Supply) (verbose : Bool) :
    (Discipline.reporting (Occurs m)).Suits (.standard m supply verbose) where
  coherent := Discipline.reporting_coherent _
  operators _ _ hsig := Discipline.reporting_operators supply hsig
  functions _ _ hf := h.admits (Table.mem_values_of_get? hf)
  builds _ _ hf _ := h.builds (Table.mem_values_of_get? hf) (Expr.self_mem_parts _)

end

/-- An issue that can be shown is filed, and the work goes on unless the limit is reached. -/
theorem fileIssue_shown {phrase : Phrase → Prop} {i : Issue} (h : i.Shown phrase s)
    {report : Report} (hfresh : report.notices = []) (hlimit : report.limit ≠ some 1) :
    ∃ text, Report.sentence i (some s) = .ok text ∧
      report.fileIssue i (some s) = ({ report with notices := [.ofIssue i text] }, none) := by
  obtain ⟨text, htext⟩ := h.sentence
  refine ⟨text, htext, ?_⟩
  unfold Report.fileIssue
  simp only [htext, Report.file, hfresh, nil_append, length_singleton]
  exact congrArg (Prod.mk _) (if_neg hlimit)

namespace Overreach

def f : Global := ⟨⟨1, "f"⟩⟩

def x : Var := ⟨⟨2, "x"⟩, none⟩

/-- The body of `f` is `expand_dims((x, x).2, num_newaxis)`: there is no such field. -/
def bodyOfF : Function where
  node := 3
  params := [x]
  body := .call 4 (.op 5 "expand_dims") [.proj 6 (.tuple 7 [.var x, .var x]) (.int 2)] none
    (.ofList [("num_newaxis", .int 2)])

def module : Module where
  functions := ⟨[(f, bodyOfF)]⟩

def g : Global := ⟨⟨8, "g"⟩⟩

/-- The body of `g` is `expand_dims(1, num_newaxis)` with a number that is no length. -/
def bodyOfG : Function where
  node := 9
  params := []
  body := .call 10 (.op 11 "expand_dims") [.constant 12 ⟨"int32", [], .int 1⟩] none
    (.ofList [("num_newaxis", .int 9223372036854775808)])

def huge : Module where
  functions := ⟨[(g, bodyOfG)]⟩

def session : Session := { supply := ⟨200⟩ }

end Overreach

end Inference

end TensorTyping
