import TensorTyping.Proofs.Expr.Parts
import TensorTyping.Proofs.Module.Groups

/-!
# Adding definitions

Definitions are added at the end of a module and never in place of others, since a name can be
defined only once. So the functions and data types of a module stand in front of those that are
added to it (`addAll_extends`).

If nothing in the module refers to the added functions, the search for groups does with the larger
graph what it did with the smaller one before it comes to the first added function. So the groups
of the module are found again, in front of the groups of the added functions
(`groups_of_extends`).
-/
namespace TensorTyping

open List

namespace Table

variable {κ α : Type} [DecidableEq κ]
variable {t : Table κ α} {k : κ}

theorem contains_iff_mem_keys : t.contains k = true ↔ k ∈ t.keys := by
  rw [contains, get?, ← Option.ne_none_iff_isSome, Ne, lookup_eq_none_iff, keys]
  constructor
  · intro h
    by_contra hk
    refine h fun e he => ?_
    rw [bne_iff_ne]
    rintro rfl
    exact hk (mem_map_of_mem he)
  · intro hk h
    obtain ⟨e, he, rfl⟩ := mem_map.1 hk
    exact absurd (h e he) (by simp)

theorem entries_insert (hk : k ∉ t.keys) (a : α) :
    (t.insert k a).entries = t.entries ++ [(k, a)] := by
  have hput : ∀ es : List (κ × α), k ∉ es.map Prod.fst → put k a es = es ++ [(k, a)] := by
    intro es
    induction es with
    | nil => exact fun _ => rfl
    | cons e es ih =>
      intro hes
      rw [map_cons, mem_cons, not_or] at hes
      simp [put, hes.1, ih hes.2]
  exact hput t.entries hk

theorem get?_of_entries_append {u : Table κ α} {more : List (κ × α)}
    (h : u.entries = t.entries ++ more) {a : α} (hk : t.get? k = some a) : u.get? k = some a := by
  have hlookup : t.entries.lookup k = some a := hk
  rw [get?, h, lookup_append, hlookup, Option.some_or]

end Table

inductive Definition where
  | function (g : Global) (e : Expr)
  | data (d : DataType)

/-- The serial numbers of what is defined: of a function, its nodes and its variables, or of the
constructors. -/
def Definition.serials : Definition → List Serial
  | .function g e => g.serial :: e.serials
  | .data d => d.ctors.map fun c => c.serial

namespace Module

def define (m : Module) : Definition → Except Fault Module
  | .function g e => m.addFunction g e
  | .data d => m.addData d

/-- Everything that a module defines is known by its name, and constructors by their numbers. -/
structure Indexed (m : Module) : Prop where
  globals : ∀ g ∈ m.functions.keys, m.globals.contains g.name = true
  handles : ∀ h ∈ m.dataTypes.keys, m.handles.contains h.name = true
  ctors : ∀ d ∈ m.dataTypes.values, ∀ c ∈ d.ctors, m.ctors.contains c.serial = true

/-- The module `m'` has the definitions of `m` and behind them others, whose numbers are `ns`. -/
structure Extends (m : Module) (ns : List Serial) (m' : Module) : Prop where
  functions : ∃ more, m'.functions.entries = m.functions.entries ++ more ∧
    ∀ x ∈ more, x.1 ∉ m.functions.keys ∧ x.1.serial ∈ ns ∧ ∀ n ∈ x.2.toExpr.serials, n ∈ ns
  dataTypes : ∃ more, m'.dataTypes.entries = m.dataTypes.entries ++ more ∧
    ∀ x ∈ more, ∀ c ∈ x.2.ctors, c.serial ∈ ns
  ctors : ∀ n, n ∉ ns → m'.ctors.get? n = m.ctors.get? n

variable {m m' m'' : Module} {ns ns' : List Serial}
variable {e : Expr} {d : DataType}

theorem Extends.refl (m : Module) : m.Extends [] m := by
  refine ⟨⟨[], ?_, ?_⟩, ⟨[], ?_, ?_⟩, fun _ _ => rfl⟩ <;> simp

theorem Extends.trans (h : m.Extends ns m') (h' : m'.Extends ns' m'') :
    m.Extends (ns ++ ns') m'' := by
  obtain ⟨fs, hfs, hnew⟩ := h.functions
  obtain ⟨fs', hfs', hnew'⟩ := h'.functions
  obtain ⟨ds, hds, hctors⟩ := h.dataTypes
  obtain ⟨ds', hds', hctors'⟩ := h'.dataTypes
  refine ⟨⟨fs ++ fs', by rw [hfs', hfs, append_assoc], fun x hx => ?_⟩,
    ⟨ds ++ ds', by rw [hds', hds, append_assoc], fun x hx c hc => ?_⟩, fun n hn => ?_⟩
  · rcases mem_append.1 hx with hx | hx
    · obtain ⟨hkey, hserial, hnodes⟩ := hnew x hx
      exact ⟨hkey, mem_append_left _ hserial, fun n hn => mem_append_left _ (hnodes n hn)⟩
    · obtain ⟨hkey, hserial, hnodes⟩ := hnew' x hx
      refine ⟨fun hmem => hkey ?_, mem_append_right _ hserial,
        fun n hn => mem_append_right _ (hnodes n hn)⟩
      rw [Table.keys, hfs, map_append]
      exact mem_append_left _ hmem
  · rcases mem_append.1 hx with hx | hx
    · exact mem_append_left _ (hctors x hx c hc)
    · exact mem_append_right _ (hctors' x hx c hc)
  · rw [mem_append, not_or] at hn
    rw [h'.ctors n hn.2, h.ctors n hn.1]

theorem toExpr_of_function? {f : Function} (h : e.function? = some f) : f.toExpr = e := by
  cases e with
  | fn => cases h; rfl
  | _ => cases h

theorem addFunction_extends (hm : m.Indexed) {g : Global} (h : m.addFunction g e = .ok m') :
    m'.Indexed ∧ m.Extends (Definition.function g e).serials m' := by
  unfold addFunction at h
  split at h
  · cases h
  next hname =>
  split at h
  · cases h
  next f hf =>
  cases h
  have hg : g ∉ m.functions.keys := fun hmem => hname (hm.globals g hmem)
  refine ⟨⟨fun k hk => ?_, hm.handles, hm.ctors⟩, ⟨[(g, f)], Table.entries_insert hg f, ?_⟩,
    ⟨[], by simp⟩, fun _ _ => rfl⟩
  · rw [Table.contains_insert]
    simp only [Table.keys, Table.entries_insert hg, map_append, mem_append] at hk
    rcases hk with hk | hk
    · rw [hm.globals k hk, Bool.or_true]
    · obtain rfl : k = g := by simpa using hk
      simp
  · intro x hx
    obtain rfl : x = (g, f) := by simpa using hx
    refine ⟨hg, .head _, fun n hn => mem_cons_of_mem _ ?_⟩
    rwa [toExpr_of_function? hf] at hn

theorem get?_foldl_insert {cs : List Ctor} {t : Table Serial DataType} {n : Serial} :
    (cs.foldl (fun t c => t.insert c.serial d) t).get? n =
      if n ∈ cs.map fun c => c.serial then some d else t.get? n := by
  induction cs generalizing t with
  | nil => simp
  | cons c cs ih =>
    rw [foldl_cons, ih, Table.get?_insert, map_cons]
    by_cases hn : n ∈ cs.map fun c => c.serial
    · rw [if_pos hn, if_pos (.tail _ hn)]
    · rw [if_neg hn]
      simp only [mem_cons, hn, or_false]

theorem addData_extends (hm : m.Indexed) (h : m.addData d = .ok m') :
    m'.Indexed ∧ m.Extends (Definition.data d).serials m' := by
  unfold addData at h
  split at h
  · cases h
  next hname =>
  cases h
  have hd : d.handle ∉ m.dataTypes.keys := fun hmem => hname (hm.handles _ hmem)
  have hentries : (m.dataTypes.insert d.handle d).entries =
      m.dataTypes.entries ++ [(d.handle, d)] := Table.entries_insert hd d
  refine ⟨⟨hm.globals, fun k hk => ?_, fun d' hd' c hc => ?_⟩, ⟨[], by simp⟩,
    ⟨[(d.handle, d)], hentries, ?_⟩, fun n hn => ?_⟩
  · rw [Table.contains_insert]
    simp only [Table.keys, hentries, map_append, mem_append] at hk
    rcases hk with hk | hk
    · rw [hm.handles k hk, Bool.or_true]
    · obtain rfl : k = d.handle := by simpa using hk
      simp
  · rw [Table.contains, get?_foldl_insert]
    simp only [Table.values, hentries, map_append, mem_append] at hd'
    split
    · rfl
    next hnew =>
    rcases hd' with hd' | hd'
    · exact hm.ctors d' hd' c hc
    · obtain rfl : d' = d := by simpa using hd'
      exact absurd (mem_map_of_mem hc) hnew
  · intro x hx c hc
    obtain rfl : x = (d.handle, d) := by simpa using hx
    exact mem_map_of_mem hc
  · rw [get?_foldl_insert]
    exact if_neg hn

theorem addAll_extends (hm : m.Indexed) {defs : List Definition}
    (h : addAll define m defs = (m', none)) :
    m'.Indexed ∧ m.Extends (defs.flatMap Definition.serials) m' := by
  induction defs generalizing m with
  | nil =>
    cases h
    exact ⟨hm, .refl _⟩
  | cons d defs ih =>
    unfold addAll at h
    cases hd : m.define d with
    | error f =>
      rw [hd] at h
      cases h
    | ok m₁ =>
      rw [hd] at h
      have hstep : m₁.Indexed ∧ m.Extends d.serials m₁ := by
        cases d with
        | function g e => exact addFunction_extends hm hd
        | data d => exact addData_extends hm hd
      obtain ⟨hm', hmore⟩ := ih hstep.1 h
      exact ⟨hm', hstep.2.trans hmore⟩

end Module

/-! ## Groups -/

namespace GroupSearch

variable {graph graph' : List (Global × List Global)} {s : GroupSearch} {g : Global}

section

variable (hgraph : ∀ e ∈ graph, ∀ r ∈ e.2, r ∈ graph.map Prod.fst) (hs : Valid graph s)

include hgraph hs

theorem foldl_look_congr (fuel fuel' : Nat)
    (hvisit : ∀ (s : GroupSearch) (r : Global), Valid graph s → s.index.lookup r = none →
      r ∈ graph.map Prod.fst → unmet graph s ≤ fuel → unmet graph s ≤ fuel' →
      visit graph' fuel' r s = visit graph fuel r s) {rs : List Global}
    (hrs : ∀ r ∈ rs, r ∈ graph.map Prod.fst) (hfuel : unmet graph s ≤ fuel)
    (hfuel' : unmet graph s ≤ fuel') (low : Nat) :
    rs.foldl (look graph' fuel') (low, s) = rs.foldl (look graph fuel) (low, s) := by
  induction rs generalizing low s with
  | nil => rfl
  | cons r rs ih =>
    rw [forall_mem_cons] at hrs
    rw [foldl_cons, foldl_cons]
    unfold look
    cases hr : s.index.lookup r with
    | some j => exact ih hs hrs.2 hfuel hfuel' _
    | none =>
      have hv := visit_visited hgraph fuel s r hs hr hrs.1 hfuel
      have hunmet : unmet graph (visit graph fuel r s).2 ≤ unmet graph s :=
        unmet_le fun q hq => hv.later.indexed hs hv.valid hq
      simp only [hvisit s r hs hr hrs.1 hfuel hfuel']
      exact ih hv.valid hrs.2 (by omega) (by omega) _

/-- A visit is the same in a larger graph, and with other fuel, if that suffices for the functions
of the smaller graph that have not been met. -/
theorem visit_congr (hsame : ∀ g ∈ graph.map Prod.fst, successors graph' g = successors graph g)
    (fuel fuel' : Nat) (hg : s.index.lookup g = none) (hkey : g ∈ graph.map Prod.fst)
    (hfuel : unmet graph s ≤ fuel) (hfuel' : unmet graph s ≤ fuel') :
    visit graph' fuel' g s = visit graph fuel g s := by
  induction fuel generalizing fuel' s g with
  | zero =>
    have := unmet_enter_lt hg hkey
    omega
  | succ fuel ih =>
    have hunmet := unmet_enter_lt hg hkey
    cases fuel' with
    | zero => omega
    | succ fuel' =>
      have hkeys : ∀ r ∈ successors graph g, r ∈ graph.map Prod.fst := by
        intro r hr
        obtain ⟨e, he, hr⟩ := mem_successors hr
        exact hgraph e he r hr
      have hlook := foldl_look_congr hgraph (hs.enter hg) fuel fuel'
        (fun s r hs hr hkey h h' => ih hs fuel' hr hkey h h') hkeys (by omega) (by omega)
        s.stack.length
      rw [visit_succ, visit_succ, hsame g hkey, hlook]

theorem foldl_visitNew_congr
    (hsame : ∀ g ∈ graph.map Prod.fst, successors graph' g = successors graph g)
    (hlen : graph.length ≤ graph'.length) {gs : List Global}
    (hgs : ∀ g ∈ gs, g ∈ graph.map Prod.fst) (hstack : s.stack = []) :
    gs.foldl (visitNew graph') s = gs.foldl (visitNew graph) s := by
  induction gs generalizing s with
  | nil => rfl
  | cons g gs ih =>
    rw [forall_mem_cons] at hgs
    obtain ⟨hnext, hempty, -⟩ := visitNew_spec hgraph hs hstack hgs.1
    have hvisit : visitNew graph' s g = visitNew graph s g := by
      unfold visitNew
      cases hg : s.index.lookup g with
      | some j => rfl
      | none =>
        have hle : unmet graph s ≤ graph.length := length_filter_le _ _
        simp only
        rw [visit_congr hgraph hs hsame graph.length graph'.length hg hgs.1 hle (by omega)]
    rw [foldl_cons, foldl_cons, hvisit]
    exact ih hnext hgs.2 hempty

end

end GroupSearch

namespace Module

variable {m m' : Module} {ns : List Serial}

/-- If the functions of a module refer to no others, its groups are found first in an extension. -/
theorem groups_of_extends (h : m.Extends ns m') (hclosed : ∀ g f, m.functions.get? g = some f →
    ∀ r ∈ f.body.mentions, m.functions.contains r = true) :
    ∃ more, m'.groups = m.groups ++ more := by
  obtain ⟨fs, hentries, hnew⟩ := h.functions
  have hkeys : m'.functions.keys = m.functions.keys ++ fs.map Prod.fst := by
    rw [Table.keys, hentries, map_append, Table.keys]
  have hsub : ∀ g ∈ m.functions.keys, g ∈ m'.functions.keys := by
    rw [hkeys]
    exact fun g hg => mem_append_left _ hg
  have hsame : ∀ g ∈ m.referenceGraph.map Prod.fst,
      successors m'.referenceGraph g = successors m.referenceGraph g := by
    intro g hg
    rw [map_fst_referenceGraph, ← Table.contains_iff_mem_keys, Table.contains,
      Option.isSome_iff_exists] at hg
    obtain ⟨f, hf⟩ := hg
    rw [successors_referenceGraph m hf,
      successors_referenceGraph m' (Table.get?_of_entries_append hentries hf)]
    -- An added function that is mentioned would be in the module.
    have hnone : (fs.map Prod.fst).filter (fun g => f.body.mentions.contains g) = [] := by
      rw [filter_eq_nil_iff]
      intro r hr hmention
      obtain ⟨x, hx, rfl⟩ := mem_map.1 hr
      have hknown := hclosed g f hf x.1 (by simpa using hmention)
      exact (hnew x hx).1 (Table.contains_iff_mem_keys.1 hknown)
    unfold references
    simp only
    rw [hkeys, filter_append, hnone, append_nil]
  have hlen : m.referenceGraph.length ≤ m'.referenceGraph.length := by
    simp [referenceGraph, hentries]
  have hold : ∀ g ∈ m.functions.keys, g ∈ m.referenceGraph.map Prod.fst := by
    rw [map_fst_referenceGraph]
    exact fun g hg => hg
  have hmore : ∀ gs : List Global, gs ⊆ m'.functions.keys →
      ∀ g ∈ gs, g ∈ m'.referenceGraph.map Prod.fst := by
    rw [map_fst_referenceGraph]
    exact fun gs hgs g hg => hgs hg
  have hfirst := GroupSearch.foldl_visitNew_congr m.referenceGraph_keys (GroupSearch.valid_empty _)
    hsame hlen hold rfl
  obtain ⟨hvalid, hstack, -⟩ := GroupSearch.foldl_visitNew m'.referenceGraph_keys m.functions.keys
    (hmore _ hsub) (GroupSearch.valid_empty _) rfl
  obtain ⟨-, -, hlater, -⟩ := GroupSearch.foldl_visitNew m'.referenceGraph_keys (fs.map Prod.fst)
    (hmore _ (by rw [hkeys]; exact subset_append_right _ _)) hvalid hstack
  obtain ⟨more, hmore⟩ := hlater.groups
  refine ⟨more, ?_⟩
  have hgroups : m.groups =
      (m.functions.keys.foldl (GroupSearch.visitNew m.referenceGraph) {}).groups := rfl
  have hgroups' : m'.groups =
      (m'.functions.keys.foldl (GroupSearch.visitNew m'.referenceGraph) {}).groups := rfl
  rw [hgroups, hgroups', hkeys, foldl_append, ← hmore, hfirst]

end Module

end TensorTyping
