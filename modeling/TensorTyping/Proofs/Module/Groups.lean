import TensorTyping.Module.Dependency
import Mathlib.Data.List.Basic
import Mathlib.Data.List.Nodup
import Mathlib.Data.List.Perm.Basic

/-!
# Dependencies come first

The search for groups closes a group only when nothing in it refers to a function further down the
stack: of every function on the stack above the present one it knows that whatever it refers to is
in a closed group or stands on the stack no lower than the low mark. So a group refers only to
itself and to the groups closed before it. Every function is in one group and in one only.

Nothing is said here of the functions of a group referring to one another in a circle.
-/
namespace TensorTyping

open List

variable {group : List Global}

def successors (graph : List (Global × List Global)) (g : Global) : List Global :=
  (graph.lookup g).getD []

/-- Groups that refer only to themselves and to groups before them. -/
def DependenciesFirst (graph : List (Global × List Global)) (groups : List (List Global)) : Prop :=
  ∀ pre group post, groups = pre ++ group :: post →
    ∀ g ∈ group, ∀ r ∈ successors graph g, r ∈ pre.flatten ∨ r ∈ group

theorem DependenciesFirst.snoc {graph : List (Global × List Global)} {groups : List (List Global)}
    (h : DependenciesFirst graph groups)
    (hgroup : ∀ g ∈ group, ∀ r ∈ successors graph g, r ∈ groups.flatten ∨ r ∈ group) :
    DependenciesFirst graph (groups ++ [group]) := by
  intro pre last post he g hg r hr
  rcases eq_nil_or_concat post with rfl | ⟨post', x, rfl⟩
  · obtain ⟨rfl, hlast⟩ := append_inj' he rfl
    obtain rfl : group = last := by simpa using hlast
    exact hgroup g hg r hr
  · have hsplit : groups ++ [group] = (pre ++ last :: post') ++ [x] := by
      rw [he]
      simp
    obtain ⟨hgroups, _⟩ := append_inj' hsplit rfl
    exact h pre last post' hgroups g hg r hr

namespace GroupSearch

/-- A search whose index knows the closed groups and the places on the stack. -/
structure Valid (graph : List (Global × List Global)) (s : GroupSearch) : Prop where
  nodup : (s.groups.flatten ++ s.stack).Nodup
  indexed : ∀ g, s.index.lookup g ≠ none ↔ g ∈ s.groups.flatten ∨ g ∈ s.stack
  place : ∀ i g, s.stack[i]? = some g → s.index.lookup g = some i
  first : DependenciesFirst graph s.groups
  nonempty : ∀ group ∈ s.groups, group ≠ []

/-- A function is in a closed group, or on the stack no lower than the mark. -/
def Reached (s : GroupSearch) (low : Nat) (r : Global) : Prop :=
  r ∈ s.groups.flatten ∨ ∃ j, low ≤ j ∧ s.stack[j]? = some r

/-- A later search: neither the stack nor the list of groups has lost anything. -/
structure Later (s s' : GroupSearch) : Prop where
  stack : s.stack <+: s'.stack
  groups : s.groups <+: s'.groups

variable {graph : List (Global × List Global)} {s s' s'' : GroupSearch} {g r : Global}
variable {i low low' : Nat} {done : List Global}

theorem Later.refl (s : GroupSearch) : s.Later s := ⟨prefix_rfl, prefix_rfl⟩

theorem Later.trans (h : s.Later s') (h' : s'.Later s'') : s.Later s'' :=
  ⟨h.stack.trans h'.stack, h.groups.trans h'.groups⟩

theorem Later.mem_flatten (h : s.Later s') (hr : r ∈ s.groups.flatten) : r ∈ s'.groups.flatten := by
  obtain ⟨group, hgroup, hr⟩ := List.mem_flatten.1 hr
  exact List.mem_flatten.2 ⟨group, h.groups.subset hgroup, hr⟩

theorem Later.indexed (h : s.Later s') (hs : Valid graph s) (hs' : Valid graph s')
    (hr : s.index.lookup r ≠ none) : s'.index.lookup r ≠ none := by
  rw [hs'.indexed]
  rcases (hs.indexed r).1 hr with hr | hr
  · exact .inl (h.mem_flatten hr)
  · exact .inr (h.stack.subset hr)

theorem Reached.later (h : s.Reached low r) (hs : s.Later s') (hlow : low' ≤ low) :
    s'.Reached low' r := by
  rcases h with h | ⟨j, hj, hr⟩
  · exact .inl (hs.mem_flatten h)
  · refine .inr ⟨j, by omega, ?_⟩
    obtain ⟨more, hmore⟩ := hs.stack
    have hlt : j < s.stack.length := (List.getElem?_eq_some_iff.1 hr).1
    rw [← hmore, getElem?_append_left hlt]
    exact hr

theorem Valid.not_mem (h : Valid graph s) (hg : s.index.lookup g = none) :
    g ∉ s.groups.flatten ∧ g ∉ s.stack := by
  have hnot : ¬ (g ∈ s.groups.flatten ∨ g ∈ s.stack) := by
    rw [← h.indexed]
    exact fun hne => hne hg
  exact not_or.1 hnot

theorem lookup_enter (s : GroupSearch) (g r : Global) :
    (s.enter g).2.index.lookup r = if r = g then some s.stack.length else s.index.lookup r := by
  by_cases h : r = g
  · simp [enter, h]
  · have hb : (r == g) = false := by simpa using h
    simp [enter, lookup_cons, h, hb]

theorem Valid.enter (h : Valid graph s) (hg : s.index.lookup g = none) :
    Valid graph (s.enter g).2 := by
  obtain ⟨hclosed, hstack⟩ := h.not_mem hg
  constructor
  · have hmem : g ∉ s.groups.flatten ++ s.stack := by simp_all
    have hnodup : ((s.groups.flatten ++ s.stack) ++ [g]).Nodup :=
      nodup_append.2 ⟨h.nodup, by simp, fun a ha b hb => by
        obtain rfl : b = g := by simpa using hb
        exact fun he => hmem (he ▸ ha)⟩
    simpa [GroupSearch.enter] using hnodup
  · intro r
    rw [lookup_enter]
    by_cases hr : r = g
    · simp [hr, GroupSearch.enter]
    · have := h.indexed r
      simpa [hr, GroupSearch.enter] using this
  · intro i r hi
    rw [lookup_enter]
    simp only [GroupSearch.enter] at hi
    rcases Nat.lt_or_ge i s.stack.length with hlt | hge
    · rw [getElem?_append_left hlt] at hi
      have hne : r ≠ g := fun he => hstack (he ▸ mem_of_getElem? hi)
      rw [if_neg hne]
      exact h.place i r hi
    · rw [getElem?_append_right hge] at hi
      have hi' : i - s.stack.length < 1 := (List.getElem?_eq_some_iff.1 hi).1
      have he : i = s.stack.length := by omega
      subst he
      obtain rfl : g = r := by simpa using hi
      simp
  · exact h.first
  · exact h.nonempty

/-- Closing the group from the place `i` upwards, when nothing in it leads below that place. -/
theorem Valid.close (h : Valid graph s) (hi : i < s.stack.length)
    (habove : ∀ v ∈ s.stack.drop i, ∀ r ∈ successors graph v, s.Reached i r) :
    Valid graph (s.close i) := by
  have hsplit : s.stack.take i ++ s.stack.drop i = s.stack := take_append_drop i s.stack
  constructor
  · have hperm : (s.groups.flatten ++ s.stack).Perm
        ((s.close i).groups.flatten ++ (s.close i).stack) := by
      simp only [GroupSearch.close, flatten_append, flatten_cons, flatten_nil,
        append_nil, append_assoc]
      refine List.Perm.append_left _ ?_
      have hcomm : (s.stack.take i ++ s.stack.drop i).Perm (s.stack.drop i ++ s.stack.take i) :=
        perm_append_comm
      rwa [hsplit] at hcomm
    exact hperm.nodup_iff.1 h.nodup
  · intro r
    have hmem : r ∈ s.stack ↔ r ∈ s.stack.take i ∨ r ∈ s.stack.drop i := by
      rw [← mem_append, hsplit]
    have := h.indexed r
    simp only [GroupSearch.close, flatten_append, flatten_cons, flatten_nil,
      append_nil, mem_append]
    rw [this, hmem]
    tauto
  · intro j r hj
    apply h.place j r
    simp only [GroupSearch.close] at hj
    have hlt : j < (s.stack.take i).length := (List.getElem?_eq_some_iff.1 hj).1
    rw [← hsplit, getElem?_append_left hlt]
    exact hj
  · apply h.first.snoc
    intro v hv r hr
    rcases habove v hv r hr with hr | ⟨j, hj, hr⟩
    · exact .inl hr
    · refine .inr (mem_of_getElem? (i := j - i) ?_)
      rw [getElem?_drop, Nat.add_sub_cancel' hj]
      exact hr
  · intro group hgroup
    simp only [GroupSearch.close] at hgroup
    rcases mem_append.1 hgroup with hgroup | hgroup
    · exact h.nonempty group hgroup
    · obtain rfl : group = s.stack.drop i := by simpa using hgroup
      simp only [ne_eq, drop_eq_nil_iff]
      omega

def unmet (graph : List (Global × List Global)) (s : GroupSearch) : Nat :=
  (graph.filter fun e => (s.index.lookup e.1).isNone).length

theorem unmet_le (h : ∀ r, s.index.lookup r ≠ none → s'.index.lookup r ≠ none) :
    unmet graph s' ≤ unmet graph s := by
  apply List.Sublist.length_le
  apply monotone_filter_right
  intro e he
  by_contra hne
  have hs : s.index.lookup e.1 ≠ none := by simpa [Option.isNone_iff_eq_none] using hne
  have hs' : s'.index.lookup e.1 = none := Option.isNone_iff_eq_none.1 he
  exact h e.1 hs hs'

theorem unmet_enter_lt (hg : s.index.lookup g = none) (hkey : g ∈ graph.map Prod.fst) :
    unmet graph (s.enter g).2 < unmet graph s := by
  obtain ⟨e, he, rfl⟩ := mem_map.1 hkey
  have hsub : graph.filter (fun x => ((s.enter e.1).2.index.lookup x.1).isNone) =
      (graph.filter fun x => (s.index.lookup x.1).isNone).filter
        fun x => ((s.enter e.1).2.index.lookup x.1).isNone := by
    rw [filter_filter]
    refine filter_congr fun x _ => ?_
    rw [lookup_enter]
    by_cases hx : x.1 = e.1
    · simp [hx]
    · simp [hx]
  unfold unmet
  rw [hsub]
  apply length_filter_lt_length_iff_exists.2
  refine ⟨e, mem_filter.2 ⟨he, by simp [hg]⟩, ?_⟩
  simp [lookup_enter]

def look (graph : List (Global × List Global)) (fuel : Nat) (acc : Nat × GroupSearch)
    (r : Global) : Nat × GroupSearch :=
  match acc.2.index.lookup r with
  | none => (min acc.1 (visit graph fuel r acc.2).1, (visit graph fuel r acc.2).2)
  | some j => (if acc.2.stack.contains r then min acc.1 j else acc.1, acc.2)

theorem visit_succ (graph : List (Global × List Global)) (fuel : Nat) (g : Global)
    (s : GroupSearch) :
    visit graph (fuel + 1) g s =
      let r := (successors graph g).foldl (look graph fuel) (s.stack.length, (s.enter g).2)
      (r.1, if r.1 = s.stack.length then r.2.close s.stack.length else r.2) := rfl

/-- What visiting `g` leads to. -/
structure Visited (graph : List (Global × List Global)) (s : GroupSearch) (g : Global)
    (low : Nat) (s' : GroupSearch) : Prop where
  valid : Valid graph s'
  later : s.Later s'
  met : s'.index.lookup g ≠ none
  low_le : low ≤ s.stack.length
  above : ∀ v ∈ s'.stack.drop s.stack.length, ∀ r ∈ successors graph v, s'.Reached low r
  whole : low = s.stack.length → s'.stack = s.stack

/-- What looking at the functions `done` has led to; `i` is the place of the present function and
`s` the search in which it was put there. -/
structure Looking (graph : List (Global × List Global)) (s : GroupSearch) (i : Nat)
    (done : List Global) (low : Nat) (s' : GroupSearch) : Prop where
  valid : Valid graph s'
  later : s.Later s'
  low_le : low ≤ i
  above : ∀ v ∈ s'.stack.drop (i + 1), ∀ r ∈ successors graph v, s'.Reached low r
  reached : ∀ r ∈ done, s'.Reached low r

theorem Looking.known {j : Nat} (h : Looking graph s i done low s')
    (hj : s'.index.lookup r = some j) :
    Looking graph s i (done ++ [r]) (if s'.stack.contains r then min low j else low) s' := by
  have hle : (if s'.stack.contains r then min low j else low) ≤ low := by
    split <;> omega
  refine ⟨h.valid, h.later, Nat.le_trans hle h.low_le, fun v hv q hq => ?_, fun q hq => ?_⟩
  · exact (h.above v hv q hq).later (.refl s') hle
  rcases mem_append.1 hq with hq | hq
  · exact (h.reached q hq).later (.refl s') hle
  obtain rfl : q = r := by simpa using hq
  have hmet := (h.valid.indexed q).1 (by simp [hj])
  rcases hmet with hmet | hmet
  · exact .inl hmet
  · obtain ⟨k, hk⟩ := getElem?_of_mem hmet
    obtain rfl : j = k := by simpa [hj] using h.valid.place k q hk
    refine .inr ⟨j, ?_, hk⟩
    rw [if_pos (by simpa using hmet)]
    omega

theorem Looking.visited (h : Looking graph s i done low s') (hi : i < s.stack.length)
    (hr : s'.index.lookup r = none) (hv : Visited graph s' r low' s'') :
    Looking graph s i (done ++ [r]) (min low low') s'' := by
  have hlen : s.stack.length ≤ s'.stack.length := h.later.stack.length_le
  refine ⟨hv.valid, h.later.trans hv.later, by have := h.low_le; omega, fun v hm q hq => ?_,
    fun q hq => ?_⟩
  · -- The function was on the stack already, or was put there by the visit.
    obtain ⟨more, hmore⟩ := hv.later.stack
    rw [← hmore, drop_append_of_le_length (by omega)] at hm
    rcases mem_append.1 hm with hm | hm
    · exact (h.above v hm q hq).later hv.later (Nat.min_le_left _ _)
    · have hnew : v ∈ s''.stack.drop s'.stack.length := by
        rw [← hmore]
        simpa using hm
      exact (hv.above v hnew q hq).later (.refl s'') (Nat.min_le_right _ _)
  rcases mem_append.1 hq with hq | hq
  · exact (h.reached q hq).later hv.later (Nat.min_le_left _ _)
  obtain rfl : q = r := by simpa using hq
  rcases (hv.valid.indexed q).1 hv.met with hmet | hmet
  · exact .inl hmet
  · obtain ⟨k, hk⟩ := getElem?_of_mem hmet
    refine .inr ⟨k, ?_, hk⟩
    -- It was not on the stack before, so it stands above all that was.
    by_contra hlt
    have hlow := h.low_le
    have hks : k < s'.stack.length := by omega
    obtain ⟨more, hmore⟩ := hv.later.stack
    rw [← hmore, getElem?_append_left hks] at hk
    exact (h.valid.not_mem hr).2 (mem_of_getElem? hk)

theorem Looking.foldl {fuel : Nat} {rs : List Global}
    (hvisit : ∀ (s : GroupSearch) (r : Global), Valid graph s → s.index.lookup r = none →
      r ∈ graph.map Prod.fst → unmet graph s ≤ fuel →
      Visited graph s r (visit graph fuel r s).1 (visit graph fuel r s).2) (hs : Valid graph s)
    (hi : i < s.stack.length) (hfuel : unmet graph s ≤ fuel)
    (hrs : ∀ r ∈ rs, r ∈ graph.map Prod.fst) (h : Looking graph s i done low s') :
    Looking graph s i (done ++ rs) (rs.foldl (look graph fuel) (low, s')).1
      (rs.foldl (look graph fuel) (low, s')).2 := by
  induction rs generalizing done low s' with
  | nil => simpa using h
  | cons r rs ih =>
    have hnext : Looking graph s i (done ++ [r]) (look graph fuel (low, s') r).1
        (look graph fuel (low, s') r).2 := by
      unfold look
      cases hr : s'.index.lookup r with
      | some j => exact h.known hr
      | none =>
        have hunmet : unmet graph s' ≤ unmet graph s :=
          unmet_le fun q hq => h.later.indexed hs h.valid hq
        exact h.visited hi hr (hvisit s' r h.valid hr (hrs r (by simp)) (by omega))
    have hrest := ih (fun q hq => hrs q (by simp [hq])) hnext
    simpa using hrest

theorem mem_successors (hr : r ∈ successors graph g) : ∃ e ∈ graph, r ∈ e.2 := by
  unfold successors at hr
  cases hl : graph.lookup g with
  | none => simp [hl] at hr
  | some rs =>
    obtain ⟨_, _, he, _⟩ := lookup_eq_some_iff.1 hl
    exact ⟨(g, rs), by simp [he], by simpa [hl] using hr⟩

/-- A visit, by induction on the fuel, which counts the functions not met yet. -/
theorem visit_visited (hgraph : ∀ e ∈ graph, ∀ r ∈ e.2, r ∈ graph.map Prod.fst) (fuel : Nat)
    (s : GroupSearch) (g : Global) (h : Valid graph s) (hg : s.index.lookup g = none)
    (hkey : g ∈ graph.map Prod.fst) (hfuel : unmet graph s ≤ fuel) :
    Visited graph s g (visit graph fuel g s).1 (visit graph fuel g s).2 := by
  induction fuel generalizing s g with
  | zero =>
    have := unmet_enter_lt hg hkey
    omega
  | succ fuel ih =>
    have hunmet := unmet_enter_lt hg hkey
    have henter := h.enter hg
    have hlen : (s.enter g).2.stack.length = s.stack.length + 1 := by simp [GroupSearch.enter]
    have hlater : s.Later (s.enter g).2 := ⟨prefix_append _ _, prefix_rfl⟩
    have hstart : Looking graph (s.enter g).2 s.stack.length [] s.stack.length (s.enter g).2 :=
      ⟨henter, .refl _, Nat.le_refl _, by simp [← hlen], by simp⟩
    have hkeys : ∀ r ∈ successors graph g, r ∈ graph.map Prod.fst := by
      intro r hr
      obtain ⟨e, he, hr⟩ := mem_successors hr
      exact hgraph e he r hr
    have hlook := hstart.foldl ih henter (by omega) (by omega) hkeys
    rw [visit_succ]
    simp only [nil_append] at hlook ⊢
    generalize (successors graph g).foldl (look graph fuel)
      (s.stack.length, (s.enter g).2) = res at hlook ⊢
    obtain ⟨low, s₁⟩ := res
    -- The stack is the one that the visit began with, then `g`, then whatever is still open.
    obtain ⟨more, hmore⟩ : ∃ more, s₁.stack = s.stack ++ g :: more := by
      obtain ⟨more, hmore⟩ := hlook.later.stack
      exact ⟨more, by rw [← hmore]; simp [GroupSearch.enter]⟩
    have habove : ∀ v ∈ s₁.stack.drop s.stack.length, ∀ r ∈ successors graph v,
        s₁.Reached low r := by
      intro v hv r hr
      rw [hmore, drop_left] at hv
      rcases mem_cons.1 hv with rfl | hv
      · exact hlook.reached r hr
      · refine hlook.above v ?_ r hr
        rw [hmore, ← drop_drop, drop_left]
        exact hv
    have hmet : s₁.index.lookup g ≠ none :=
      (hlook.valid.indexed g).2 (.inr (by simp [hmore]))
    have hto := hlater.trans hlook.later
    by_cases hlow : low = s.stack.length
    · subst hlow
      simp only [if_true]
      have hclose := hlook.valid.close (i := s.stack.length) (by simp [hmore]) habove
      have hstack : (s₁.close s.stack.length).stack = s.stack := by
        simp [GroupSearch.close, hmore]
      have hkept : s.stack <+: (s₁.close s.stack.length).stack := by simp [hstack]
      exact ⟨hclose, ⟨hkept, hto.groups.trans (prefix_append _ _)⟩, hmet,
        Nat.le_refl _, by simp [hstack], fun _ => hstack⟩
    · simp only [hlow, if_false]
      exact ⟨hlook.valid, hto, hmet, hlook.low_le, habove, fun he => absurd he hlow⟩

def visitNew (graph : List (Global × List Global)) (s : GroupSearch) (g : Global) : GroupSearch :=
  match s.index.lookup g with
  | some _ => s
  | none => (visit graph graph.length g s).2

theorem valid_empty (graph : List (Global × List Global)) : Valid graph {} := by
  refine ⟨by simp, by simp, by simp, ?_, by simp⟩
  intro pre group post he
  simp at he

theorem visitNew_spec (hgraph : ∀ e ∈ graph, ∀ r ∈ e.2, r ∈ graph.map Prod.fst)
    (h : Valid graph s) (hstack : s.stack = []) (hkey : g ∈ graph.map Prod.fst) :
    Valid graph (visitNew graph s g) ∧ (visitNew graph s g).stack = [] ∧
      s.Later (visitNew graph s g) ∧ g ∈ (visitNew graph s g).groups.flatten := by
  unfold visitNew
  cases hg : s.index.lookup g with
  | some j =>
    have hmem := (h.indexed g).1 (by simp [hg])
    exact ⟨h, hstack, .refl s, by simpa [hstack] using hmem⟩
  | none =>
    have hv := visit_visited hgraph graph.length s g h hg hkey (length_filter_le _ _)
    have hlow := hv.low_le
    have hempty := hv.whole (by simp_all)
    have hmem := (hv.valid.indexed g).1 hv.met
    simp only
    exact ⟨hv.valid, hempty.trans hstack, hv.later, by simpa [hempty, hstack] using hmem⟩

theorem foldl_visitNew (hgraph : ∀ e ∈ graph, ∀ r ∈ e.2, r ∈ graph.map Prod.fst)
    (gs : List Global) (hgs : ∀ g ∈ gs, g ∈ graph.map Prod.fst) (h : Valid graph s)
    (hstack : s.stack = []) :
    Valid graph (gs.foldl (visitNew graph) s) ∧ (gs.foldl (visitNew graph) s).stack = [] ∧
      s.Later (gs.foldl (visitNew graph) s) ∧
      ∀ g ∈ gs, g ∈ (gs.foldl (visitNew graph) s).groups.flatten := by
  induction gs generalizing s with
  | nil => exact ⟨h, hstack, .refl s, by simp⟩
  | cons g gs ih =>
    obtain ⟨hv, hst, hl, hg⟩ := visitNew_spec hgraph h hstack (hgs g (by simp))
    obtain ⟨hv', hst', hl', hgs'⟩ := ih (fun q hq => hgs q (by simp [hq])) hv hst
    refine ⟨hv', hst', hl.trans hl', ?_⟩
    exact forall_mem_cons.2 ⟨hl'.mem_flatten hg, hgs'⟩

end GroupSearch

namespace Module

variable {g : Global} {m : Module} {f : Function}

theorem map_fst_referenceGraph (m : Module) : m.referenceGraph.map Prod.fst = m.functions.keys := by
  simp [referenceGraph, Table.keys]

theorem referenceGraph_keys (m : Module) :
    ∀ e ∈ m.referenceGraph, ∀ r ∈ e.2, r ∈ m.referenceGraph.map Prod.fst := by
  intro e he r hr
  rw [map_fst_referenceGraph]
  obtain ⟨f, _, rfl⟩ := mem_map.1 he
  exact mem_of_mem_filter hr

theorem successors_referenceGraph (m : Module) (hf : m.functions.get? g = some f) :
    successors m.referenceGraph g = m.references f := by
  have hlookup : ∀ es : List (Global × Function), es.lookup g = some f →
      (es.map fun e => (e.1, m.references e.2)).lookup g = some (m.references f) := by
    intro es
    induction es with
    | nil => simp
    | cons e es ih =>
      intro he
      rw [lookup_cons] at he
      rw [map_cons, lookup_cons]
      cases hb : g == e.1 with
      | true => simp_all
      | false => simp_all
  unfold successors referenceGraph
  rw [hlookup _ hf]
  rfl

theorem mem_keys_of_contains (h : m.functions.contains g = true) : g ∈ m.functions.keys := by
  unfold Table.contains Table.get? at h
  obtain ⟨f, hf⟩ := Option.isSome_iff_exists.1 h
  obtain ⟨_, _, he, _⟩ := lookup_eq_some_iff.1 hf
  simp [Table.keys, he]

/-- The groups of a module, in order: every function is in one of them and in one only, and the
functions of a group refer to functions of that group and of the groups before it. -/
theorem groups_spec (m : Module) :
    m.groups.flatten.Nodup ∧ (∀ group ∈ m.groups, group ≠ []) ∧
      (∀ g ∈ m.functions.keys, g ∈ m.groups.flatten) ∧
      DependenciesFirst m.referenceGraph m.groups := by
  have hkeys : ∀ g ∈ m.functions.keys, g ∈ m.referenceGraph.map Prod.fst := by
    rw [map_fst_referenceGraph]
    exact fun g hg => hg
  obtain ⟨hv, hstack, _, hall⟩ := GroupSearch.foldl_visitNew m.referenceGraph_keys
    m.functions.keys hkeys (GroupSearch.valid_empty _) rfl
  have hgroups : m.groups =
      (m.functions.keys.foldl (GroupSearch.visitNew m.referenceGraph) {}).groups := rfl
  rw [hgroups]
  refine ⟨?_, hv.nonempty, hall, hv.first⟩
  have hnodup := hv.nodup
  rw [hstack, append_nil] at hnodup
  exact hnodup

theorem groups_nodup {before after : List (List Global)} (h : m.groups = before ++ group :: after) :
    group.Nodup := by
  have hall := (groups_spec m).1
  rw [h] at hall
  exact (nodup_flatten.1 hall).1 group (by simp)

/-- Whatever function of the module a body mentions is in its own group or in one before it. -/
theorem mentions_settled {pre post : List (List Global)} (hgroups : m.groups = pre ++ group :: post)
    {r : Global} (hg : g ∈ group) (hf : m.functions.get? g = some f) (hr : r ∈ f.body.mentions)
    (hm : m.functions.contains r = true) : r ∈ pre.flatten ∨ r ∈ group := by
  apply m.groups_spec.2.2.2 pre group post hgroups g hg r
  rw [successors_referenceGraph m hf]
  exact mem_filter.2 ⟨mem_keys_of_contains hm, by simpa using hr⟩

end Module

end TensorTyping
