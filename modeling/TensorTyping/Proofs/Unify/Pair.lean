import Mathlib.Logic.Relation
import TensorTyping.Proofs.Outcomes
import TensorTyping.Proofs.Store.Operations
import TensorTyping.Proofs.Ty.Agreement
import TensorTyping.Store.Unify

/-!
# One step of unification

Everything that can come of settling one pair. The two sides are equal already, or one of them is a
free cell and comes to stand for the other, or both are taken apart, or the step stops with a
fault. All later results on unification, on what it establishes, on when it succeeds and on how
long it takes, rest on this list of cases and on what it says of a round and of a whole run.
-/
namespace TensorTyping

open List

/-- Two types of the same form and the pairs of their parts. -/
inductive Ty.Splits : Ty → Ty → List (Ty × Ty) → Prop
  | tensor {s s' : Shape} {d : String} : s.agree s' = true →
      Splits (.tensor s d) (.tensor s' d) []
  | tuple {ts us : List Ty} : ts.length = us.length → Splits (.tuple ts) (.tuple us) (ts.zip us)
  | func {as bs : List Ty} {r q : Ty} {ps qs : List TypeParam} {rs ss : List TypeRelation} :
      as.length = bs.length → Splits (.func as r ps rs) (.func bs q qs ss) (as.zip bs ++ [(r, q)])
  | data {h : Handle} {as bs : List Ty} : as.length = bs.length →
      Splits (.data h as) (.data h bs) (as.zip bs)

theorem Ty.splits_of_parts {x y : Ty} {ps : List (Ty × Ty)} (h : Ty.parts x y = .ok ps) :
    Splits x y ps := by
  -- Of two types that differ in form none has parts.
  cases x <;> cases y <;> simp only [Ty.parts, reduceCtorEq] at h
  case tensor.tensor =>
    split at h
    · cases h
    · next hd =>
      obtain rfl := Decidable.not_not.1 hd
      split at h
      · next hs =>
        cases h
        exact .tensor hs
      · cases h
  case data.data =>
    split at h
    · cases h
    · next hd =>
      obtain rfl := Decidable.not_not.1 hd
      split at h
      · next hlen =>
        cases h
        exact .data hlen
      · cases h
  all_goals
    split at h
    · next hlen =>
      cases h
      constructor
      exact hlen
    · cases h

def IssueKind.ofUnification : List IssueKind :=
  [.kindMismatch, .dtypeMismatch, .shapeMismatch, .arityMismatch, .dataMismatch, .occursCheck]

theorem Ty.kind_mem_of_parts {x y : Ty} {kind : IssueKind} (h : Ty.parts x y = .error kind) :
    kind ∈ IssueKind.ofUnification := by
  unfold Ty.parts at h
  repeat' split at h
  all_goals cases h <;> decide

theorem Ty.parallel_of_parts {R : Ty → Ty → Prop} {x y : Ty} {ps : List (Ty × Ty)}
    (hps : Ty.parts x y = .ok ps) (h : ∀ p ∈ ps, R p.1 p.2) : Parallel R x y := by
  have hzip {ts us : List Ty} (hlen : ts.length = us.length) (hts : ∀ p ∈ ts.zip us, R p.1 p.2) :
      List.Forall₂ R ts us := forall₂_iff_zip.2 ⟨hlen, fun hp => hts _ hp⟩
  cases splits_of_parts hps with
  | tensor hs => exact .tensor _ hs
  | tuple hlen => exact .tuple (hzip hlen h)
  | func hlen =>
    exact .func _ _ _ _ (hzip hlen fun p hp => h p (by simp [hp])) (h (_, _) (by simp))
  | data hlen => exact .data _ (hzip hlen h)

/-- Two types that are built in the same way have parts, unless they are equal already. -/
theorem Ty.parts_of_parallel {R : Ty → Ty → Prop} {x y : Ty} (hx : x.isCell = false)
    (hne : x.same y = false) (h : Parallel R x y) :
    ∃ ps, Ty.parts x y = .ok ps ∧ ∀ p ∈ ps, R p.1 p.2 := by
  cases h with
  | tensor d hs => exact ⟨[], by simp [parts, hs], by simp⟩
  | @tuple ts us hts =>
    obtain ⟨hlen, hall⟩ := forall₂_iff_zip.1 hts
    exact ⟨ts.zip us, by simp [parts, hlen], fun p hp => hall hp⟩
  | @func as bs r q _ _ _ _ has hr =>
    obtain ⟨hlen, hall⟩ := forall₂_iff_zip.1 has
    refine ⟨as.zip bs ++ [(r, q)], by simp [parts, hlen], forall_mem_append.2 ⟨?_, ?_⟩⟩
    · exact fun p hp => hall hp
    · exact forall_mem_singleton.2 hr
  | @data k as bs has =>
    obtain ⟨hlen, hall⟩ := forall₂_iff_zip.1 has
    exact ⟨as.zip bs, by simp [parts, hlen], fun p hp => hall hp⟩
  | cell c => cases hx
  | param | handle => simp [same] at hne

namespace StoreM

open Store

variable {s : Store} {x y : Ty} {site : Option Phrase}
variable {s₁ : Store} {r : Cell} {u : Ty}

/-- Everything that can come of binding a free root to something else at the top. -/
inductive FreeOutcome (s : Store) (r : Cell) (u : Ty) (site : Option Phrase) :
    EStateM.Result Fault Store Unit → Prop
  | foreign {s' : Store} : s.ownsAll u = false → s.Kept s' →
      FreeOutcome s r u site (.error .foreignCell s')
  | occurs {s' : Store} : u.isCell = false → r ∈ (s.resolve u).cellOccurrences → s.Kept s' →
      FreeOutcome s r u site (.error (.issue
        { kind := .occursCheck, evidence := [.type (.cell r), .type u], site }) s')
  | binds {s' : Store} : s.Binds r u s' → FreeOutcome s r u site (.ok () s')

theorem bind_free_outcome (h : s.Valid) (hk : s.Kept s₁) (hr : s.owns r = true)
    (hfr : s.top (.cell r) = .cell r) (hu : s.top u = u) (hne : u ≠ .cell r)
    (site : Option Phrase) : FreeOutcome s r u site (bind (.cell r) u site s₁) := by
  have hr₁ : s₁.top (.cell r) = .cell r := by rw [hk.view.top_eq, hfr]
  have hu₁ : s₁.top u = u := by rw [hk.view.top_eq, hu]
  have ho := bind_outcome hk.valid (.cell r) u site
  generalize bind (.cell r) u site s₁ = res at ho ⊢
  cases ho with
  | foreign hof hk' =>
    refine .foreign ?_ (hk.trans hk')
    rcases hof with hof | hof
    · rw [hk.view.ownsAll_eq, ownsAll_iff.2 (by simpa using hr)] at hof
      exact absurd hof (by simp)
    · rwa [hk.view.ownsAll_eq] at hof
  | notFree hc => rw [hr₁] at hc; exact absurd hc (by simp)
  | already hv ht =>
    rw [hr₁] at hv
    rw [hu₁] at ht
    exact absurd (ht.trans hv.symm) hne
  | occurs hv ht hmem hk' =>
    rw [hr₁] at hv
    rw [hu₁] at ht
    rw [hk.view.resolve_eq] at hmem
    obtain rfl : r = _ := by simpa using hv
    rw [hu₁]
    exact .occurs ht hmem (hk.trans hk')
  | binds hv hb =>
    rw [hr₁] at hv
    obtain rfl : r = _ := by simpa using hv
    have hou : s.ownsAll u = true := by rw [← hk.view.ownsAll_eq]; exact hb.ownsAll
    exact .binds (Binds.of_kept h hk hou hu hb)

/-- Everything that can come of settling the pair of `x` and `y`. -/
inductive PairOutcome (s : Store) (x y : Ty) (site : Option Phrase) :
    EStateM.Result Fault Store (List (Ty × Ty)) → Prop
  | foreign {s' : Store} : (s.ownsAll x = false ∨ s.ownsAll y = false) → s.Kept s' →
      PairOutcome s x y site (.error .foreignCell s')
  | same {s' : Store} : (s.top x).same (s.top y) = true → s.Kept s' →
      PairOutcome s x y site (.ok [] s')
  | occurs {s' : Store} {r : Cell} {u : Ty} :
      (s.top x = .cell r ∧ s.top y = u ∨ s.top y = .cell r ∧ s.top x = u) →
      u.isCell = false → r ∈ (s.resolve u).cellOccurrences → s.Kept s' →
      PairOutcome s x y site (.error (.issue
        { kind := .occursCheck, evidence := [.type (.cell r), .type u], site }) s')
  | binds {s' : Store} {r : Cell} {u : Ty} :
      (s.top x = .cell r ∧ s.top y = u ∨ s.top y = .cell r ∧ s.top x = u) → s.Binds r u s' →
      PairOutcome s x y site (.ok [] s')
  | mismatch {s' : Store} {kind : IssueKind} {u v : Ty} : (s.top x).isCell = false →
      (s.top y).isCell = false → (s.top x).same (s.top y) = false →
      Ty.parts (s.top x) (s.top y) = .error kind →
      (u = s.top x ∧ v = s.top y ∨ u = s.resolve (s.top x) ∧ v = s.resolve (s.top y)) →
      s.Kept s' →
      PairOutcome s x y site (.error (.issue { kind, evidence := [.type u, .type v], site }) s')
  | parts {s' : Store} {ps : List (Ty × Ty)} : (s.top x).isCell = false →
      (s.top y).isCell = false → (s.top x).same (s.top y) = false →
      Ty.parts (s.top x) (s.top y) = .ok ps → s.Kept s' →
      PairOutcome s x y site (.ok ps s')

/-- What is left of a step when neither side is a cell. -/
def unifyProper (site : Option Phrase) (x y : Ty) : StoreM (List (Ty × Ty)) :=
  match Ty.parts x y with
  | .ok pairs => return pairs
  | .error .kindMismatch => do
    throw (.issue { kind := .kindMismatch,
                    evidence := [.type (← resolve x), .type (← resolve y)], site })
  | .error kind => throw (.issue { kind, evidence := [.type x, .type y], site })

/-- What is left of a step when both sides have been brought to what they stand for. -/
def unifyTops (site : Option Phrase) (x y : Ty) : StoreM (List (Ty × Ty)) :=
  if x.same y then return []
  else if x.isCell then do
    bind x y site
    return []
  else if y.isCell then do
    bind y x site
    return []
  else unifyProper site x y

theorem unifyPair_eq : unifyPair site x y = (do
    let x ← find x
    let y ← find y
    unifyTops site x y) := by
  unfold unifyPair
  refine congrArg _ (funext fun x => congrArg _ (funext fun y => ?_))
  unfold unifyTops
  split
  · rfl
  · cases x <;> cases y <;> rfl

theorem unifyPair_tops (h : s.Valid) (hx : s.ownsTop x = true) (hy : s.ownsTop y = true) :
    ∃ s₁, s.Kept s₁ ∧ unifyPair site x y s = unifyTops site (s.top x) (s.top y) s₁ := by
  obtain ⟨s₁, hfind₁, hk₁⟩ := find_ok h hx
  have hy₁ : s₁.ownsTop y = true := by rw [hk₁.view.ownsTop_eq, hy]
  obtain ⟨s₂, hfind₂, hk₂⟩ := find_ok hk₁.valid hy₁
  refine ⟨s₂, hk₁.trans hk₂, ?_⟩
  rw [unifyPair_eq, bind_of_ok hfind₁, bind_of_ok hfind₂, hk₁.view.top_eq]

theorem unifyProper_outcome (h : s.Valid) (hx : (s.top x).isCell = false)
    (hy : (s.top y).isCell = false) (hsame : (s.top x).same (s.top y) = false) (hk : s.Kept s₁) :
    PairOutcome s x y site (unifyProper site (s.top x) (s.top y) s₁) := by
  unfold unifyProper
  cases hps : Ty.parts (s.top x) (s.top y) with
  | ok ps => exact .parts hx hy hsame hps hk
  | error kind =>
    cases kind with
    | kindMismatch =>
      -- Both sides are resolved for the report, which may meet a cell of some other store.
      cases hx₁ : s₁.ownsAll (s.top x) with
      | false =>
        obtain ⟨s₂, hr, hk₂⟩ := resolve_foreign hk.valid hx₁
        simp only [bind_of_error hr]
        rw [hk.view.ownsAll_eq] at hx₁
        exact .foreign (.inl (h.ownsAll_of_top_false hx₁)) (hk.trans hk₂)
      | true =>
        obtain ⟨s₂, hr, hk₂⟩ := resolve_ok hk.valid hx₁
        simp only [bind_of_ok hr]
        cases hy₂ : s₂.ownsAll (s.top y) with
        | false =>
          obtain ⟨s₃, hr', hk₃⟩ := resolve_foreign hk₂.valid hy₂
          simp only [bind_of_error hr']
          rw [hk₂.view.ownsAll_eq, hk.view.ownsAll_eq] at hy₂
          exact .foreign (.inr (h.ownsAll_of_top_false hy₂)) ((hk.trans hk₂).trans hk₃)
        | true =>
          obtain ⟨s₃, hr', hk₃⟩ := resolve_ok hk₂.valid hy₂
          simp only [bind_of_ok hr']
          rw [hk₂.view.resolve_eq, hk.view.resolve_eq, hk.view.resolve_eq]
          exact .mismatch hx hy hsame hps (.inr ⟨rfl, rfl⟩) ((hk.trans hk₂).trans hk₃)
    | _ => exact .mismatch hx hy hsame hps (.inl ⟨rfl, rfl⟩) hk

theorem owns_top_cell {z : Ty} (h : s.Valid) (hz : s.ownsTop z = true) (hr : s.top z = .cell r) :
    s.owns r = true := by
  cases z with
  | cell c => exact (h.top_eq_cell (ownsAll_iff.2 (by simpa [ownsTop] using hz)) hr).1
  | _ => simp [top] at hr

theorem unifyCell_outcome {v : Ty} (h : s.Valid) (hsides : v = x ∧ u = y ∨ v = y ∧ u = x)
    (hv : s.ownsTop v = true) (hcell : (s.top v).isCell = true) (hne : s.top u ≠ s.top v)
    (hk : s.Kept s₁) :
    PairOutcome s x y site ((do
      bind (s.top v) (s.top u) site
      return [] : StoreM (List (Ty × Ty))) s₁) := by
  obtain ⟨r, hr⟩ := Ty.isCell_iff.1 hcell
  have htop : s.top (.cell r) = .cell r := by rw [← hr, h.top_top]
  have hpair : s.top x = .cell r ∧ s.top y = s.top u ∨ s.top y = .cell r ∧ s.top x = s.top u := by
    rcases hsides with ⟨rfl, rfl⟩ | ⟨rfl, rfl⟩
    · exact .inl ⟨hr, rfl⟩
    · exact .inr ⟨hr, rfl⟩
  have hforeign : s.ownsAll u = false → s.ownsAll x = false ∨ s.ownsAll y = false := by
    rcases hsides with ⟨rfl, rfl⟩ | ⟨rfl, rfl⟩
    · exact .inr
    · exact .inl
  rw [hr] at hne ⊢
  have ho := bind_free_outcome h hk (owns_top_cell h hv hr) htop (h.top_top u) hne site
  generalize hb : bind (.cell r) (s.top u) site s₁ = res at ho
  cases ho with
  | foreign hof hk' =>
    rw [bind_of_error hb]
    exact .foreign (hforeign (h.ownsAll_of_top_false hof)) hk'
  | occurs hc hmem hk' =>
    rw [bind_of_error hb]
    exact .occurs hpair hc hmem hk'
  | binds hbinds =>
    rw [bind_of_ok hb]
    exact .binds hpair hbinds

theorem unifyTops_outcome (h : s.Valid) (hox : s.ownsTop x = true) (hoy : s.ownsTop y = true)
    (hk : s.Kept s₁) : PairOutcome s x y site (unifyTops site (s.top x) (s.top y) s₁) := by
  unfold unifyTops
  split
  · next hsame => exact .same hsame hk
  · next hsame =>
    split
    · next hx =>
      have hne : s.top y ≠ s.top x := by
        intro he
        obtain ⟨r, hr⟩ := Ty.isCell_iff.1 hx
        rw [he, hr] at hsame
        simp [Ty.same] at hsame
      exact unifyCell_outcome h (.inl ⟨rfl, rfl⟩) hox hx hne hk
    · next hx =>
      split
      · next hy =>
        have hne : s.top x ≠ s.top y := fun he => hx (by rw [he, hy])
        exact unifyCell_outcome h (.inr ⟨rfl, rfl⟩) hoy hy hne hk
      · next hy =>
        exact unifyProper_outcome h (by simpa using hx) (by simpa using hy)
          (by simpa using hsame) hk

theorem unifyPair_outcome (h : s.Valid) (x y : Ty) (site : Option Phrase) :
    PairOutcome s x y site (unifyPair site x y s) := by
  cases hx : s.ownsTop x with
  | false =>
    rw [unifyPair_eq, bind_of_error (find_foreign hx)]
    exact .foreign (.inl (ownsAll_eq_false hx)) (.refl h)
  | true =>
    cases hy : s.ownsTop y with
    | false =>
      obtain ⟨s₁, hfind₁, hk₁⟩ := find_ok h hx
      rw [unifyPair_eq, bind_of_ok hfind₁,
        bind_of_error (find_foreign (by rw [hk₁.view.ownsTop_eq, hy]))]
      exact .foreign (.inr (ownsAll_eq_false hy)) hk₁
    | true =>
      obtain ⟨s₁, hk, hrun⟩ := unifyPair_tops h hx hy
      rw [hrun]
      exact unifyTops_outcome h hx hy hk

theorem unifyPair_cases {res : EStateM.Result Fault Store (List (Ty × Ty))} (h : s.Valid)
    (hrun : unifyPair site x y s = res) : PairOutcome s x y site res :=
  hrun ▸ unifyPair_outcome h x y site

/-! ## The loop that unification comes to

In every turn the loop takes the first pair of a queue, settles it and puts the pairs of its parts at
the end. A round is the turns for the pairs that are in the queue when it begins, so a run of
unification is a run of the loop. -/

/-- Where the loop has got to: the store, and the pairs that are still to be settled. -/
structure Loop where
  store : Store
  queue : List (Ty × Ty)

/-- One turn of the loop. -/
inductive Turn (site : Option Phrase) : Loop → Loop → Prop
  | settle {s s' : Store} {x y : Ty} {queue ps : List (Ty × Ty)} :
      unifyPair site x y s = .ok ps s' → Turn site ⟨s, (x, y) :: queue⟩ ⟨s', queue ++ ps⟩

abbrev Turns (site : Option Phrase) : Loop → Loop → Prop := Relation.ReflTransGen (Turn site)

/-- After some turns the loop stops with a fault at the first pair of the queue. -/
def Stops (site : Option Phrase) (l : Loop) (fault : Fault) (s' : Store) : Prop :=
  ∃ s x y queue, Turns site l ⟨s, (x, y) :: queue⟩ ∧ unifyPair site x y s = .error fault s'

variable {s' : Store} {ps pairs : List (Ty × Ty)}
variable {fault : Fault} {fuel : Nat}

theorem unifyRound_turns (hrun : unifyRound site pairs s = .ok ps s') (queue : List (Ty × Ty)) :
    Turns site ⟨s, pairs ++ queue⟩ ⟨s', queue ++ ps⟩ := by
  induction pairs generalizing s ps queue with
  | nil =>
    cases hrun
    rw [nil_append, append_nil]
  | cons p pairs ih =>
    obtain ⟨parts, s₁, hpair, hrun⟩ := bind_eq_ok hrun
    obtain ⟨rest, s₂, hround, hrun⟩ := bind_eq_ok hrun
    cases hrun
    have hrest := ih hround (queue ++ parts)
    rw [← append_assoc, append_assoc queue] at hrest
    exact .head (.settle hpair) hrest

theorem unifyRound_stops (hrun : unifyRound site pairs s = .error fault s')
    (queue : List (Ty × Ty)) : Stops site ⟨s, pairs ++ queue⟩ fault s' := by
  induction pairs generalizing s queue with
  | nil => cases hrun
  | cons p pairs ih =>
    rcases bind_eq_error hrun with hpair | ⟨parts, s₁, hpair, hrun⟩
    · exact ⟨s, p.1, p.2, pairs ++ queue, .refl, hpair⟩
    rcases bind_eq_error hrun with hround | ⟨rest, s₂, -, hrun⟩
    · obtain ⟨s₂, x, y, queue', hturns, hstop⟩ := ih hround (queue ++ parts)
      rw [← append_assoc] at hturns
      exact ⟨s₂, x, y, queue', .head (.settle hpair) hturns, hstop⟩
    · cases hrun

theorem unifyWithin_turns (hrun : unifyWithin site fuel pairs s = .ok () s') :
    Turns site ⟨s, pairs⟩ ⟨s', []⟩ := by
  induction fuel generalizing s pairs with
  | zero =>
    cases pairs with
    | nil =>
      cases hrun
      exact .refl
    | cons p pairs => cases hrun
  | succ fuel ih =>
    cases pairs with
    | nil =>
      cases hrun
      exact .refl
    | cons p pairs =>
      obtain ⟨ps, s₁, hround, hrun⟩ := bind_eq_ok hrun
      have hfirst := unifyRound_turns hround []
      rw [append_nil, nil_append] at hfirst
      exact hfirst.trans (ih hrun)

theorem unifyWithin_stops (hrun : unifyWithin site fuel pairs s = .error fault s') :
    Stops site ⟨s, pairs⟩ fault s' ∨
      fault = .outOfFuel ∧ ∃ queue, Turns site ⟨s, pairs⟩ ⟨s', queue⟩ := by
  induction fuel generalizing s pairs with
  | zero =>
    cases pairs with
    | nil => cases hrun
    | cons p pairs =>
      cases hrun
      exact .inr ⟨rfl, _, .refl⟩
  | succ fuel ih =>
    cases pairs with
    | nil => cases hrun
    | cons p pairs =>
      rw [unifyWithin] at hrun
      rcases bind_eq_error hrun with hround | ⟨ps, s₁, hround, hrun⟩
      · have hstops := unifyRound_stops hround []
        rw [append_nil] at hstops
        exact .inl hstops
      · have hfirst := unifyRound_turns hround []
        rw [append_nil, nil_append] at hfirst
        rcases ih hrun with ⟨s₂, x, y, queue, hturns, hstop⟩ | ⟨hfuel, queue, hturns⟩
        · exact .inl ⟨s₂, x, y, queue, hfirst.trans hturns, hstop⟩
        · exact .inr ⟨hfuel, queue, hfirst.trans hturns⟩

/-- What it takes to follow a run from step to step: `I` holds of the pairs that are left, `R` ties
the store before to the store after, and `E` holds of the fault if there is one. -/
structure Upkeep (site : Option Phrase) (I : Store → Ty × Ty → Prop)
    (R : Store → Store → Prop) (E : Fault → Store → Prop) : Prop where
  kept {s s' : Store} : s.Kept s' → R s s'
  trans {s s' s'' : Store} : R s s' → R s' s'' → R s s''
  keeps {s s' : Store} {p : Ty × Ty} : R s s' → I s p → I s' p
  binds {s s' : Store} {x y u : Ty} {r : Cell} : s.Valid → I s (x, y) →
    (s.top x = .cell r ∧ s.top y = u ∨ s.top y = .cell r ∧ s.top x = u) → s.Binds r u s' → R s s'
  parts {s : Store} {x y : Ty} {ps : List (Ty × Ty)} : s.Valid → I s (x, y) →
    (s.top x).isCell = false → (s.top y).isCell = false → (s.top x).same (s.top y) = false →
    Ty.parts (s.top x) (s.top y) = .ok ps → ∀ p ∈ ps, I s p
  fault {s s' : Store} {x y : Ty} {f : Fault} : s.Valid → I s (x, y) →
    unifyPair site x y s = .error f s' → E f s'

namespace Upkeep

variable {I : Store → Ty × Ty → Prop} {R : Store → Store → Prop} {E : Fault → Store → Prop}

theorem pair (hw : Upkeep site I R E) (h : s.Valid) (hxy : I s (x, y)) :
    Ends (unifyPair site x y) s (fun ps s' => s'.Valid ∧ R s s' ∧ ∀ p ∈ ps, I s' p)
      fun f s' => R s s' ∧ E f s' := by
  have ho := unifyPair_outcome h x y site
  generalize hrun : unifyPair site x y s = res at ho
  cases ho with
  | foreign _ hk => exact .of_eq_error hrun ⟨hw.kept hk, hw.fault h hxy hrun⟩
  | same _ hk => exact .of_eq_ok hrun ⟨hk.valid, hw.kept hk, by simp⟩
  | occurs _ _ _ hk => exact .of_eq_error hrun ⟨hw.kept hk, hw.fault h hxy hrun⟩
  | binds hru hb => exact .of_eq_ok hrun ⟨hb.valid, hw.binds h hxy hru hb, by simp⟩
  | mismatch _ _ _ _ _ hk => exact .of_eq_error hrun ⟨hw.kept hk, hw.fault h hxy hrun⟩
  | parts hx hy hne hparts hk =>
    exact .of_eq_ok hrun ⟨hk.valid, hw.kept hk, fun p hp =>
      hw.keeps (hw.kept hk) (hw.parts h hxy hx hy hne hparts p hp)⟩

theorem turns (hw : Upkeep site I R E) {l l' : Loop} (hturns : Turns site l l')
    (h : l.store.Valid) (hqueue : ∀ p ∈ l.queue, I l.store p) :
    l'.store.Valid ∧ R l.store l'.store ∧ ∀ p ∈ l'.queue, I l'.store p := by
  induction hturns with
  | refl => exact ⟨h, hw.kept (.refl h), hqueue⟩
  | tail _ hturn ih =>
    obtain ⟨hvalid, hr, hpairs⟩ := ih
    cases hturn with
    | settle hpair =>
      obtain ⟨hxy, hrest⟩ := forall_mem_cons.1 hpairs
      obtain ⟨hvalid', hr', hps⟩ := (hw.pair hvalid hxy).of_ok hpair
      exact ⟨hvalid', hw.trans hr hr', forall_mem_append.2
        ⟨fun q hq => hw.keeps hr' (hrest q hq), hps⟩⟩

theorem within (hw : Upkeep site I R E) (h : s.Valid) (fuel : Nat) (hpairs : ∀ p ∈ pairs, I s p) :
    Ends (unifyWithin site fuel pairs) s (fun _ s' => R s s')
      fun f s' => R s s' ∧ (f = .outOfFuel ∨ E f s') := by
  constructor
  · exact fun hrun => (hw.turns (unifyWithin_turns hrun) h hpairs).2.1
  · intro f s' hrun
    rcases unifyWithin_stops hrun with ⟨s₁, x, y, queue, hturns, hpair⟩ | ⟨hfuel, queue, hturns⟩
    · obtain ⟨hvalid, hr, hqueue⟩ := hw.turns hturns h hpairs
      obtain ⟨hr', hf⟩ := (hw.pair hvalid (hqueue (x, y) (.head _))).of_error hpair
      exact ⟨hw.trans hr hr', .inr hf⟩
    · exact ⟨(hw.turns hturns h hpairs).2.1, .inl hfuel⟩

/-- A relation that holds of every step holds of a whole run, however it ends. -/
theorem of_forall (hkept : ∀ {s s' : Store}, s.Kept s' → R s s')
    (htrans : ∀ {s s' s'' : Store}, R s s' → R s' s'' → R s s'')
    (hbinds : ∀ {s s' : Store} {r : Cell} {u : Ty}, s.Valid → s.Binds r u s' → R s s') :
    Upkeep site (fun _ _ => True) R fun _ _ => True where
  kept := hkept
  trans := htrans
  keeps _ _ := trivial
  binds h _ _ hb := hbinds h hb
  parts _ _ _ _ _ _ _ _ := trivial
  fault _ _ _ := trivial

theorem endState_unify (hw : Upkeep site (fun _ _ => True) R E) (h : s.Valid) (a b : Ty) :
    R s (endState (unify a b site) s) :=
  (hw.within h (rounds s a b) fun _ _ => trivial).endState (fun _ _ hr => hr) fun _ _ hr => hr.1

end Upkeep

theorem upkeep_evolves : Upkeep site (fun _ _ => True) Evolves fun _ _ => True :=
  .of_forall Kept.evolves .trans fun h hb => hb.evolves h

theorem unify_evolves (h : s.Valid) (a b : Ty) (site : Option Phrase) :
    s.Evolves (endState (unify a b site) s) :=
  upkeep_evolves.endState_unify h a b

end StoreM

end TensorTyping
