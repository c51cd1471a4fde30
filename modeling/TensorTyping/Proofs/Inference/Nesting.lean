import TensorTyping.Proofs.Engine.Sides
import TensorTyping.Proofs.Inference.Coverage
import TensorTyping.Proofs.Inference.LocalCalls
import TensorTyping.Proofs.Inference.Quantifiers

/-!
# A function inside a body

A function that stands inside a body may have type parameters of its own. Its type can be read off
its annotations, it uses no variable from around it but those whose types are written as well, and it
is only called, perhaps by a name that it is bound to. Then typing keeps the inside of the function
apart from all that is around it: the cells made inside are unified with types of the inside only,
and what comes out is a type without cells, which every call instantiates.
-/
namespace TensorTyping

open List

namespace Ty

variable {t u : Ty} {p : TypeParam}

/-- The type has no cells and binds none of the parameters, and none of them is free in it but those
allowed. -/
@[mk_iff]
structure Limited (params allowed : List TypeParam) (t : Ty) : Prop where
  complete : t.cellOccurrences = []
  binders : ∀ u ∈ t.constituents, ∀ p ∈ u.binders, p ∉ params
  free : ∀ p ∈ t.paramOccurrences [], p ∈ params → p ∈ allowed

instance (params allowed : List TypeParam) (t : Ty) : Decidable (t.Limited params allowed) :=
  decidable_of_iff _ (limited_iff params allowed t).symm

namespace Limited

variable {params allowed allowed' : List TypeParam}

theorem mono (h : t.Limited params allowed) (hsub : allowed ⊆ allowed') :
    t.Limited params allowed' :=
  ⟨h.complete, h.binders, fun p hp hparams => hsub (h.free p hp hparams)⟩

theorem child (h : t.Limited params allowed) (hu : u ∈ t.children) : u.Limited params allowed where
  complete := (cellOccurrences_eq_nil_iff.1 h.complete).2 u hu
  binders v hv := h.binders v (mem_constituents.2 (.inr ⟨u, hu, hv⟩))
  free p hp hparams :=
    h.free p (mem_free.2 (.inr ⟨u, hu, hp, fun hb =>
      h.binders t (mem_constituents.2 (.inl rfl)) p hb hparams⟩)) hparams

theorem intro (ht : t.isLeaf = false) (hb : ∀ p ∈ t.binders, p ∉ params)
    (h : ∀ u ∈ t.children, u.Limited params allowed) : t.Limited params allowed where
  complete := by
    refine cellOccurrences_eq_nil_iff.2 ⟨?_, fun u hu => (h u hu).complete⟩
    cases t <;> first | rfl | cases ht
  binders v hv := by
    rcases mem_constituents.1 hv with rfl | ⟨u, hu, hv⟩
    · exact hb
    · exact (h u hu).binders v hv
  free p hp := by
    rcases mem_free.1 hp with rfl | ⟨u, hu, hp, -⟩
    · cases ht
    · exact (h u hu).free p hp

theorem param (hp : p ∈ params → p ∈ allowed) : (Ty.param p).Limited params allowed where
  complete := rfl
  binders := by simp [constituents]
  free q hq := by
    obtain rfl : q = p := by simpa [paramOccurrences] using hq
    exact hp

end Limited

end Ty

namespace Divide

variable {D D' : Divide} {side : Side} {s s' : Store} {t u : Ty}
variable {ps : List TypeParam}

/-- The parameters that may be free in a type without cells on one side. -/
def scope (D : Divide) : Side → List TypeParam
  | .inside => D.params
  | .outside => []

theorem On.param {p : TypeParam} (hp : p ∈ D.params → p ∈ D.scope side) :
    D.On side s (.param p) := by
  refine .of_closed (.intro ⟨by simp, ?_⟩ (by simp)) rfl
  cases side with
  | inside => trivial
  | outside => exact fun hmem => absurd (hp hmem) not_mem_nil

/-- What comes in for parameters is on a side, and so is the rest of the type. -/
theorem On.mapChildren {h : Ty → Ty} (hleaf : t.isLeaf = false)
    (hb : ∀ p ∈ t.binders, p ∉ D.params) (hh : ∀ u ∈ t.children, D.On side s (h u)) :
    D.On side s (t.mapChildren h) := by
  refine .intro ?_ ?_ fun v hv => ?_
  · cases t <;> first | rfl | cases hleaf
  · cases t <;> exact hb
  · rw [Ty.children_mapChildren] at hv
    obtain ⟨u, hu, rfl⟩ := mem_map.1 hv
    exact hh u hu

theorem on_replace_of_limited {allowed : List TypeParam} {f : TypeParam → Ty}
    (hf : ∀ p, (p ∈ D.params → p ∈ allowed) → D.On side s (f p))
    (ht : t.Limited D.params allowed) : D.On side s (t.replace f .cell) := by
  induction t using Ty.induction_leaves with
  | cell c => exact absurd ht.complete (by simp)
  | param p => exact hf p (ht.free p (by simp [Ty.paramOccurrences]))
  | node t hleaf ih =>
    rw [Ty.replace_of_not_leaf f .cell hleaf]
    exact .mapChildren hleaf (ht.binders t (Ty.mem_constituents.2 (.inl rfl))) fun u hu =>
      ih u hu (ht.child hu)

theorem on_of_limited (ht : t.Limited D.params (D.scope side)) : D.On side s t := by
  have hid : t.replace .param .cell = t := t.mapCells_id
  rw [← hid]
  exact on_replace_of_limited (fun p hp => .param hp) ht

/-- The type is on a side as soon as types of this side come in for the parameters. -/
def Ripe (D : Divide) (side : Side) (s : Store) (ps : List TypeParam) (t : Ty) : Prop :=
  D.On side s t ∨ t.Limited D.params (ps ++ D.scope side)

theorem Ripe.keeps {side' : Side} (h : D.Ripe side s ps t) (hs : Keeps side' D s D' s') :
    D'.Ripe side s' ps t := by
  refine h.imp hs.on fun h => ?_
  have hscope : D'.scope side = D.scope side := by cases side <;> simp [scope, hs.params_eq]
  rwa [hs.params_eq, hscope]

theorem Ripe.on (h : D.Ripe side s [] t) : D.On side s t := h.elim id on_of_limited

theorem Ripe.apply {ts : List Ty} (hlen : ts.length = ps.length) (hts : ∀ t ∈ ts, D.On side s t)
    (h : D.Ripe side s ps t) : D.On side s ((Substitution.ofParams ps ts).apply t) := by
  have hcell : (Substitution.ofParams ps ts).onCell = .cell :=
    funext (Substitution.onCell_ofParams ps ts)
  rw [Substitution.apply, hcell]
  rcases h with h | h
  · refine h.replace (D.part_mapChildren_iff side) fun p hp => ?_
    rcases Substitution.onParam_ofParams ps ts p with heq | hmem
    · rwa [heq]
    · exact hts _ hmem
  · refine on_replace_of_limited (fun p hp => ?_) h
    by_cases hmem : p ∈ ps
    · exact hts _ (Substitution.onParam_mem hlen hmem)
    · rw [Substitution.onParam_of_not_mem hmem]
      exact .param fun hp' => (mem_append.1 (hp hp')).resolve_left hmem

end Divide

namespace Expr

def reads : Expr → List Serial
  | .var x => [x.serial]
  | _ => []

mutual
/-- Whether the type of an expression is all written, given variables of which it is. -/
def settled (known : List Serial) : Expr → Bool
  | .var x => known.contains x.serial
  | .constant _ _ => true
  | .fn _ params body ret _ _ =>
    params.all (fun x => x.ascription.isSome) &&
      (ret.isSome || body.settled (params.map (fun x => x.serial) ++ known))
  | .letIn _ x _ body => body.settled (known.filter (· != x.serial))
  | .tuple _ fields => settledAll known fields
  | .proj _ t _ => t.settled known
  | .cond _ _ whenTrue _ => whenTrue.settled known
  | .matchOn _ _ clauses => settledFirst known clauses
  | _ => false
def settledAll (known : List Serial) : List Expr → Bool
  | [] => true
  | e :: es => e.settled known && settledAll known es
/-- The first clause says what the type is. -/
def settledFirst (known : List Serial) : List (Pattern × Expr) → Bool
  | [] => false
  | (p, body) :: _ => body.settled (known.filter (!p.inner.contains ·))
end

/-- The serial numbers that a node brings in, without those of variables whose type is written. -/
def unsettled (known : List Serial) : Expr → List Serial
  | .fn n params _ _ _ _ => n :: (params.filter fun x => x.ascription.isNone).map fun x => x.serial
  | .letIn n x value _ =>
    n :: if value.function?.isNone && value.settled known then [] else [x.serial]
  | e => e.ownSerials

end Expr

/-- A function that stands inside a body, with the serial numbers of the variables that it is bound
to and of those from around it that it may use. -/
structure LocalFunction where
  function : Function
  names : List Serial
  given : List Serial

namespace LocalFunction

variable {r : Ty × List Ty}

variable {F : LocalFunction} {D D' D'' : Divide} {side : Side}
variable {site : Phrase} {attrs : Attrs} {Γ : Context} {ts : List Ty} {side' : Side} {n : Serial}
  {e : Expr}

abbrev params (F : LocalFunction) : List TypeParam := F.function.typeParams

abbrev expr (F : LocalFunction) : Expr := F.function.toExpr

abbrev serials (F : LocalFunction) : List Serial := F.expr.serials

/-- The parameters that may be written on a side. -/
def scope (F : LocalFunction) : Side → List TypeParam
  | .inside => F.params
  | .outside => []

/-- Whether a variable may be used on a side, other than to call the function. -/
def Visible (F : LocalFunction) : Side → Serial → Prop
  | .inside, n => n ∈ F.serials ∨ n ∈ F.given
  | .outside, n => n ∉ F.serials ∧ n ∉ F.names

/-- Whether a serial number may be brought in on a side. -/
def Placed (F : LocalFunction) : Side → Serial → Prop
  | .inside, n => n ∈ F.serials
  | .outside, n => n ∉ F.serials ∧ n ∉ F.names

instance (side : Side) (n : Serial) : Decidable (F.Visible side n) := by
  cases side <;> unfold Visible <;> infer_instance

instance (side : Side) (n : Serial) : Decidable (F.Placed side n) := by
  cases side <;> unfold Placed <;> infer_instance

/-- What is asked of a node on a side. Around the function its parameters are not written, its names
are not used, and what it may use are variables whose type is written. -/
@[mk_iff]
structure Node (F : LocalFunction) (side : Side) (e : Expr) : Prop where
  written : ∀ t ∈ e.written, t.Limited F.params (F.scope side)
  typeParams : ∀ p ∈ e.typeParams, p ∉ F.params
  placed : ∀ n ∈ e.ownSerials, F.Placed side n
  unsettled : ∀ n ∈ e.unsettled F.given, n ∉ F.given
  reads : ∀ n ∈ e.reads, F.Visible side n

instance (side : Side) (e : Expr) : Decidable (F.Node side e) :=
  decidable_of_iff _ (node_iff F side e).symm

/-- The function itself, or one of its names. -/
def Denotes (F : LocalFunction) (e : Expr) : Prop :=
  e = F.expr ∨ ∃ x : Var, e = .var x ∧ x.serial ∈ F.names

/-- An expression that is inside the function, or around it. The function is called where it stands
or bound to one of its names, and its names are called or bound again. -/
inductive Admits (F : LocalFunction) : Side → Expr → Prop
  | node {side : Side} {e : Expr} (here : F.Node side e)
      (children : ∀ c ∈ e.children, F.Admits side c) : F.Admits side e
  | call {n : Serial} {callee : Expr} {args : List Expr} {typeArgs : Option (List Ty)}
      {attrs : Attrs} (here : F.Node .outside (.call n callee args typeArgs attrs))
      (called : F.Denotes callee) (rest : ∀ c ∈ args, F.Admits .outside c) :
      F.Admits .outside (.call n callee args typeArgs attrs)
  | bind {n : Serial} {x : Var} {value body : Expr} (here : F.Placed .outside n)
      (bound : F.Denotes value) (name : x.serial ∈ F.names) (free : x.ascription = none)
      (rest : F.Admits .outside body) : F.Admits .outside (.letIn n x value body)

/-- What is asked of the function itself. -/
structure Sealed (F : LocalFunction) : Prop where
  generic : F.params ≠ []
  settled : F.expr.settled F.given = true
  written : ∀ t ∈ F.expr.written, t.Limited F.params F.params
  given : ∀ n ∈ F.given, n ∉ F.serials
  names : ∀ n ∈ F.names, n ∉ F.serials ∧ n ∉ F.given
  body : F.Admits .inside F.function.body

/-- The parameters are written in a signature only as its own. -/
def Fine (F : LocalFunction) (sig : Signature) : Prop :=
  ∀ u ∈ sig.toTy.children, u.Limited F.params sig.params

instance (sig : Signature) : Decidable (F.Fine sig) := by
  unfold Fine
  infer_instance

def Generic (F : LocalFunction) (s : Store) (t : Ty) : Prop :=
  ∃ as r rs, s.top t = .func as r F.params rs ∧
    ∀ u ∈ (Ty.func as r F.params rs).children, u.Limited F.params F.params

theorem Generic.keeps {s s' : Store} {t : Ty} (h : F.Generic s t)
    (hs : Divide.Keeps side D s D' s') : F.Generic s' t := by
  obtain ⟨as, r, rs, htop, hlimited⟩ := h
  refine ⟨as, r, rs, ?_, hlimited⟩
  rw [hs.top_eq (by rw [htop]; rfl), htop]

open Inference

variable {s s' s'' : State} {env : Env} {t u : Ty}
variable {sig : Signature} {explicit : Option (List Ty)}

/-- What is noted around the function: a type of the outside, or that of the function. -/
def Noted (F : LocalFunction) (D : Divide) (s : Store) (t : Ty) : Prop :=
  D.On .outside s t ∨ F.Generic s t

/-- A state in the course of typing with the inside and the outside apart. -/
structure Stands (F : LocalFunction) (D : Divide) (s : State) : Prop where
  params_eq : D.params = F.params
  valid : s.engine.Valid
  unborn : D.Unborn s.engine.store
  slots : ∀ i ∈ s.engine.waiting, D.Sided s.engine.store i
  provisional : ∀ {g t}, s.provisional.get? g = some t → D.On .outside s.engine.store t
  schemes : ∀ {g sig}, s.schemes.get? g = some sig → F.Fine sig
  notes : ∀ {n t}, s.note? n = some t → n ∉ F.serials → F.Noted D s.engine.store t

/-- The state has moved on by work on one side. -/
structure Goes (F : LocalFunction) (side : Side) (D : Divide) (s : State) (D' : Divide)
    (s' : State) : Prop where
  stands : F.Stands D' s'
  keeps : Divide.Keeps side D s.engine.store D' s'.engine.store
  provisional_eq : s'.provisional = s.provisional
  schemes_eq : s'.schemes = s.schemes
  session_eq : s'.session = s.session

theorem Stands.scope_eq (h : F.Stands D s) (side : Side) : D.scope side = F.scope side := by
  cases side with
  | inside => exact h.params_eq
  | outside => rfl

theorem Noted.keeps {s s' : Store} (h : F.Noted D s t) (hs : Divide.Keeps side D s D' s') :
    F.Noted D' s' t := h.imp hs.on fun h => h.keeps hs

namespace Goes

theorem trans (h : F.Goes side D s D' s') (h' : F.Goes side D' s' D'' s'') :
    F.Goes side D s D'' s'' where
  stands := h'.stands
  keeps := h.keeps.trans h'.keeps
  provisional_eq := h'.provisional_eq.trans h.provisional_eq
  schemes_eq := h'.schemes_eq.trans h.schemes_eq
  session_eq := h'.session_eq.trans h.session_eq

theorem outside (h : F.Goes side D s D' s') : F.Goes .outside D s D' s' :=
  ⟨h.stands, h.keeps.outside, h.provisional_eq, h.schemes_eq, h.session_eq⟩

section

variable (h : F.Stands D s)

include h

theorem of_gains {e : Engine} {new : List Instance} (hgains : s.engine.Gains new e)
    (hkeeps : Divide.Keeps side D s.engine.store D' e.store) (hunborn : D'.Unborn e.store)
    (hnew : ∀ i ∈ new, D'.Sided e.store i) : F.Goes side D s D' { s with engine := e } where
  stands :=
    { params_eq := hkeeps.params_eq.trans h.params_eq
      valid := hgains.valid h.valid
      unborn := hunborn
      slots := fun i hi => by
        rw [hgains.waiting_eq, mem_append] at hi
        exact hi.elim (fun hi => (h.slots i hi).keeps hkeeps) (hnew i)
      provisional := fun hg => hkeeps.on (h.provisional hg)
      schemes := h.schemes
      notes := fun hn hout => (h.notes hn hout).keeps hkeeps }
  keeps := hkeeps
  provisional_eq := rfl
  schemes_eq := rfl
  session_eq := rfl

theorem of_rests {e : Engine} (hrests : s.engine.Rests e)
    (hkeeps : Divide.Keeps side D s.engine.store D e.store) :
    F.Goes side D s D { s with engine := e } :=
  of_gains h (.of_rests hrests) hkeeps (h.unborn.later hrests.evolves.later) (by simp)

theorem of_same (hengine : s'.engine = s.engine) (hprovisional : s'.provisional = s.provisional)
    (hschemes : s'.schemes = s.schemes) (hsession : s'.session = s.session)
    (hnotes : s'.nodeTypes = s.nodeTypes) : F.Goes side D s D s' where
  stands :=
    { params_eq := h.params_eq
      valid := hengine ▸ h.valid
      unborn := hengine ▸ h.unborn
      slots := hengine ▸ h.slots
      provisional := fun hg => hengine ▸ h.provisional (hprovisional ▸ hg)
      schemes := fun hg => h.schemes (hschemes ▸ hg)
      notes := fun hn hout => by
        rw [State.note?, hnotes] at hn
        rw [hengine]
        exact h.notes hn hout }
  keeps := by
    rw [hengine]
    exact .refl D h.valid.store
  provisional_eq := hprovisional
  schemes_eq := hschemes
  session_eq := hsession

theorem refl : F.Goes side D s D s := of_same h rfl rfl rfl rfl rfl

theorem noted (p : Phrase) (ht : n ∉ F.serials → F.Noted D s.engine.store t) :
    F.Goes side D s D (s.noted n p t) where
  stands :=
    { h with
      notes := fun {m u} hm hout => by
        rw [State.noted, note?_insert] at hm
        split at hm
        · next heq =>
          cases hm
          exact ht (heq ▸ hout)
        · exact h.notes hm hout }
  keeps := .refl D h.valid.store
  provisional_eq := rfl
  schemes_eq := rfl
  session_eq := rfl

theorem placed (p : Phrase) (hn : F.Placed side n) (ht : D.On side s.engine.store t) :
    F.Goes side D s D (s.noted n p t) := by
  refine noted h p fun hout => ?_
  cases side with
  | inside => exact absurd hn hout
  | outside => exact .inl ht

theorem notedExpr (ht : e.serial ∉ F.serials → F.Noted D s.engine.store t) :
    F.Goes side D s D (s.notedExpr e t) := by
  unfold State.notedExpr
  split
  · exact refl h
  · exact noted h _ ht

theorem placedExpr (hn : F.Placed side e.serial) (ht : D.On side s.engine.store t) :
    F.Goes side D s D (s.notedExpr e t) := by
  unfold State.notedExpr
  split
  · exact refl h
  · exact placed h _ hn ht

theorem of_looks (hs : Looks s s') : F.Goes side D s D s' := by
  have hgains : s.engine.Gains [] s'.engine := by
    refine ⟨hs.kept.evolves, ?_, rfl, hs.added_eq⟩
    rw [hs.waiting_eq, append_nil]
  rw [hs.rest_eq]
  exact of_gains h hgains (.of_kept D hs.kept) (h.unborn.later hs.kept.later) (by simp)

end

end Goes

section

variable (h : F.Stands D s)

include h

theorem fresh_goes (side : Side) (hrun : fresh s = .ok t s') :
    ∃ D', F.Goes side D s D' s' ∧ D'.On side s'.engine.store t := by
  obtain ⟨hrests, hstate⟩ := onStore_rests (StoreM.fresh_evolves h.valid.store) hrun
  obtain ⟨rfl, hstore⟩ := fresh_eq_ok hrun
  obtain ⟨hkeeps, hunborn, hon⟩ := Divide.fresh_keeps h.valid.store h.unborn side
  rw [← hstore] at hkeeps hunborn hon
  refine ⟨_, ?_, hon⟩
  rw [hstate]
  exact .of_gains h (.of_rests hrests) hkeeps hunborn (by simp)

theorem fresh_apart_goes (side : Side) (hrun : fresh s = .ok t s') :
    F.Goes side D s D s' ∧ ∃ c, t = .cell c ∧ s'.engine.store.owns c = true ∧
      D.side? c = none ∧ s'.engine.store.value c = .cell c := by
  obtain ⟨hrests, hstate⟩ := onStore_rests (StoreM.fresh_evolves h.valid.store) hrun
  obtain ⟨rfl, hstore⟩ := fresh_eq_ok hrun
  have hkeeps : Divide.Keeps side D s.engine.store D s.engine.store.fresh.2 :=
    Divide.fresh_apart_keeps h.valid.store
  rw [← hstore] at hkeeps
  refine ⟨?_, _, rfl, hstore ▸ s.engine.store.owns_new_fresh,
    h.unborn _ s.engine.store.owns_new, ?_⟩
  · rw [hstate]
    exact .of_rests h hrests hkeeps
  · rw [hstore, h.valid.store.value_fresh]
    exact h.valid.store.value_foreign s.engine.store.owns_new

theorem unify_goes {a b : Ty} (ha : D.On side s.engine.store a) (hb : D.On side s.engine.store b)
    (hrun : unify a b site s = .ok () s') : F.Goes side D s D s' := by
  obtain ⟨hrests, hstate⟩ := onStore_rests (StoreM.unify_evolves h.valid.store a b _) hrun
  have hkeeps : Divide.Keeps side D s.engine.store D s'.engine.store :=
    Divide.unify_keeps h.valid.store ha hb (EngineM.onStore_eq_ok (onEngine_eq_ok hrun).1)
  rw [hstate]
  exact .of_rests h hrests hkeeps

theorem unify_apart_goes {c : Cell} (hc : D.side? c = none)
    (hfree : s.engine.store.value c = .cell c) (ht : t.cellOccurrences = [])
    (hcell : t.isCell = false) (hrun : unify (.cell c) t site s = .ok () s') :
    F.Goes .outside D s D s' ∧ s'.engine.store.top (.cell c) = t := by
  obtain ⟨hrests, hstate⟩ := onStore_rests (StoreM.unify_evolves h.valid.store _ t _) hrun
  have hunify := EngineM.onStore_eq_ok (onEngine_eq_ok hrun).1
  refine ⟨?_, StoreM.unify_free_cell h.valid.store hfree hcell hunify⟩
  rw [hstate]
  exact .of_rests h hrests (Divide.unify_apart_keeps h.valid.store hc hfree ht hunify)

theorem relate_goes {r : TypeRelation} (hr : ∀ a ∈ r.args, D.On side s.engine.store a)
    (hrun : relate Γ r site attrs s = .ok () s') : F.Goes side D s D s' := by
  rw [relate_eq_ok hrun]
  refine .of_gains h (.enlist h.valid.store rfl) (.refl D h.valid.store) h.unborn fun i hi => ?_
  obtain rfl := mem_singleton.1 hi
  exact ⟨side, hr⟩

theorem relateAll_goes {rs : List TypeRelation}
    (hrs : ∀ r ∈ rs, ∀ a ∈ r.args, D.On side s.engine.store a)
    (hrun : relateAll Γ site attrs rs s = .ok () s') : F.Goes side D s D s' := by
  induction rs generalizing s with
  | nil =>
    cases hrun
    exact .refl h
  | cons r rs ih =>
    obtain ⟨_, s₁, hr, hrun⟩ := bind_ok_iff.1 hrun
    have h₁ := relate_goes h (hrs r (.head _)) hr
    exact h₁.trans (ih h₁.stands
      (fun r hr a ha => h₁.keeps.on (hrs r (.tail _ hr) a ha)) hrun)

theorem freshFor_goes {α : Type} {as : List α} (side : Side) (hrun : freshFor as s = .ok ts s') :
    ∃ D', F.Goes side D s D' s' ∧ ∀ t ∈ ts, D'.On side s'.engine.store t := by
  induction as generalizing D s ts with
  | nil =>
    obtain ⟨rfl, rfl⟩ := freshFor_nil_ok_iff.1 hrun
    exact ⟨D, .refl h, by simp⟩
  | cons a as ih =>
    obtain ⟨t, us, s₁, ht, hus, rfl⟩ := freshFor_cons_ok_iff.1 hrun
    obtain ⟨D₁, h₁, hon⟩ := fresh_goes h side ht
    obtain ⟨D₂, h₂, hons⟩ := ih h₁.stands hus
    exact ⟨D₂, h₁.trans h₂, forall_mem_cons.2 ⟨h₂.keeps.on hon, hons⟩⟩

theorem instantiate_goes (hsig : ∀ u ∈ sig.toTy.children, D.Ripe side s.engine.store sig.params u)
    (hexplicit : ∀ t ∈ explicit.getD [], D.On side s.engine.store t)
    (hrun : instantiate Γ sig explicit site attrs s = .ok r s') :
    ∃ D', F.Goes side D s D' s' ∧ D'.On side s'.engine.store r.1 := by
  have hslots {x : TypeRelation} (hx : x ∈ sig.relations) {a : Ty} (ha : a ∈ x.args) :
      a ∈ sig.toTy.children := by
    simp only [Signature.toTy, Ty.mem_children_func]
    exact .inr (.inr ⟨x, hx, ha⟩)
  -- However the type arguments are chosen, they are on the side.
  have hchosen {choose : InferM (List Ty)}
      (hchoose : ∀ {ts s₁}, choose s = .ok ts s₁ → ts.length = sig.params.length ∧
        ∃ D₁, F.Goes side D s D₁ s₁ ∧ ∀ t ∈ ts, D₁.On side s₁.engine.store t)
      (hinst : InstanceRun Γ sig choose site attrs s r s') :
      ∃ D', F.Goes side D s D' s' ∧ D'.On side s'.engine.store r.1 := by
    unfold InstanceRun at hinst
    split at hinst
    · next hempty =>
      rw [List.isEmpty_iff] at hempty
      obtain ⟨rfl, hrel⟩ := hinst
      rw [hempty] at hsig
      have hon u (hu : u ∈ sig.toTy.children) := (hsig u hu).on
      have h₁ := relateAll_goes h (fun x hx a ha => hon a (hslots hx ha)) hrel
      refine ⟨D, h₁, h₁.keeps.on (.intro rfl ?_ hon)⟩
      simp [Signature.toTy, hempty]
    · obtain ⟨s₁, hts, hrel, hr⟩ := hinst
      obtain ⟨hlen, D₁, h₁, hon⟩ := hchoose hts
      have happly u (hu : u ∈ sig.toTy.children) :=
        ((hsig u hu).keeps h₁.keeps).apply hlen hon
      have h₂ : F.Goes side D₁ s₁ D₁ s' := relateAll_goes h₁.stands (fun x' hx' a' ha' => by
        obtain ⟨x, hx, rfl⟩ := mem_map.1 hx'
        obtain ⟨a, ha, rfl⟩ := mem_map.1 ha'
        exact happly a (hslots hx ha)) hrel
      rw [hr]
      refine ⟨D₁, h₁.trans h₂, h₂.keeps.on (.func (fun a' ha' => ?_) (happly _ ?_) (by simp)
        (by simp))⟩
      · obtain ⟨a, ha, rfl⟩ := mem_map.1 ha'
        exact happly a (by simp [Signature.toTy, ha])
      · simp [Signature.toTy]
  cases explicit with
  | none =>
    refine hchosen (fun hts => ⟨(freshFor_eq_ok hts).1, freshFor_goes h side hts⟩)
      (instantiate_none_ok_iff.1 hrun)
  | some ts =>
    obtain ⟨hlen, -, hinst⟩ := instantiate_some_ok_iff.1 hrun
    refine hchosen (fun hts => ?_) hinst
    obtain ⟨rfl, rfl⟩ := pure_ok_iff.1 hts
    exact ⟨hlen, D, .refl h, hexplicit⟩

end

/-- What an environment says of a variable, on a side. -/
def Bound (F : LocalFunction) (D : Divide) (s : Store) : Side → Serial → Ty → Prop
  | .inside, n, t =>
    (n ∈ F.serials → D.On .inside s t) ∧ (n ∈ F.given → t.Limited F.params [])
  | .outside, n, t =>
    n ∉ F.serials ∧ (n ∈ F.given → t.Limited F.params []) ∧ (n ∈ F.names → F.Generic s t) ∧
      (n ∉ F.names → D.On .outside s t)

theorem Bound.keeps {s s' : Store} (h : F.Bound D s side' n t) (hs : Divide.Keeps side D s D' s') :
    F.Bound D' s' side' n t := by
  cases side' with
  | inside => exact ⟨fun hn => hs.on (h.1 hn), h.2⟩
  | outside =>
    obtain ⟨hout, hgiven, hname, hother⟩ := h
    exact ⟨hout, hgiven, fun hn => (hname hn).keeps hs, fun hn => hs.on (hother hn)⟩

theorem Bound.of_placed {s : Store} (hn : F.Placed side n)
    (hgiven : n ∈ F.given → t.Limited F.params []) (ht : D.On side s t) : F.Bound D s side n t := by
  cases side with
  | inside => exact ⟨fun _ => ht, hgiven⟩
  | outside => exact ⟨hn.1, hgiven, fun hname => absurd hname hn.2, fun _ => ht⟩

/-- The variables of an environment are as they should be on a side. -/
def Suits (F : LocalFunction) (D : Divide) (s : Store) (side : Side) (env : Env) : Prop :=
  ∀ x ∈ env, F.Bound D s side x.1 x.2

theorem Suits.keeps {s s' : Store} (h : F.Suits D s side' env) (hs : Divide.Keeps side D s D' s') :
    F.Suits D' s' side' env := fun x hx => (h x hx).keeps hs

theorem Suits.append {s : Store} {env' : Env} (h : F.Suits D s side env)
    (h' : F.Suits D s side env') : F.Suits D s side (env ++ env') := fun x hx =>
  (mem_append.1 hx).elim (h x) (h' x)

theorem Suits.cons {s : Store} (ht : F.Bound D s side n t) (h : F.Suits D s side env) :
    F.Suits D s side ((n, t) :: env) :=
  forall_mem_cons.2 ⟨ht, h⟩

theorem Suits.enter {s : Store} (h : F.Suits D s .outside env) : F.Suits D s .inside env :=
  fun x hx => ⟨fun hn => absurd hn (h x hx).1, (h x hx).2.1⟩

theorem Suits.lookup (h : F.Suits D s.engine.store side env) (hs : F.Stands D s)
    (hn : F.Visible side n) (ht : env.lookup n = some t) :
    D.On side s.engine.store t ∧ (n ∉ F.serials → F.Noted D s.engine.store t) := by
  have hbound := h _ (mem_of_lookup ht)
  cases side with
  | outside =>
    have hon := hbound.2.2.2 hn.2
    exact ⟨hon, fun _ => .inl hon⟩
  | inside =>
    rcases hn with hn | hn
    · exact ⟨hbound.1 hn, fun hout => absurd hn hout⟩
    · have hlimited := hbound.2 hn
      rw [← hs.params_eq] at hlimited
      exact ⟨Divide.on_of_limited (hlimited.mono (nil_subset _)),
        fun _ => .inl (Divide.on_of_limited hlimited)⟩

/-- The functions that the inside refers to, seen from an expression on a side. -/
def Uses (F : LocalFunction) : Side → Expr → Global → Prop
  | .inside, e, g => g ∈ e.mentions
  | .outside, e, g => F.expr ∈ e.parts ∧ g ∈ F.expr.mentions

/-- None of the functions that the inside refers to has a provisional type. -/
def Silent (F : LocalFunction) (side : Side) (e : Expr) (s : State) : Prop :=
  ∀ g, F.Uses side e g → s.provisional.get? g = none

theorem Silent.child {c : Expr} (h : F.Silent side e s) (hc : c ∈ e.children) :
    F.Silent side c s := by
  intro g hg
  apply h
  cases side with
  | inside => exact Expr.mentions_of_child hc hg
  | outside => exact ⟨Expr.parts_of_child hc hg.1, hg.2⟩

theorem Silent.goes (h : F.Silent side e s) (hs : F.Goes side' D s D' s') : F.Silent side e s' := by
  intro g hg
  rw [hs.provisional_eq]
  exact h g hg

/-- The signatures that are there from the beginning do not mention the parameters. -/
structure Serves (F : LocalFunction) (Γ : Context) : Prop where
  operators : ∀ {name sig}, Γ.operators.table.get? name = some sig → F.Fine sig
  declared : ∀ {g sig}, Γ.declared? g = some sig → F.Fine sig

theorem Stands.limited (h : F.Stands D s) (ht : t.Limited F.params (F.scope side)) :
    D.On side s.engine.store t :=
  Divide.on_of_limited (by rwa [h.params_eq, h.scope_eq])

theorem Stands.ripe (h : F.Stands D s) (hsig : F.Fine sig) (side : Side) :
    ∀ u ∈ sig.toTy.children, D.Ripe side s.engine.store sig.params u := by
  intro u hu
  right
  rw [h.params_eq]
  exact (hsig u hu).mono (subset_append_left _ _)

theorem Stands.ripe_ctor {c : Ctor} (h : F.Stands D s)
    (hc : ∀ t ∈ c.inputs, t.Limited F.params (F.scope side)) (d : DataType) :
    ∀ u ∈ (d.ctorSignature c).toTy.children, D.Ripe side s.engine.store d.params u := by
  intro u hu
  have hu : u ∈ c.inputs ∨ u = d.selfType := by
    simpa [DataType.ctorSignature, Signature.toTy] using hu
  rcases hu with hu | rfl
  · exact .inl (h.limited (hc u hu))
  · refine .inr (.intro rfl (by simp [DataType.selfType]) fun v hv => ?_)
    obtain ⟨p, hp, rfl⟩ := mem_map.1 hv
    exact .param fun _ => mem_append_left _ hp

theorem reference_goes (hΓ : F.Serves Γ) (h : F.Stands D s)
    (hwritten : ∀ t ∈ e.written, t.Limited F.params (F.scope side)) (hsilent : F.Silent side e s)
    (hexplicit : ∀ t ∈ explicit.getD [], t.Limited F.params (F.scope side))
    (hrun : ReferenceRun Γ refuse e explicit site attrs s r s') :
    ∃ D', F.Goes side D s D' s' ∧ D'.On side s'.engine.store r.1 := by
  have hgiven t (ht : t ∈ explicit.getD []) : D.On side s.engine.store t :=
    h.limited (hexplicit t ht)
  obtain ⟨-, ⟨hprovisional, -, -, rfl⟩ | ⟨sig, s₁, hsig, hinst⟩⟩ := hrun
  · cases e with
    | global g =>
      cases side with
      | outside => exact ⟨D, .refl h, h.provisional hprovisional⟩
      | inside =>
        have hnone := hsilent g (by simp [Uses, Expr.mentions])
        rw [show s'.provisional.get? g = some r.1 from hprovisional] at hnone
        cases hnone
    | _ => exact hprovisional.elim
  · cases e with
    | global g =>
      obtain ⟨-, ⟨-, hdeclared, rfl⟩ | ⟨-, ⟨-, hrefuse⟩ | ⟨-, rfl⟩, hget⟩⟩ :=
        signatureOf_ok_iff.1 hsig.2
      · exact instantiate_goes h (h.ripe (hΓ.declared hdeclared) side) hgiven hinst
      · cases hrefuse
      · exact instantiate_goes h (h.ripe (h.schemes hget) side) hgiven hinst
    | op n name =>
      obtain ⟨hget, rfl⟩ := hsig
      exact instantiate_goes h (h.ripe (hΓ.operators hget) side) hgiven hinst
    | ctor c =>
      obtain ⟨⟨d, -, rfl⟩, rfl⟩ := hsig
      exact instantiate_goes h (h.ripe_ctor hwritten d) hgiven hinst
    | _ => exact hsig.elim

theorem unifyArgs_goes {as : List Ty} {es : List Expr} (h : F.Stands D s)
    (has : ∀ a ∈ as, D.On side s.engine.store a) (hts : ∀ t ∈ ts, D.On side s.engine.store t)
    (hrun : unifyArgs as ts es s = .ok () s') : F.Goes side D s D s' := by
  induction as generalizing s ts es with
  | nil =>
    cases hrun
    exact .refl h
  | cons a as ih =>
    cases ts with
    | nil =>
      cases hrun
      exact .refl h
    | cons t ts =>
      cases es with
      | nil =>
        cases hrun
        exact .refl h
      | cons e es =>
        obtain ⟨s₁, hunify, hrun⟩ := unifyArgs_cons_ok_iff.1 hrun
        simp only [forall_mem_cons] at has hts
        have h₁ := unify_goes h has.1 hts.1 hunify
        exact h₁.trans (ih h₁.stands (fun a ha => h₁.keeps.on (has.2 a ha))
          (fun t ht => h₁.keeps.on (hts.2 t ht)) hrun)

theorem applyTo_goes {site : Expr} {f : Ty} {direct : Option (List Ty)} {args : List Expr}
    (hF : F.params ≠ []) (h : F.Stands D s)
    (hf : D.On side s.engine.store f ∨ F.Generic s.engine.store f ∧ direct = none)
    (hts : ∀ t ∈ ts, D.On side s.engine.store t)
    (hrun : applyTo Γ site f direct args ts attrs s = .ok r s') :
    ∃ D', F.Goes side D s D' s' ∧ D'.On side s'.engine.store r.1 := by
  obtain ⟨found, s₁, hfind, happly⟩ := applyTo_ok_iff.1 hrun
  have h₁ : F.Goes side D s D s₁ := .of_looks h (find_looks h.valid.store hfind)
  have hfound := find_eq_ok h.valid.store hfind
  replace hts t (ht : t ∈ ts) := h₁.keeps.on (hts t ht)
  cases found with
  | cell c =>
    obtain ⟨-, s₂, hfresh, hunify⟩ := happly
    have hon : D.On side s₁.engine.store (.cell c) := by
      rcases hf with hf | ⟨⟨_, _, _, htop, -⟩, -⟩
      · exact h₁.keeps.on (hfound ▸ hf.top h.valid.store)
      · rw [htop] at hfound
        cases hfound
    obtain ⟨D₂, h₂, hres⟩ := fresh_goes h₁.stands side hfresh
    have h₃ := unify_goes h₂.stands (h₂.keeps.on hon)
      (.func (fun t ht => h₂.keeps.on (hts t ht)) hres (by simp) (by simp)) hunify
    exact ⟨D₂, (h₁.trans h₂).trans h₃, h₃.keeps.on hres⟩
  | func as b ps rs =>
    obtain ⟨as', ps', rs', s₂, hinst, -, hargs⟩ := happly
    have hstep : ∃ D₂, F.Goes side D s₁ D₂ s₂ ∧ (∀ a ∈ as', D₂.On side s₂.engine.store a) ∧
        D₂.On side s₂.engine.store r.1 := by
      have hinstance (hripe : ∀ u ∈ (Ty.func as b ps rs).children,
          D.Ripe side s₁.engine.store ps u)
          (hrun : instantiate Γ ⟨as, b, ps, rs⟩ none (.expr site) attrs s₁ =
            .ok (.func as' r.1 ps' rs', r.2) s₂) :
          ∃ D₂, F.Goes side D s₁ D₂ s₂ ∧ (∀ a ∈ as', D₂.On side s₂.engine.store a) ∧
            D₂.On side s₂.engine.store r.1 := by
        obtain ⟨D₂, h₂, hon⟩ := instantiate_goes h₁.stands (by exact hripe) (by simp) hrun
        exact ⟨D₂, h₂, fun a ha => hon.child (by simp [ha]),
          hon.child (by simp)⟩
      rcases hf with hf | ⟨⟨as₀, b₀, rs₀, htop, hlimited⟩, rfl⟩
      · have hon : D.On side s₁.engine.store (.func as b ps rs) :=
          h₁.keeps.on (hfound ▸ hf.top h.valid.store)
        rcases hinst with ⟨-, hrun⟩ | ⟨-, rfl, hr, -, rfl⟩
        · exact hinstance (fun u hu => .inl (hon.child hu)) hrun
        · refine ⟨D, .refl h₁.stands, fun a ha => hon.child (by simp [ha]), ?_⟩
          exact hon.child (by simp [hr])
      · rw [htop] at hfound
        cases hfound
        rcases hinst with ⟨-, hrun⟩ | ⟨hempty, -⟩
        · refine hinstance (fun u hu => .inr ?_) hrun
          rw [h.params_eq]
          exact (hlimited u hu).mono (subset_append_left _ _)
        · simp [hF] at hempty
    obtain ⟨D₂, h₂, has, hres⟩ := hstep
    have h₃ := unifyArgs_goes h₂.stands has (fun t ht => h₂.keeps.on (hts t ht)) hargs
    exact ⟨D₂, (h₁.trans h₂).trans h₃, h₃.keeps.on hres⟩
  | _ => exact happly.elim

end LocalFunction

end TensorTyping
