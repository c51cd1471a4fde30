import TensorTyping.Proofs.Inference.Bodies
import TensorTyping.Proofs.Inference.Soundness

/-!
# Calls of local functions with type parameters

A function that is not global can have type parameters all the same, and then each call takes an
instance of its type as far as that is known at the call. What was not known then is not replaced:
it is the same in all calls. So the marked type of the call comes out of the marked type of the
callee with two substitutions, one for the parameters and one for the cells that were left. They can
be made one after the other, as long as no parameter has come in through a cell; that can be told
from the type of the call and from those of the arguments.
-/
namespace TensorTyping

open List

variable {ρ : Cell → Ty}

namespace Ty

variable {q : Ty → Prop}

/-- The parameters occur nowhere in a type, neither free nor bound. -/
def Avoids (ps : List TypeParam) (t : Ty) : Prop := Everywhere (fun u => ∀ p ∈ ps, u ≠ .param p) t

variable {ps : List TypeParam} {t u : Ty}

theorem Everywhere.of_replace {f : TypeParam → Ty} {g : Cell → Ty}
    (h : Everywhere q (t.replace f g)) {c : Cell} (hc : c ∈ t.cellOccurrences) :
    Everywhere q (g c) := by
  induction t using induction_leaves with
  | cell d =>
    obtain rfl := mem_singleton.1 hc
    exact h
  | param p => cases hc
  | node t hleaf ih =>
    rw [replace_of_not_leaf f g hleaf] at h
    rcases mem_cellOccurrences.1 hc with rfl | ⟨v, hv, hc⟩
    · cases hleaf
    · refine ih v hv (h.child ?_) hc
      rw [children_mapChildren]
      exact mem_map_of_mem hv

theorem agree_replace_of {f f' : TypeParam → Ty} {g g' : Cell → Ty}
    (hf : ∀ p v, Everywhere q v → (f p).agree v = true → (f' p).agree v = true)
    (hg : ∀ c v, Everywhere q v → (g c).agree v = true → (g' c).agree v = true)
    (hu : Everywhere q u) (h : (t.replace f g).agree u = true) :
    (t.replace f' g').agree u = true := by
  induction t using induction_leaves generalizing u with
  | cell c => exact hg c u hu h
  | param p => exact hf p u hu h
  | node t hleaf ih =>
    rw [replace_of_not_leaf _ _ hleaf, agree_iff, Parallel.mapChildren_left] at h ⊢
    exact h.imp fun v hv w hw => ih v hv (hu.child hw)

end Ty

namespace Substitution

variable {ps : List TypeParam} {ts : List Ty} {t u : Ty}

theorem apply_of_avoids (ht : t.Avoids ps) : (ofParams ps ts).apply t = t := by
  induction t using Ty.induction_leaves with
  | cell c => exact onCell_ofParams ps ts c
  | param p => exact onParam_of_not_mem fun hp => ht.top p hp rfl
  | node t hleaf ih =>
    rw [apply, Ty.replace_of_not_leaf _ _ hleaf]
    exact (Ty.mapChildren_congr fun v hv => ih v hv (ht.child hv)).trans (Ty.mapChildren_self t)

theorem apply_mapCells (ρ : Cell → Ty) (t : Ty) :
    (ofParams ps ts).apply (t.mapCells ρ) =
      t.replace (ofParams ps ts).onParam fun c => (ofParams ps ts).apply (ρ c) :=
  Ty.replace_replace ..

/-- The cells can be replaced before the parameters, if no parameter comes in. -/
theorem apply_mapCells_of_avoids (h : (t.replace (ofParams ps ts).onParam ρ).Avoids ps) :
    (ofParams ps ts).apply (t.mapCells ρ) = t.replace (ofParams ps ts).onParam ρ := by
  rw [apply_mapCells]
  exact Ty.replace_congr (fun _ => rfl) fun c hc => apply_of_avoids (h.of_replace hc)

theorem agree_apply {v : Ty} (hu : u.Avoids ps) (h : v.agree u = true) :
    ((ofParams ps ts).apply v).agree u = true := by
  have hid : (v.replace .param .cell).agree u = true := by
    rw [show v.replace .param .cell = v from Ty.mapCells_id v]
    exact h
  refine Ty.agree_replace_of (fun p w hw hp => ?_) (fun c w _ hc => ?_) hu hid
  · cases w with
    | param p' =>
      rw [onParam_of_not_mem fun hmem => ?_]
      · exact hp
      · obtain rfl : p = p' := by simpa [Ty.agree] using hp
        exact hw.top p hmem rfl
    | _ => cases hp
  · rw [onCell_ofParams]
    exact hc

theorem agree_apply_mapCells (hu : u.Avoids ps)
    (h : (t.replace (ofParams ps ts).onParam ρ).agree u = true) :
    ((ofParams ps ts).apply (t.mapCells ρ)).agree u = true := by
  rw [apply_mapCells]
  exact Ty.agree_replace_of (fun _ _ _ hp => hp) (fun _ _ hw hc => agree_apply hw hc) hu h

end Substitution

namespace Inference

variable {t : Ty} {ts : List Ty} {ps : List TypeParam}

variable {Γ : Context} {s s' : State} {S : Store}
variable {as : List Ty} {args : List Expr} {r : Ty} {marks : Marks}
variable {given : List Ty} {attrs : Attrs} {rs : List TypeRelation}

theorem forall₂_comp {α β γ : Type} {R : α → β → Prop} {Q : γ → β → Prop} {P : α → γ → Prop}
    {as : List α} {bs : List β} {cs : List γ} (h : List.Forall₂ R as bs)
    (h' : List.Forall₂ Q cs bs) (hP : ∀ a b c, R a b → Q c b → P a c) : List.Forall₂ P as cs := by
  induction h generalizing cs with
  | nil =>
    cases h'
    exact .nil
  | cons hab _ ih =>
    cases h' with
    | cons hcb hrest => exact .cons (hP _ _ _ hab hcb) (ih hrest)

/-- Something that comes out with a function type that has parameters had them already when it was
called. The call took an instance of what was known of the type. -/
theorem applyTo_instance {site : Expr} {f : Ty} (hs : s.engine.Valid)
    (hlen : ts.length = args.length) (h : applyTo Γ site f none args ts attrs s = .ok (t, given) s')
    (hS : s'.engine.store.Evolves S) (hf : S.resolve f = .func as r ps rs) (hps : ps ≠ []) :
    given.length = ps.length ∧ ∃ as₀ r₀, as = as₀.map S.resolve ∧ r = S.resolve r₀ ∧
      t = (Substitution.ofParams ps given).apply r₀ ∧
      List.Forall₂ (fun a u => (S.resolve ((Substitution.ofParams ps given).apply a)).agree
        (S.resolve u) = true) as₀ ts := by
  obtain ⟨found, s₁, hfind, happly⟩ := applyTo_ok_iff.1 h
  have htop := find_eq_ok hs.store hfind
  have hlooks := find_looks hs.store hfind
  have hs₁ := hlooks.valid hs
  have hlater := ((((applyTo_works _ _ _ _ _ _).worked h).evolves hs).trans hS).later
  have hfound : S.resolve found = .func as r ps rs := by
    rw [htop, hlater.resolve_top hs.store, hf]
  cases found with
  | cell c =>
    -- a cell becomes a function type without parameters
    exfalso
    obtain ⟨-, s₂, hfresh, hunify⟩ := happly
    have hsame := unify_found_cell hs hfind hfresh hunify
    rw [← hS.later.resolve_resolve, hsame, hS.later.resolve_resolve, S.resolve_eq,
      Ty.mapCells_func] at hfound
    injection hfound with _ _ hempty
    exact hps hempty.symm
  | func as₀ r₀ ps₀ rs₀ =>
    rw [S.resolve_eq, Ty.mapCells_func] at hfound
    obtain ⟨rfl, rfl, rfl, -⟩ := Ty.func.inj hfound
    obtain ⟨as', ps', rs', s₂, hinst, hlength, hunify⟩ := happly
    have hnonempty : ps₀.isEmpty = false := by simpa using hps
    rcases hinst with ⟨-, hinst⟩ | ⟨hfalse, -⟩
    · have hs₂ := ((instantiate_works _ _ _ _).worked hinst).valid hs₁
      rw [instantiate_none_ok_iff, InstanceRun, hnonempty] at hinst
      obtain ⟨s₃, hfresh, -, heq⟩ := hinst
      dsimp only at hfresh heq
      obtain ⟨rfl, rfl, -, -⟩ := Ty.func.inj heq
      refine ⟨(freshFor_eq_ok hfresh).1, as₀, r₀, ?_, (S.resolve_eq r₀).symm, rfl, ?_⟩
      · exact map_congr_left fun a _ => (S.resolve_eq a).symm
      · exact forall₂_map_left_iff.1 (unifyArgs_agree hs₂ hlength hlen hunify hS)
    · rw [hnonempty] at hfalse
      cases hfalse
  | _ => exact happly.elim

/-- What marks say of a call, with type arguments `ts` and of type `t`, of something that has the
type `fn<ps>(as) -> r`. The call is an instance of that type in which the cells that were left at
the call are as they have come out. It is an instance of the type as such if the parameters occur
neither in the type of the call nor in those of the arguments. Nothing is said of arguments that are
global symbols, since these are not marked at their places. -/
structure Instantiates (marks : Marks) (args : List Expr) (as : List Ty) (r : Ty)
    (ps : List TypeParam) (ts : List Ty) (t : Ty) : Prop where
  length_eq : ts.length = ps.length
  upToCells : ∃ (as₀ : List Ty) (r₀ : Ty) (ρ : Cell → Ty),
    as = as₀.map (Ty.mapCells ρ) ∧ r = r₀.mapCells ρ ∧
    t = r₀.replace (Substitution.ofParams ps ts).onParam ρ ∧
    List.Forall₂ (fun e a => e.isShared = false → ∃ u, marks.type? e.serial = some u ∧
      (a.replace (Substitution.ofParams ps ts).onParam ρ).agree u = true) args as₀
  result : t.Avoids ps → (Substitution.ofParams ps ts).apply r = t
  arguments : List.Forall₂ (fun e a => e.isShared = false → ∃ u, marks.type? e.serial = some u ∧
    (u.Avoids ps → ((Substitution.ofParams ps ts).apply a).agree u = true)) args as

/-- An instance up to cells is an instance if no parameter comes in through a cell. -/
theorem Instantiates.of_upToCells {as₀ : List Ty} {r₀ : Ty} (hlen : ts.length = ps.length)
    (has : as = as₀.map (Ty.mapCells ρ)) (hr : r = r₀.mapCells ρ)
    (ht : t = r₀.replace (Substitution.ofParams ps ts).onParam ρ)
    (hargs : List.Forall₂ (fun e a => e.isShared = false → ∃ u, marks.type? e.serial = some u ∧
      (a.replace (Substitution.ofParams ps ts).onParam ρ).agree u = true) args as₀) :
    Instantiates marks args as r ps ts t where
  length_eq := hlen
  upToCells := ⟨as₀, r₀, ρ, has, hr, ht, hargs⟩
  result h := by
    subst hr ht
    exact Substitution.apply_mapCells_of_avoids h
  arguments := by
    rw [has, forall₂_map_right_iff]
    refine hargs.imp fun e a h hshared => ?_
    obtain ⟨u, hu, hagree⟩ := h hshared
    exact ⟨u, hu, fun havoids => Substitution.agree_apply_mapCells havoids hagree⟩

theorem resolve_apply (S : Store) (ps : List TypeParam) (ts : List Ty) (t : Ty) :
    S.resolve ((Substitution.ofParams ps ts).apply t) =
      t.replace (Substitution.ofParams ps (ts.map S.resolve)).onParam S.value := by
  have hts : ts.map S.resolve = ts.map (Ty.mapCells S.value) :=
    map_congr_left fun t _ => S.resolve_eq t
  rw [S.resolve_eq, Substitution.apply, Ty.mapCells_replace, hts]
  refine Ty.replace_congr (Substitution.mapCells_onParam _ _ _) fun c _ => ?_
  rw [Substitution.onCell_ofParams, Ty.mapCells_cell]

theorem CallVisit.instantiates {solve : Global → InferM Unit} {W : Whole} {n : Serial}
    {callee : Expr} {typeArgs : Option (List Ty)} {env : Env} {f : Ty} {direct : Option (List Ty)}
    {s₁ : State}
    (h : CallVisit Γ solve W n callee args typeArgs attrs env f t direct ts given s s₁ s')
    (hW : W.env = []) (hreads : Reads W.own W.final S marks) (href : callee.isReference = false)
    (hcallee : marks.type? callee.serial = some (.func as r ps rs)) (hps : ps ≠ []) :
    Instantiates marks args as r ps (given.map S.resolve) (S.resolve t) := by
  obtain ⟨rfl, s₂, s₃, hvisit⟩ := h.calleeTyped href
  have hf : S.resolve f = .func as r ps rs := by
    obtain ⟨hmem, hnote⟩ := hvisit.type hW (isShared_of_not_reference href)
    exact Option.some.inj ((hreads.types hmem hnote).symm.trans hcallee)
  obtain ⟨hlen, as₀, r₀, has, hr, rfl, hargs⟩ := applyTo_instance h.valid
    h.argsTyped.length_eq.symm h.applied (h.evolves.trans hreads.evolves) hf hps
  refine .of_upToCells ?_ (has.trans (map_congr_left fun a _ => S.resolve_eq a))
    (hr.trans (S.resolve_eq r₀)) (resolve_apply S ps given r₀) ?_
  · rw [length_map, hlen]
  · refine forall₂_comp h.argsTyped hargs fun e u a htyped hagree hshared => ?_
    obtain ⟨s₄, s₅, hvisit⟩ := htyped
    obtain ⟨hmem, hnote⟩ := hvisit.type hW hshared
    refine ⟨S.resolve u, hreads.types hmem hnote, ?_⟩
    rw [← resolve_apply]
    exact hagree

/-- The marks that are left on an expression after a run in which types were found for it: it is the
function of a module that checks, or it was given a type in the context of a module. No node is used
twice, and nodes and symbols are numbered apart. -/
inductive Inferred : Expr → Marks → Prop
  | body {m : Module} {operators : Operators} {registry : Registry} {report : Report}
      {session : Session}
      (tree : (m.functions.values.flatMap fun f => f.toExpr.serials).Nodup)
      (apart : ∀ f ∈ m.functions.values, ∀ n ∈ f.toExpr.serials, n ∉ symbols m)
      (checks : (m.check operators registry report session).outcome = .ok true)
      {g : Global} {f : Function} (of : m.functions.get? g = some f) :
      Inferred f.toExpr (m.check operators registry report session).session.marks
  | expression {m : Module} {operators : Operators} {registry : Registry} {e : Expr}
      {session session' : Session} {t : Ty} (tree : e.serials.Nodup)
      (apart : ∀ f ∈ m.functions.values, ∀ n ∈ f.toExpr.serials, n ∉ e.serials)
      (typed : m.typeOf operators registry e session = .ok t session') :
      Inferred e session'.marks

theorem Inferred.visit {e : Expr} (h : Inferred e marks) :
    ∃ Γ solve foreign W S s₁ t s₂, W.Secluded solve foreign ∧ W.own = e.serials ∧ W.env = [] ∧
      Reads W.own W.final S marks ∧ Visit Γ solve W e [] s₁ t s₂ := by
  cases h with
  | body tree apart checks of =>
    obtain ⟨V, S, t, s₁, s₂, hreads, hvisit⟩ := check_reads tree apart checks of
    refine ⟨_, _, _, _, S, s₁, t, s₂, ⟨refuse_within fun _ => False, fun _ _ => id, ?_⟩, rfl, rfl,
      hreads, hvisit⟩
    exact (nodup_flatMap.1 tree).1 _ (Table.mem_values_of_get? of)
  | @expression m operators registry e session session' t tree apart typed =>
    obtain ⟨V, S, u, -, hreads, hvisit⟩ := typeOf_reads typed
    refine ⟨_, _, _, _, S, _, u, V, ⟨solveWithin_within rfl _, ?_, tree⟩, rfl, rfl, hreads, hvisit⟩
    rintro n hn ⟨g, hg⟩
    unfold serialsIn at hg
    cases hf : m.functions.get? g with
    | none => simp [hf] at hg
    | some f => exact apart f (Table.mem_values_of_get? hf) n (by simpa [hf] using hg) hn

/-- A call of a local function with type parameters is marked as an instance of the type of that
function. -/
theorem local_calls_instantiate {e : Expr} {marks : Marks} (h : Inferred e marks) {n : Serial}
    {callee : Expr} {args : List Expr} {typeArgs : Option (List Ty)} {attrs : Attrs}
    (hcall : .call n callee args typeArgs attrs ∈ e.parts) (href : callee.isReference = false)
    {as : List Ty} {r : Ty} {ps : List TypeParam} {rs : List TypeRelation}
    (hcallee : marks.type? callee.serial = some (.func as r ps rs)) (hps : ps ≠ []) :
    ∃ ts t, marks.typeArgs? n = some ts ∧ marks.type? n = some t ∧
      Instantiates marks args as r ps ts t := by
  obtain ⟨Γ, solve, foreign, W, S, s₁, u, s₂, hW, -, hnil, hreads, hvisit⟩ := h.visit
  obtain ⟨env', s₃, v, s₄, hpart⟩ := hvisit.part hW hcall rfl
  obtain ⟨f, direct, ts, given, s₅, s₆, hsteps⟩ := hpart.call hW
  exact ⟨_, _, hreads.typeArgs hsteps.called, hreads.types hsteps.mem hsteps.noted,
    hsteps.instantiates hnil hreads href hcallee hps⟩

namespace Doubled

def T : TypeParam := ⟨⟨1, "T"⟩, .type⟩

def y : Var := ⟨⟨2, "y"⟩, some (.param T)⟩

def f : Var := ⟨⟨3, "f"⟩, none⟩

/-- The function `fn<T>(y: T) { (y, y) }`. -/
def value : Expr := .fn 4 [y] (.tuple 5 [.var y, .var y]) none [T] []

def call : Expr :=
  .call 10 (.var f)
    [.tuple 11 [.constant 12 ⟨"int32", [], .int 1⟩, .constant 13 ⟨"bool", [], .bool true⟩]] none
    .empty

/-- The expression `let f = value; (f(1), f((1, true)))`. -/
def expr : Expr :=
  .letIn 6 f value
    (.tuple 7 [.call 8 (.var f) [.constant 9 ⟨"int32", [], .int 1⟩] none .empty, call])

theorem call_mem : call ∈ expr.parts := by simp [expr, Expr.parts, Expr.partsList, call]

def g : Global := ⟨⟨14, "g"⟩⟩

def bodyOfG : Function := { node := 15, params := [], body := expr }

def module : Module where
  functions := ⟨[(g, bodyOfG)]⟩

def operators : Operators := (Operators.standard ⟨50⟩).1

def session : Session := { supply := ⟨200⟩ }

def pair : Ty := .tuple [.scalar "int32", .bool]

/-- Whether the second call is marked with a pair of pairs, and `f` with a function type that has a
parameter. -/
def marked (marks : Marks) : Bool :=
  match marks.type? f.serial, marks.type? 10 with
  | some (.func _ _ (_ :: _) _), some t => (Ty.tuple [pair, pair]).same t
  | _, _ => false

theorem types_of_marked (h : marked marks = true) :
    marks.type? 10 = some (.tuple [pair, pair]) ∧
      ∃ as r p ps rs, marks.type? f.serial = some (.func as r (p :: ps) rs) := by
  unfold marked at h
  split at h
  · next as r p ps rs t hf ht =>
    rw [Ty.eq_of_same rfl h]
    exact ⟨ht, as, r, p, ps, rs, hf⟩
  · cases h

theorem avoids (ps : List TypeParam) : (Ty.tuple [pair, pair]).Avoids ps := by
  have hscalar (d : String) : (Ty.scalar d).Avoids ps :=
    .intro (by simp [Ty.scalar]) (by simp [Ty.scalar])
  have hpair : pair.Avoids ps := by
    refine .intro (by simp [pair]) ?_
    rw [pair, Ty.children, forall_mem_cons, forall_mem_singleton]
    exact ⟨hscalar _, hscalar _⟩
  refine .intro (by simp) ?_
  rw [Ty.children, forall_mem_cons, forall_mem_singleton]
  exact ⟨hpair, hpair⟩

/-- The module checks. -/
theorem inferred : Inferred bodyOfG.toExpr
    (module.check operators .standard {} session).session.marks := by
  refine .body (g := g) (by decide +kernel) (by decide +kernel) ?_ rfl
  have hok : (module.check operators .standard {} session).outcome.toOption = some true := by
    decide +kernel
  generalize (module.check operators .standard {} session).outcome = outcome at hok
  cases outcome <;> simp_all [Except.toOption]

end Doubled

/-- A local function with a type parameter is called at two types, one of them a pair. -/
theorem local_calls_instantiate_doubled :
    Inferred Doubled.bodyOfG.toExpr
        (Doubled.module.check Doubled.operators .standard {} Doubled.session).session.marks ∧
      ∃ as r ps rs ts,
        (Doubled.module.check Doubled.operators .standard {}
          Doubled.session).session.marks.type? Doubled.f.serial = some (.func as r ps rs) ∧
        ps ≠ [] ∧ ts.length = ps.length ∧
        (Substitution.ofParams ps ts).apply r = .tuple [Doubled.pair, Doubled.pair] := by
  have hmarked : Doubled.marked (Doubled.module.check Doubled.operators .standard {}
      Doubled.session).session.marks = true := by decide +kernel
  obtain ⟨htype, as, r, p, ps, rs, hf⟩ := Doubled.types_of_marked hmarked
  obtain ⟨ts, t, hts, ht, hinst⟩ := local_calls_instantiate Doubled.inferred
    (Expr.parts_of_child List.mem_cons_self Doubled.call_mem) rfl hf (List.cons_ne_nil p ps)
  obtain rfl := Option.some.inj (ht.symm.trans htype)
  exact ⟨Doubled.inferred, as, r, p :: ps, rs, ts, hf, List.cons_ne_nil p ps, hinst.length_eq,
    hinst.result (Doubled.avoids _)⟩

namespace Escaped

def T : TypeParam := ⟨⟨1, "T"⟩, .type⟩

def x : Var := ⟨⟨2, "x"⟩, some (.param T)⟩

def y : Var := ⟨⟨3, "y"⟩, none⟩

def f : Var := ⟨⟨4, "f"⟩, none⟩

/-- The function `fn<T>(x: T) { (fn(y) { y })(x) }`, whose result is a cell until all is done. -/
def value : Expr :=
  .fn 5 [x] (.call 6 (.fn 7 [y] (.var y) none [] []) [.var x] none .empty) none [T] []

/-- The expression `let f = value; f(1)`. -/
def expr : Expr :=
  .letIn 8 f value (.call 9 (.var f) [.constant 10 ⟨"int32", [], .int 1⟩] none .empty)

/-- Whether the call is marked with another type than the instance that its type arguments give. -/
def differs (marks : Marks) : Bool :=
  match marks.type? f.serial, marks.typeArgs? 9, marks.type? 9 with
  | some (.func _ r (p :: ps) _), some ts, some t =>
    !((Substitution.ofParams (p :: ps) ts).apply r).agree t
  | _, _, _ => false

end Escaped

/-- The result of the function is not known to be its parameter when the function is called, so the
call has the parameter itself as its type, and not the type of the argument. -/
theorem call_of_unknown_result : ∃ marks, Inferred Escaped.expr marks ∧
    ∃ as r ps rs ts u, marks.type? Escaped.f.serial = some (.func as r ps rs) ∧ ps ≠ [] ∧
      marks.typeArgs? 9 = some ts ∧ marks.type? 9 = some u ∧
      (Substitution.ofParams ps ts).apply r ≠ u := by
  obtain ⟨t, ht⟩ : ∃ t, ({} : Module).typeOf Doubled.operators .standard Escaped.expr
      Doubled.session = .ok t (endState (({} : Module).typeOf Doubled.operators .standard
        Escaped.expr) Doubled.session) := succeeds_iff.1 (by decide +kernel)
  have hdiffers : Escaped.differs (endState (({} : Module).typeOf Doubled.operators .standard
      Escaped.expr) Doubled.session).marks = true := by decide +kernel
  refine ⟨_, .expression (by decide +kernel) (by decide) ht, ?_⟩
  generalize (endState (({} : Module).typeOf Doubled.operators .standard Escaped.expr)
    Doubled.session).marks = marks at hdiffers
  unfold Escaped.differs at hdiffers
  split at hdiffers
  · next as r p ps rs ts u hf hts hu =>
    refine ⟨as, r, p :: ps, rs, ts, u, hf, List.cons_ne_nil _ _, hts, hu, ?_⟩
    rintro rfl
    rw [Ty.agree_self] at hdiffers
    cases hdiffers
  · cases hdiffers

end Inference

end TensorTyping
