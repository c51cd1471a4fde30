import TensorTyping.Proofs.Inference.Nesting

/-!
# Typing around a function and inside it

Each form of expression is typed on one side: what comes in is of this side and what comes out is,
so that an expression on a side gets a type of the side (`LocalFunction.infer_encloses`). The
function itself is where the sides meet. Its body is typed inside, and its own type is read off its
annotations; the cell that stands for a name of it is apart until it is bound to this type.
-/
namespace TensorTyping.LocalFunction

open List

open Inference

variable {F : LocalFunction} {D D' : Divide} {side : Side} {Γ : Context} {s s' : State} {env : Env}
  {t u : Ty}
variable {index : Index} {ts : List Ty} {n : Serial} {x : Var} {value body subject e callee : Expr}
  {clauses : List (Pattern × Expr)} {branches : List (Expr × Ty)} {args : List Expr}
  {typeArgs : Option (List Ty)} {attrs : Attrs}
variable {site : Expr} {xs : List Var} {f : Function} {es : List Expr} {c : Constant}
  {s₁ s₂ s₃ : State}

theorem projectFrom_goes (h : F.Stands D s) (ht : D.On side s.engine.store t)
    (hrun : projectFrom Γ site t index s = .ok u s') :
    ∃ D', F.Goes side D s D' s' ∧ D'.On side s'.engine.store u := by
  obtain ⟨found, s₁, hfind, -, hproject⟩ := projectFrom_eq_ok hrun
  have h₁ : F.Goes side D s D s₁ := .of_looks h (find_looks h.valid.store hfind)
  have hon : D.On side s₁.engine.store found := by
    rw [find_eq_ok h.valid.store hfind]
    exact h₁.keeps.on (ht.top h.valid.store)
  cases found with
  | tuple ts =>
    obtain ⟨hu, rfl⟩ := hproject
    exact ⟨D, h₁, hon.child (mem_of_getElem? hu)⟩
  | cell c =>
    obtain ⟨s₂, hfresh, hrelate⟩ := hproject
    obtain ⟨D₂, h₂, hout⟩ := fresh_goes h₁.stands side hfresh
    have h₃ : F.Goes side D₂ s₂ D₂ s' := by
      refine relate_goes h₂.stands ?_ hrelate
      simpa using ⟨h₂.keeps.on (h₁.keeps.on ht), hout⟩
    exact ⟨D₂, (h₁.trans h₂).trans h₃, h₃.keeps.on hout⟩
  | _ => exact hproject.elim

theorem ascribed_goes {ascription : Option Ty} {site : Phrase} (h : F.Stands D s)
    (ha : ∀ a ∈ ascription.toList, a.Limited F.params (F.scope side))
    (ht : D.On side s.engine.store t) (hrun : Ascribed Γ ascription t site s s') :
    F.Goes side D s D s' := by
  cases ascription with
  | none =>
    obtain rfl := hrun
    exact .refl h
  | some a => exact unify_goes h (h.limited (ha a (by simp))) ht hrun.2

mutual
theorem checkPattern_goes {p : Pattern} {t : Ty} {bound : Env} {D : Divide} {s s' : State}
    (h : F.Stands D s) (ht : D.On side s.engine.store t)
    (hwritten : ∀ u ∈ p.written, u.Limited F.params (F.scope side))
    (hinner : ∀ n ∈ p.inner, F.Placed side n ∧ n ∉ F.given)
    (hrun : checkPattern Γ p t s = .ok bound s') :
    ∃ D', F.Goes side D s D' s' ∧ F.Suits D' s'.engine.store side bound := by
  match p with
  | .wildcard n =>
    obtain ⟨rfl, rfl⟩ := checkPattern_wildcard_ok_iff.1 hrun
    exact ⟨D, .refl h, forall_mem_nil _⟩
  | .var n x =>
    obtain ⟨s₁, hasc, rfl, rfl⟩ := checkPattern_var_ok_iff.1 hrun
    obtain ⟨hplaced, hgiven⟩ := hinner x.serial (by simp [Pattern.inner])
    have h₁ := ascribed_goes h hwritten ht hasc
    have hon := h₁.keeps.on ht
    have h₂ : F.Goes side D s₁ D (s₁.notedExpr (.var x) t) := .placedExpr h₁.stands hplaced hon
    refine ⟨D, h₁.trans h₂, .cons (.of_placed hplaced (absurd · hgiven) (h₂.keeps.on hon)) ?_⟩
    exact forall_mem_nil _
  | .ctor n c subs =>
    obtain ⟨d, ts, s₁, s₂, -, hts, hunify, harity, hsubs⟩ := checkPattern_ctor_ok_iff.1 hrun
    obtain ⟨D₁, h₁, hon⟩ := freshFor_goes h side hts
    have h₂ := unify_goes h₁.stands (h₁.keeps.on ht) (.data d.handle hon) hunify
    simp only [Pattern.written, mem_append, or_imp, forall_and] at hwritten
    obtain ⟨D₃, h₃, hbound⟩ := checkPatterns_goes h₂.stands (fun u hu => by
      obtain ⟨a, ha, rfl⟩ := mem_map.1 hu
      exact h₂.keeps.on (Divide.Ripe.apply (freshFor_eq_ok hts).1 hon
        (.inl (h₁.stands.limited (hwritten.1 a ha))))) hwritten.2 hinner hsubs
    exact ⟨D₃, (h₁.trans h₂).trans h₃, hbound⟩
theorem checkPatterns_goes {ps : List Pattern} {ts : List Ty} {bound : Env} {D : Divide}
    {s s' : State} (h : F.Stands D s) (hts : ∀ t ∈ ts, D.On side s.engine.store t)
    (hwritten : ∀ u ∈ Pattern.writtenList ps, u.Limited F.params (F.scope side))
    (hinner : ∀ n ∈ Pattern.serialsList ps, F.Placed side n ∧ n ∉ F.given)
    (hrun : checkPatterns Γ ps ts s = .ok bound s') :
    ∃ D', F.Goes side D s D' s' ∧ F.Suits D' s'.engine.store side bound := by
  match ps, ts with
  | [], _ =>
    obtain ⟨rfl, rfl⟩ := (checkPatterns_nil_ok_iff (.inl rfl)).1 hrun
    exact ⟨D, .refl h, forall_mem_nil _⟩
  | _ :: _, [] =>
    obtain ⟨rfl, rfl⟩ := (checkPatterns_nil_ok_iff (.inr rfl)).1 hrun
    exact ⟨D, .refl h, forall_mem_nil _⟩
  | p :: ps, t :: ts =>
    obtain ⟨first, more, s₁, hp, hps, rfl⟩ := checkPatterns_cons_ok_iff.1 hrun
    simp only [Pattern.writtenList, Pattern.serialsList, mem_append, mem_cons, or_imp,
      forall_and, forall_eq] at hwritten hinner hts
    obtain ⟨D₁, h₁, hfirst⟩ := checkPattern_goes h hts.1 hwritten.1 (by simp_all) hp
    have h₂ : F.Goes side D₁ s₁ D₁ (s₁.noted p.serial (.pattern p) t) :=
      .placed h₁.stands _ (by simp_all) (h₁.keeps.on hts.1)
    have h₁₂ := h₁.trans h₂
    obtain ⟨D₃, h₃, hmore⟩ := checkPatterns_goes h₂.stands (fun t ht => h₁₂.keeps.on (hts.2 t ht))
      hwritten.2 (by simp_all) hps
    exact ⟨D₃, h₁₂.trans h₃, hmore.append ((hfirst.keeps h₂.keeps).keeps h₃.keeps)⟩
end

/-! ## Types that are all written -/

/-- The variables have types in an environment that may be written on a side. -/
def Knows (F : LocalFunction) (side : Side) (known : List Serial) (env : Env) : Prop :=
  ∀ n ∈ known, ∀ t, env.lookup n = some t → t.Limited F.params (F.scope side)

namespace Knows

variable {known : List Serial}

theorem append {bound : Env} (h : F.Knows side known env)
    (hbound : ∀ n ∈ known, ∀ b ∈ bound, b.1 ≠ n) : F.Knows side known (bound ++ env) := by
  intro n hn t ht
  rw [lookup_append_of_not_mem (hbound n hn)] at ht
  exact h n hn t ht

theorem extend {xs : List Var} {ts : List Ty} (h : F.Knows side known env)
    (hlen : xs.length = ts.length) (hts : ∀ t ∈ ts, t.Limited F.params (F.scope side)) :
    F.Knows side (xs.map (fun x => x.serial) ++ known) (extend env xs ts) := by
  intro n hn t ht
  rw [Inference.extend, lookup_append] at ht
  generalize hbound : (List.map _ (xs.zip ts)).reverse = bound at ht
  cases hlookup : bound.lookup n with
  | some u =>
    rw [hlookup, Option.some_or] at ht
    cases ht
    subst hbound
    obtain ⟨⟨x, u⟩, hmem, heq⟩ := mem_map.1 (mem_reverse.1 (mem_of_lookup hlookup))
    cases heq
    exact hts _ (of_mem_zip hmem).2
  | none =>
    rw [hlookup, Option.none_or] at ht
    refine h n ((mem_append.1 hn).resolve_left fun hn => ?_) t ht
    obtain ⟨x, hx, rfl⟩ := mem_map.1 hn
    rw [← map_fst_zip hlen.le] at hx
    obtain ⟨y, hy, rfl⟩ := mem_map.1 hx
    subst hbound
    have hne := lookup_eq_none_iff.1 hlookup (y.1.serial, y.2)
      (mem_reverse.2 (mem_map.2 ⟨y, hy, rfl⟩))
    simp at hne

end Knows

/-- What an environment says of the variables that the inside may use is written. -/
theorem Suits.knows {s : Store} (h : F.Suits D s side env) : F.Knows side F.given env := by
  intro n hn t ht
  have hbound := h _ (mem_of_lookup ht)
  cases side with
  | inside => exact (hbound.2 hn).mono (nil_subset _)
  | outside => exact hbound.2.1 hn

/-- A settled expression gets a type that is all written. -/
def Settles (F : LocalFunction) (Γ : Context) (side : Side) (e : Expr) : Prop :=
  ∀ ⦃known env s t s'⦄, e.settled known = true → F.Knows side known env →
    infer Γ refuse e env s = .ok t s' → t.Limited F.params (F.scope side)

theorem paramTypes_limited (hxs : ∀ x ∈ xs, x.ascription.isSome = true)
    (hwritten : ∀ a ∈ xs.filterMap (fun x => x.ascription), a.Limited F.params (F.scope side))
    (hrun : paramTypes Γ xs s = .ok ts s') :
    xs.length = ts.length ∧ ∀ t ∈ ts, t.Limited F.params (F.scope side) := by
  induction xs generalizing ts s with
  | nil =>
    obtain ⟨rfl, -⟩ := paramTypes_nil_ok_iff.1 hrun
    simp
  | cons x xs ih =>
    obtain ⟨t, s₁, us, ht, hus, rfl⟩ := paramTypes_cons_ok_iff.1 hrun
    rw [forall_mem_cons] at hxs
    obtain ⟨a, ha⟩ := Option.isSome_iff_exists.1 hxs.1
    rw [filterMap_cons_some ha, forall_mem_cons] at hwritten
    obtain ⟨hlen, hlimited⟩ := ih hxs.2 hwritten.2 hus
    refine ⟨congrArg (· + 1) hlen, forall_mem_cons.2 ⟨?_, hlimited⟩⟩
    rcases ht with ⟨hnone, -⟩ | ⟨hsome, -, -⟩
    · rw [ha] at hnone
      cases hnone
    · rw [ha] at hsome
      cases hsome
      exact hwritten.1

/-- What the type of a settled function is made of is all written. -/
theorem function_settled {known : List Serial} (hbody : F.Settles Γ side f.body)
    (hwritten : ∀ t ∈ f.toExpr.written, t.Limited F.params (F.scope side))
    (hf : f.toExpr.settled known = true) (henv : F.Knows side known env)
    (hrun : infer Γ refuse f.toExpr env s = .ok t s') :
    ∃ as r, t = .func as r f.typeParams f.relations ∧
      ∀ u ∈ t.children, u.Limited F.params (F.scope side) := by
  obtain ⟨ts, b, s₁, s₂, s₃, s₄, hparams, hinfer, -, -, -, rfl, -⟩ := infer_fn_ok_iff.1 hrun
  simp only [Function.toExpr, Expr.settled, Bool.and_eq_true, all_eq_true] at hf
  simp only [Function.toExpr, Expr.written, mem_append, or_imp, forall_and] at hwritten
  obtain ⟨hlen, hts⟩ := paramTypes_limited hf.1 hwritten.1.1 hparams
  refine ⟨ts, _, rfl, fun u hu => ?_⟩
  simp only [Ty.children, mem_append, mem_cons] at hu
  rcases hu with hu | rfl | hu
  · exact hts u hu
  · cases hret : f.ret with
    | none =>
      rw [hret, Option.isSome_none, Bool.false_or] at hf
      exact hbody hf.2 (henv.extend hlen hts) hinfer
    | some r => exact hwritten.1.2 r (by simp [hret])
  · exact hwritten.2 u hu

theorem inferList_limited {known : List Serial} (hes : ∀ c ∈ es, F.Settles Γ side c)
    (hsettled : Expr.settledAll known es = true) (henv : F.Knows side known env)
    (hrun : inferList Γ refuse es env s = .ok ts s') :
    ∀ t ∈ ts, t.Limited F.params (F.scope side) := by
  induction es generalizing s ts with
  | nil =>
    obtain ⟨rfl, -⟩ := inferList_nil_ok_iff.1 hrun
    simp
  | cons e es ih =>
    obtain ⟨t, s₁, us, ht, hus, rfl⟩ := inferList_cons_ok_iff.1 hrun
    rw [forall_mem_cons] at hes
    rw [Expr.settledAll, Bool.and_eq_true] at hsettled
    exact forall_mem_cons.2 ⟨hes.1 hsettled.1 henv ht, ih hes.2 hsettled.2 hus⟩

theorem projectFrom_limited {allowed : List TypeParam} (ht : t.Limited F.params allowed)
    (hrun : projectFrom Γ site t index s = .ok u s') : u.Limited F.params allowed := by
  obtain ⟨found, s₁, hfind, -, hproject⟩ := projectFrom_eq_ok hrun
  obtain rfl : found = t := by
    cases t with
    | cell c => cases ht.complete
    | _ =>
      cases hfind
      rfl
  cases found with
  | tuple ts => exact ht.child (mem_of_getElem? hproject.1)
  | cell c => cases ht.complete
  | _ => exact hproject.elim

theorem letIn_settled (hbody : F.Settles Γ side body) :
    F.Settles Γ side (.letIn n x value body) := by
  intro known env s t s' hsettled henv hrun
  obtain ⟨u, s₁, s₂, s₃, -, -, hb, -⟩ := infer_letIn_ok_iff.1 hrun
  have henv' : F.Knows side (known.filter (· != x.serial)) ([(x.serial, u)] ++ env) := by
    refine .append (fun m hm => henv m (mem_filter.1 hm).1) ?_
    simp only [mem_filter, bne_iff_ne, mem_singleton]
    rintro m ⟨-, hne⟩ _ rfl rfl
    exact hne rfl
  exact hbody hsettled henv' hb

theorem matchOn_settled (hclauses : ∀ c ∈ clauses.map Prod.snd, F.Settles Γ side c) :
    F.Settles Γ side (.matchOn n subject clauses) := by
  intro known env s t s' hsettled henv hrun
  obtain ⟨u, branches, s₁, s₂, s₃, s₄, -, -, hbranches, hjoin, -⟩ := infer_matchOn_ok_iff.1 hrun
  cases clauses with
  | nil => cases hsettled
  | cons clause clauses =>
    obtain ⟨p, body⟩ := clause
    obtain ⟨bound, v, more, s₅, s₆, hp, hbody, -, rfl⟩ := inferClauses_cons_ok_iff.1 hbranches
    obtain ⟨rfl, -⟩ := hjoin
    refine hclauses body (.head _) hsettled (Knows.append ?_ ?_) hbody
    · exact fun m hm => henv m (mem_filter.1 hm).1
    · simp only [mem_filter, Bool.not_eq_true', contains_eq_mem, decide_eq_false_iff_not]
      rintro m ⟨-, hm⟩ b hb rfl
      exact hm (checkPattern_bound hp b hb)

theorem tensor_of_constant (hrun : infer Γ refuse (.constant n c) env s = .ok t s') :
    ∃ shape, t = .tensor shape c.dtype := by
  have ht := (infer_constant_ok_iff.1 hrun).1
  unfold Ty.ofEntries at ht
  split at ht
  · cases ht
    exact ⟨_, rfl⟩
  · cases ht

theorem infer_settles (h : F.Admits side e) : F.Settles Γ side e := by
  induction h with
  | @node side e here children ih =>
    intro known env s t s' hsettled henv hrun
    cases e with
    | var x =>
      exact henv x.serial (by simpa [Expr.settled] using hsettled) t (infer_var_ok_iff.1 hrun).1
    | global | op | ctor | call => cases hsettled
    | constant n c =>
      obtain ⟨shape, rfl⟩ := tensor_of_constant hrun
      exact .intro rfl (by simp) (by simp)
    | fn n params body ret typeParams relations =>
      obtain ⟨as, r, rfl, hlimited⟩ := function_settled
        (f := ⟨n, params, body, ret, typeParams, relations⟩) (ih body (by simp))
        here.written hsettled henv hrun
      exact .intro rfl here.typeParams hlimited
    | letIn n x value body =>
      exact letIn_settled (ih body (by simp)) hsettled henv hrun
    | tuple n fields =>
      obtain ⟨ts, s₁, hts, rfl, -⟩ := infer_tuple_ok_iff.1 hrun
      exact .intro rfl (by simp) (inferList_limited ih hsettled henv hts)
    | proj n e index =>
      obtain ⟨u, s₁, s₂, hu, hproject, -⟩ := infer_proj_ok_iff.1 hrun
      exact projectFrom_limited (ih e (by simp) hsettled henv hu) hproject
    | cond n test whenTrue whenFalse =>
      obtain ⟨c, u, s₁, s₂, s₃, s₄, s₅, -, -, ht, -⟩ := infer_cond_ok_iff.1 hrun
      exact ih whenTrue (by simp) hsettled henv ht
    | matchOn n subject clauses =>
      rw [Expr.children, forall_mem_cons] at ih
      exact matchOn_settled ih.2 hsettled henv hrun
  | call => exact fun _ _ _ _ _ hsettled => Bool.noConfusion hsettled
  | bind _ _ _ _ _ ih => exact letIn_settled ih

/-! ## What is typed on a side -/

/-- Typing an expression on a side stays on the side. -/
def Encloses (F : LocalFunction) (Γ : Context) (side : Side) (e : Expr) : Prop :=
  ∀ ⦃D env s t s'⦄, F.Stands D s → F.Suits D s.engine.store side env → F.Silent side e s →
    infer Γ refuse e env s = .ok t s' →
      ∃ D', F.Goes side D s D' s' ∧ D'.On side s'.engine.store t

theorem Goes.node (h : F.Goes side D s D' s') (hn : F.Placed side e.serial)
    (ht : D'.On side s'.engine.store t) :
    ∃ D', F.Goes side D s D' (s'.notedExpr e t) ∧ D'.On side (s'.notedExpr e t).engine.store t := by
  have hlast : F.Goes side D' s' D' (s'.notedExpr e t) := .placedExpr h.stands hn ht
  exact ⟨D', h.trans hlast, hlast.keeps.on ht⟩

theorem infer_var_goes (hx : F.Node side (.var x)) : F.Encloses Γ side (.var x) := by
  intro D env s t s' h hsuits _ hrun
  obtain ⟨hlookup, rfl⟩ := infer_var_ok_iff.1 hrun
  obtain ⟨hon, hnoted⟩ := hsuits.lookup h (hx.reads _ (by simp [Expr.reads])) hlookup
  have h₁ : F.Goes side D s D (s.notedExpr (.var x) t) := .notedExpr h hnoted
  exact ⟨D, h₁, h₁.keeps.on hon⟩

theorem symbol_goes (h : F.Stands D s) (he : e.isReference = true) (hnode : F.Node side e)
    (ht : D.On side s.engine.store t) : F.Goes side D s D (s.notedExpr e t) := by
  cases e with
  | op n name => exact .placedExpr h (hnode.placed n (by simp)) ht
  | global | ctor => exact .refl h
  | var | constant | fn | call | letIn | tuple | proj | cond | matchOn => cases he

theorem infer_reference_goes (hΓ : F.Serves Γ) (he : e.isReference = true) (hnode : F.Node side e) :
    F.Encloses Γ side e := by
  intro D env s t s' h hsuits hsilent hrun
  obtain ⟨ts, s₁, href, rfl⟩ := (infer_reference_ok_iff he).1 hrun
  obtain ⟨hno, -⟩ | ⟨-, r, hr, href⟩ := reference_ok_iff.1 href
  · rw [he] at hno
    cases hno
  cases hr
  obtain ⟨D₁, h₁, hon⟩ := reference_goes hΓ h hnode.written hsilent (by simp) href
  have h₂ := symbol_goes h₁.stands he hnode hon
  exact ⟨D₁, h₁.trans h₂, h₂.keeps.on hon⟩

theorem infer_constant_goes (hnode : F.Node side (.constant n c)) :
    F.Encloses Γ side (.constant n c) := by
  intro D env s t s' h hsuits _ hrun
  obtain ⟨-, rfl⟩ := infer_constant_ok_iff.1 hrun
  obtain ⟨shape, rfl⟩ := tensor_of_constant hrun
  exact (Goes.refl h).node (hnode.placed n (by simp)) (.tensor _ _)

theorem inferList_goes (hes : ∀ c ∈ es, F.Encloses Γ side c) (h : F.Stands D s)
    (hsuits : F.Suits D s.engine.store side env) (hsilent : ∀ c ∈ es, F.Silent side c s)
    (hrun : inferList Γ refuse es env s = .ok ts s') :
    ∃ D', F.Goes side D s D' s' ∧ ∀ t ∈ ts, D'.On side s'.engine.store t := by
  induction es generalizing D s ts with
  | nil =>
    obtain ⟨rfl, rfl⟩ := inferList_nil_ok_iff.1 hrun
    exact ⟨D, .refl h, by simp⟩
  | cons e es ih =>
    obtain ⟨t, s₁, us, he, hus, rfl⟩ := inferList_cons_ok_iff.1 hrun
    simp only [forall_mem_cons] at hes hsilent
    obtain ⟨D₁, h₁, hon⟩ := hes.1 h hsuits hsilent.1 he
    obtain ⟨D₂, h₂, hons⟩ := ih hes.2 h₁.stands (hsuits.keeps h₁.keeps)
      (fun c hc => (hsilent.2 c hc).goes h₁) hus
    exact ⟨D₂, h₁.trans h₂, forall_mem_cons.2 ⟨h₂.keeps.on hon, hons⟩⟩

theorem infer_tuple_goes {fields : List Expr} (hnode : F.Node side (.tuple n fields))
    (hfields : ∀ c ∈ fields, F.Encloses Γ side c) : F.Encloses Γ side (.tuple n fields) := by
  intro D env s t s' h hsuits hsilent hrun
  obtain ⟨ts, s₁, hts, rfl, rfl⟩ := infer_tuple_ok_iff.1 hrun
  obtain ⟨D₁, h₁, hons⟩ := inferList_goes hfields h hsuits (fun c hc => hsilent.child hc) hts
  exact h₁.node (hnode.placed n (by simp)) (.tuple hons)

theorem infer_proj_goes (hnode : F.Node side (.proj n e index)) (he : F.Encloses Γ side e) :
    F.Encloses Γ side (.proj n e index) := by
  intro D env s t s' h hsuits hsilent hrun
  obtain ⟨u, s₁, s₂, hu, hproject, rfl⟩ := infer_proj_ok_iff.1 hrun
  obtain ⟨D₁, h₁, hu⟩ := he h hsuits (hsilent.child (by simp)) hu
  obtain ⟨D₂, h₂, hon⟩ := projectFrom_goes h₁.stands hu hproject
  exact (h₁.trans h₂).node (hnode.placed n (by simp)) hon

theorem infer_cond_goes {test whenTrue whenFalse : Expr}
    (hnode : F.Node side (.cond n test whenTrue whenFalse)) (htest : F.Encloses Γ side test)
    (hwhenTrue : F.Encloses Γ side whenTrue) (hwhenFalse : F.Encloses Γ side whenFalse) :
    F.Encloses Γ side (.cond n test whenTrue whenFalse) := by
  intro D env s t s' h hsuits hsilent hrun
  obtain ⟨c, u, s₁, s₂, s₃, s₄, s₅, hc, hbool, ht, hu, hunify, rfl⟩ := infer_cond_ok_iff.1 hrun
  obtain ⟨D₁, h₁, hcon⟩ := htest h hsuits (hsilent.child (by simp)) hc
  have h₂ := h₁.trans (unify_goes h₁.stands (.tensor _ _) hcon hbool)
  obtain ⟨D₃, h₃, hton⟩ := hwhenTrue h₂.stands (hsuits.keeps h₂.keeps)
    ((hsilent.child (by simp)).goes h₂) ht
  have h₂₃ := h₂.trans h₃
  obtain ⟨D₄, h₄, huon⟩ := hwhenFalse h₃.stands (hsuits.keeps h₂₃.keeps)
    ((hsilent.child (by simp)).goes h₂₃) hu
  have h₅ := unify_goes h₄.stands (h₄.keeps.on hton) huon hunify
  exact ((h₂₃.trans h₄).trans h₅).node (hnode.placed n (by simp))
    (h₅.keeps.on (h₄.keeps.on hton))

theorem inferClauses_goes (hclauses : ∀ c ∈ clauses.map Prod.snd, F.Encloses Γ side c)
    (hwritten : ∀ c ∈ clauses, ∀ u ∈ c.1.written, u.Limited F.params (F.scope side))
    (hserials : ∀ c ∈ clauses, ∀ n ∈ c.1.serial :: c.1.inner, F.Placed side n ∧ n ∉ F.given)
    (h : F.Stands D s) (hsuits : F.Suits D s.engine.store side env)
    (ht : D.On side s.engine.store t) (hsilent : ∀ c ∈ clauses.map Prod.snd, F.Silent side c s)
    (hrun : inferClauses Γ refuse t clauses env s = .ok branches s') :
    ∃ D', F.Goes side D s D' s' ∧ ∀ b ∈ branches, D'.On side s'.engine.store b.2 := by
  induction clauses generalizing D s branches with
  | nil =>
    obtain ⟨rfl, rfl⟩ := inferClauses_nil_ok_iff.1 hrun
    exact ⟨D, .refl h, by simp⟩
  | cons c clauses ih =>
    obtain ⟨p, body⟩ := c
    obtain ⟨bound, u, more, s₁, s₂, hp, hbody, hrest, rfl⟩ := inferClauses_cons_ok_iff.1 hrun
    rw [map_cons, forall_mem_cons] at hclauses hsilent
    rw [forall_mem_cons] at hwritten hserials
    obtain ⟨D₁, h₁, hbound⟩ := checkPattern_goes h ht hwritten.1
      (fun n hn => hserials.1 n (.tail _ hn)) hp
    have h₂ : F.Goes side D₁ s₁ D₁ (s₁.noted p.serial (.pattern p) t) :=
      .placed h₁.stands _ (hserials.1 p.serial (.head _)).1 (h₁.keeps.on ht)
    have h₁₂ := h₁.trans h₂
    obtain ⟨D₃, h₃, hu⟩ := hclauses.1 h₂.stands
      ((hbound.keeps h₂.keeps).append (hsuits.keeps h₁₂.keeps)) (hsilent.1.goes h₁₂) hbody
    have h₂₃ := h₁₂.trans h₃
    obtain ⟨D₄, h₄, hmore⟩ := ih hclauses.2 hwritten.2 hserials.2 h₃.stands
      (hsuits.keeps h₂₃.keeps) (h₂₃.keeps.on ht) (fun c hc => (hsilent.2 c hc).goes h₂₃) hrest
    exact ⟨D₄, h₂₃.trans h₄, forall_mem_cons.2 ⟨h₄.keeps.on hu, hmore⟩⟩

theorem unifyBranches_goes (h : F.Stands D s) (ht : D.On side s.engine.store t)
    (hbranches : ∀ b ∈ branches, D.On side s.engine.store b.2)
    (hrun : unifyBranches t branches s = .ok () s') : F.Goes side D s D s' := by
  induction branches generalizing s with
  | nil =>
    cases hrun
    exact .refl h
  | cons b branches ih =>
    obtain ⟨_, s₁, hunify, hrun⟩ := bind_ok_iff.1 hrun
    rw [forall_mem_cons] at hbranches
    have h₁ := unify_goes h ht hbranches.1 hunify
    exact h₁.trans (ih h₁.stands (h₁.keeps.on ht) (fun b hb => h₁.keeps.on (hbranches.2 b hb)) hrun)

theorem join_goes {result : Ty} (h : F.Stands D s)
    (hbranches : ∀ b ∈ branches, D.On side s.engine.store b.2)
    (hrun : JoinRun subject t branches s result s') :
    ∃ D', F.Goes side D s D' s' ∧ D'.On side s'.engine.store result := by
  cases branches with
  | nil => exact fresh_goes h side hrun
  | cons b rest =>
    obtain ⟨rfl, s₁, hunify, rfl⟩ := hrun
    rw [forall_mem_cons] at hbranches
    have h₁ := unifyBranches_goes h hbranches.1 hbranches.2 hunify
    exact ⟨D, h₁.trans (.of_same h₁.stands rfl rfl rfl rfl rfl), h₁.keeps.on hbranches.1⟩

theorem infer_matchOn_goes (hnode : F.Node side (.matchOn n subject clauses))
    (hsubject : F.Encloses Γ side subject)
    (hclauses : ∀ c ∈ clauses.map Prod.snd, F.Encloses Γ side c) :
    F.Encloses Γ side (.matchOn n subject clauses) := by
  intro D env s t s' h hsuits hsilent hrun
  obtain ⟨u, branches, s₁, s₂, s₃, s₄, hu, hcheck, hbranches, hjoin, rfl⟩ :=
    infer_matchOn_ok_iff.1 hrun
  obtain ⟨D₁, h₁, huon⟩ := hsubject h hsuits (hsilent.child (by simp)) hu
  have hlooks : F.Goes side D₁ s₁ D₁ s₂ :=
    .of_looks h₁.stands (checkSubject_looks h₁.stands.valid.store hcheck)
  have h₂ := h₁.trans hlooks
  obtain ⟨D₃, h₃, hons⟩ := inferClauses_goes hclauses
    (fun c hc v hv => hnode.written v (mem_flatMap.2 ⟨c, hc, hv⟩))
    (fun c hc m hm => ⟨hnode.placed m (.tail _ (mem_flatMap.2 ⟨c, hc, hm⟩)),
      hnode.unsettled m (.tail _ (mem_flatMap.2 ⟨c, hc, hm⟩))⟩)
    h₂.stands (hsuits.keeps h₂.keeps) (hlooks.keeps.on huon)
    (fun c hc => (hsilent.child (.tail _ hc)).goes h₂) hbranches
  obtain ⟨D₄, h₄, hon⟩ := join_goes h₃.stands hons hjoin
  exact ((h₂.trans h₃).trans h₄).node (hnode.placed n (by simp)) hon

theorem paramTypes_goes (h : F.Stands D s)
    (hwritten : ∀ a ∈ xs.filterMap (fun x => x.ascription), a.Limited F.params (F.scope side))
    (hplaced : ∀ x ∈ xs, F.Placed side x.serial)
    (hgiven : ∀ x ∈ xs, x.serial ∈ F.given → x.ascription.isSome = true ∧ side = .outside)
    (hrun : paramTypes Γ xs s = .ok ts s') :
    ∃ D', F.Goes side D s D' s' ∧ (∀ t ∈ ts, D'.On side s'.engine.store t) ∧
      F.Suits D' s'.engine.store side ((xs.zip ts).map fun (x, t) => (x.serial, t)) := by
  induction xs generalizing D s ts with
  | nil =>
    obtain ⟨rfl, rfl⟩ := paramTypes_nil_ok_iff.1 hrun
    exact ⟨D, .refl h, by simp, forall_mem_nil _⟩
  | cons x xs ih =>
    obtain ⟨t, s₁, us, ht, hus, rfl⟩ := paramTypes_cons_ok_iff.1 hrun
    rw [forall_mem_cons] at hplaced hgiven
    have hfirst : ∃ D₁, F.Goes side D s D₁ s₁ ∧ D₁.On side s₁.engine.store t ∧
        (x.serial ∈ F.given → t.Limited F.params []) := by
      rcases ht with ⟨hnone, hfresh⟩ | ⟨hsome, -, rfl⟩
      · obtain ⟨D₁, h₁, hon⟩ := fresh_goes h side hfresh
        refine ⟨D₁, h₁, hon, fun hx => ?_⟩
        have := (hgiven.1 hx).1
        rw [hnone] at this
        cases this
      · have hlimited := hwritten t (mem_filterMap.2 ⟨x, .head _, hsome⟩)
        refine ⟨D, .refl h, h.limited hlimited, fun hx => ?_⟩
        rwa [(hgiven.1 hx).2] at hlimited
    obtain ⟨D₁, h₁, hon, hlimited⟩ := hfirst
    have h₂ : F.Goes side D₁ s₁ D₁ (s₁.notedExpr (.var x) t) := .placedExpr h₁.stands hplaced.1 hon
    obtain ⟨D₃, h₃, hons, hsuits⟩ := ih h₂.stands (fun a ha => by
      obtain ⟨y, hy, hya⟩ := mem_filterMap.1 ha
      exact hwritten a (mem_filterMap.2 ⟨y, .tail _ hy, hya⟩))
      hplaced.2 hgiven.2 hus
    replace hon := h₃.keeps.on (h₂.keeps.on hon)
    exact ⟨D₃, (h₁.trans h₂).trans h₃, forall_mem_cons.2 ⟨hon, hons⟩,
      .cons (.of_placed hplaced.1 hlimited hon) hsuits⟩

theorem function_goes {scope : List TypeParam} {b : Ty} {site : Phrase}
    (hbody : F.Encloses Γ side f.body) (h : F.Stands D s)
    (hsuits : F.Suits D s.engine.store side env) (hsilent : F.Silent side f.body s)
    (hwritten : ∀ t ∈ f.toExpr.written, t.Limited F.params (F.scope side))
    (hplaced : ∀ x ∈ f.params, F.Placed side x.serial)
    (hgiven : ∀ x ∈ f.params, x.serial ∈ F.given → x.ascription.isSome = true ∧ side = .outside)
    (hparams : paramTypes Γ f.params { s with scope } = .ok ts s₁)
    (hinfer : infer Γ refuse f.body (extend env f.params ts) s₁ = .ok b s₂)
    (hasc : Ascribed Γ f.ret b site s₂ s₃) :
    ∃ D', F.Goes side D s D' s₃ ∧ (∀ t ∈ ts, D'.On side s₃.engine.store t) ∧
      D'.On side s₃.engine.store b := by
  simp only [Function.toExpr, Expr.written, mem_append, or_imp, forall_and] at hwritten
  have h₀ : F.Goes side D s D { s with scope } := .of_same h rfl rfl rfl rfl rfl
  obtain ⟨D₁, h₁, hts, hbound⟩ :=
    paramTypes_goes h₀.stands hwritten.1.1 hplaced hgiven hparams
  have h₀₁ := h₀.trans h₁
  have henv : F.Suits D₁ s₁.engine.store side (extend env f.params ts) :=
    Suits.append (fun x hx => hbound x (mem_reverse.1 hx)) (hsuits.keeps h₀₁.keeps)
  obtain ⟨D₂, h₂, hb⟩ := hbody h₁.stands henv (hsilent.goes h₀₁) hinfer
  have h₃ := ascribed_goes h₂.stands hwritten.1.2 hb hasc
  exact ⟨D₂, (h₀₁.trans h₂).trans h₃, fun t ht => h₃.keeps.on (h₂.keeps.on (hts t ht)),
    h₃.keeps.on hb⟩

section

variable (hF : F.Sealed)

include hF

theorem infer_fn_goes {params : List Var} {ret : Option Ty} {typeParams : List TypeParam}
    {relations : List TypeRelation}
    (hnode : F.Node side (.fn n params body ret typeParams relations))
    (hbody : F.Encloses Γ side body) :
    F.Encloses Γ side (.fn n params body ret typeParams relations) := by
  intro D env s t s' h hsuits hsilent hrun
  obtain ⟨ts, b, s₁, s₂, s₃, s₄, hparams, hinfer, hasc, -, hrel, rfl, rfl⟩ := infer_fn_ok_iff.1 hrun
  have hplaced x (hx : x ∈ params) : F.Placed side x.serial :=
    hnode.placed _ (mem_cons_of_mem _ (mem_map_of_mem hx))
  have hgiven x (hx : x ∈ params) (hin : x.serial ∈ F.given) :
      x.ascription.isSome = true ∧ side = .outside := by
    constructor
    · by_contra hnone
      refine hnode.unsettled x.serial (mem_cons_of_mem _ (mem_map_of_mem ?_)) hin
      exact mem_filter.2 ⟨hx, by simpa using hnone⟩
    · cases side with
      | outside => rfl
      | inside => exact absurd (hplaced x hx) (hF.given _ hin)
  obtain ⟨D₃, h₃, hts, hb⟩ := function_goes (f := ⟨n, params, body, ret, typeParams, relations⟩)
    hbody h hsuits (hsilent.child (by simp)) hnode.written hplaced hgiven hparams
    hinfer hasc
  have hslots : ∀ r ∈ relations, ∀ a ∈ r.args, D₃.On side s₃.engine.store a := fun r hr a ha =>
    h₃.stands.limited (hnode.written a (by simpa using .inr (.inr ⟨r, hr, ha⟩)))
  have h₄ : F.Goes side D₃ s₃ D₃ s₄ := by
    rcases hrel with ⟨-, hrel⟩ | ⟨-, rfl⟩
    · exact relateAll_goes h₃.stands hslots hrel
    · exact .refl h₃.stands
  have h₅ : F.Goes side D₃ s₄ D₃ { s₄ with scope := s.scope } :=
    .of_same h₄.stands rfl rfl rfl rfl rfl
  have hon : D₃.On side s₃.engine.store (.func ts (ret.getD b) typeParams relations) := by
    refine .func hts ?_ (h₃.stands.params_eq ▸ hnode.typeParams) hslots
    cases ret with
    | none => exact hb
    | some r => exact h₃.stands.limited (hnode.written r (by simp))
  exact ((h₃.trans h₄).trans h₅).node (hnode.placed n (by simp))
    (h₅.keeps.on (h₄.keeps.on hon))

/-- A call goes on with its arguments when its callee has been typed on the side or is the
function. -/
theorem call_goes {f : Ty} {direct : Option (List Ty)} {given : List Ty} (hn : F.Placed side n)
    (hargs : ∀ c ∈ args, F.Encloses Γ side c) (hsuits : F.Suits D s.engine.store side env)
    (hsilent : ∀ c ∈ args, F.Silent side c s) (h₁ : F.Goes side D s D' s₁)
    (hf : D'.On side s₁.engine.store f ∨ F.Generic s₁.engine.store f ∧ direct = none)
    (hts : inferList Γ refuse args env s₁ = .ok ts s₂)
    (happly : applyTo Γ (.call n callee args typeArgs attrs) f direct args ts attrs s₂ =
      .ok (t, given) s₃) :
    ∃ D₃, F.Goes side D s D₃ ({ s₃ with callArgs := s₃.callArgs.insert n given }.notedExpr
        (.call n callee args typeArgs attrs) t) ∧ D₃.On side s₃.engine.store t := by
  obtain ⟨D₂, h₂, hons⟩ := inferList_goes hargs h₁.stands (hsuits.keeps h₁.keeps)
    (fun c hc => (hsilent c hc).goes h₁) hts
  obtain ⟨D₃, h₃, hon⟩ := applyTo_goes hF.generic h₂.stands
    (hf.imp h₂.keeps.on fun hf => ⟨hf.1.keeps h₂.keeps, hf.2⟩) hons happly
  have h₄ : F.Goes side D₃ s₃ D₃ { s₃ with callArgs := s₃.callArgs.insert n given } :=
    .of_same h₃.stands rfl rfl rfl rfl rfl
  exact ⟨D₃, (((h₁.trans h₂).trans h₃).trans h₄).trans (.placedExpr h₄.stands hn hon), hon⟩

theorem infer_call_goes (hΓ : F.Serves Γ) (hnode : F.Node side (.call n callee args typeArgs attrs))
    (hreference : callee.isReference = true → F.Node side callee)
    (hcallee : F.Encloses Γ side callee) (hargs : ∀ c ∈ args, F.Encloses Γ side c) :
    F.Encloses Γ side (.call n callee args typeArgs attrs) := by
  intro D env s t s' h hsuits hsilent hrun
  obtain ⟨f, direct, ts, given, s₁, s₂, s₃, hf, hts, happly, rfl⟩ := infer_call_ok_iff.1 hrun
  have hsilent' : F.Silent side callee s := hsilent.child (by simp)
  obtain ⟨D₁, h₁, hfon⟩ : ∃ D₁, F.Goes side D s D₁ s₁ ∧ D₁.On side s₁.engine.store f := by
    rcases hf with ⟨href, given', s₀, hr, -, rfl⟩ | ⟨-, -, -, hf⟩
    · obtain ⟨D₁, h₁, hfon⟩ := reference_goes hΓ h (hreference href).written hsilent'
        hnode.written hr
      have h₂ := symbol_goes h₁.stands href (hreference href) hfon
      exact ⟨D₁, h₁.trans h₂, h₂.keeps.on hfon⟩
    · exact hcallee h hsuits hsilent' hf
  exact call_goes hF (hnode.placed n (by simp)) hargs hsuits
    (fun c hc => hsilent.child (.tail _ hc)) h₁ (.inl hfon) hts happly

theorem infer_letIn_goes (hnode : F.Node side (.letIn n x value body))
    (hsettles : F.Settles Γ side value) (hvalue : F.Encloses Γ side value)
    (hbody : F.Encloses Γ side body) : F.Encloses Γ side (.letIn n x value body) := by
  intro D env s t s' h hsuits hsilent hrun
  obtain ⟨u, s₁, s₂, s₃, hv, hasc, hb, rfl⟩ := infer_letIn_ok_iff.1 hrun
  have hn := hnode.placed n (by simp)
  have hx := hnode.placed x.serial (by simp)
  have hgiven (hin : x.serial ∈ F.given) :
      value.function?.isSome = false ∧ value.settled F.given = true ∧ side = .outside := by
    have hsettled : value.function?.isNone && value.settled F.given := by
      by_contra hno
      exact hnode.unsettled x.serial (by simp [Expr.unsettled, hno]) hin
    rw [Bool.and_eq_true, Option.isNone_iff_eq_none] at hsettled
    refine ⟨by simp [hsettled.1], hsettled.2, ?_⟩
    cases side with
    | outside => rfl
    | inside => exact absurd hx (hF.given _ hin)
  have hsilent' : F.Silent side value s := hsilent.child (by simp)
  obtain ⟨D₁, h₁, hu, hlimited⟩ : ∃ D₁, F.Goes side D s D₁ s₁ ∧ D₁.On side s₁.engine.store u ∧
      (x.serial ∈ F.given → u.Limited F.params []) := by
    rcases hv with ⟨hfunction, v, s₄, s₅, hfresh, hv, hunify⟩ | ⟨-, hv⟩
    · have hnot : x.serial ∉ F.given := fun hin => by simp [(hgiven hin).1] at hfunction
      obtain ⟨D₄, h₄, hcell⟩ := fresh_goes h side hfresh
      obtain ⟨D₅, h₅, hvon⟩ := hvalue h₄.stands
        (.cons (.of_placed hx (absurd · hnot) hcell) (hsuits.keeps h₄.keeps)) (hsilent'.goes h₄) hv
      have h₆ := unify_goes h₅.stands (h₅.keeps.on hcell) hvon hunify
      exact ⟨D₅, (h₄.trans h₅).trans h₆, h₆.keeps.on (h₅.keeps.on hcell), (absurd · hnot)⟩
    · obtain ⟨D₁, h₁, hu⟩ := hvalue h hsuits hsilent' hv
      refine ⟨D₁, h₁, hu, fun hin => ?_⟩
      obtain ⟨-, hsettled, rfl⟩ := hgiven hin
      exact hsettles hsettled hsuits.knows hv
  have h₂ := ascribed_goes h₁.stands hnode.written hu hasc
  have h₃ : F.Goes side D₁ s₂ D₁ (s₂.notedExpr (.var x) u) :=
    .placedExpr h₂.stands hx (h₂.keeps.on hu)
  have h₁₃ := (h₁.trans h₂).trans h₃
  obtain ⟨D₄, h₄, hon⟩ := hbody h₃.stands
    (.cons (.of_placed hx hlimited (h₃.keeps.on (h₂.keeps.on hu))) (hsuits.keeps h₁₃.keeps))
    ((hsilent.child (by simp)).goes h₁₃) hb
  exact (h₁₃.trans h₄).node hn hon

section

variable (hbody : F.Encloses Γ .inside F.function.body)

include hbody

/-- The function itself is typed inside, and its type is all written. -/
theorem infer_self_goes (h : F.Stands D s) (hsuits : F.Suits D s.engine.store .inside env)
    (hsilent : F.Silent .inside F.expr s) (hrun : infer Γ refuse F.expr env s = .ok t s') :
    ∃ D', F.Goes .inside D s D' s' ∧ ∃ as r rs, t = .func as r F.params rs ∧
      ∀ u ∈ t.children, u.Limited F.params F.params := by
  have hsettles : F.Settles Γ .inside F.function.body := infer_settles hF.body
  obtain ⟨as, r, ht, hlimited⟩ :=
    function_settled hsettles hF.written hF.settled hsuits.knows hrun
  obtain ⟨ts, b, s₁, s₂, s₃, s₄, hparams, hinfer, hasc, -, hrel, -, rfl⟩ := infer_fn_ok_iff.1 hrun
  have hplaced x (hx : x ∈ F.function.params) : F.Placed .inside x.serial := by
    simp only [Placed, serials, expr, Function.toExpr, Expr.serials, mem_append]
    exact .inl (mem_map_of_mem hx)
  have hsilent : F.Silent .inside F.function.body s :=
    hsilent.child (by simp [expr, Function.toExpr])
  obtain ⟨D₃, h₃, -, -⟩ := function_goes hbody h hsuits hsilent hF.written hplaced
    (fun x hx hin => absurd (hplaced x hx) (hF.given _ hin)) hparams hinfer hasc
  obtain ⟨-, rfl⟩ : _ ∧ s₄ = s₃ :=
    hrel.resolve_left fun hempty => hF.generic (by simpa using hempty.1)
  have h₄ : F.Goes .inside D₃ s₄ D₃ { s₄ with scope := s.scope } :=
    .of_same h₃.stands rfl rfl rfl rfl rfl
  have hself : F.expr.serial ∈ F.serials := by
    simp [serials, expr, Function.toExpr, Expr.serials, Expr.serial]
  exact ⟨D₃, (h₃.trans h₄).trans (.notedExpr h₄.stands (e := F.expr) (absurd hself)), as, r, _, ht,
    hlimited⟩

/-- What denotes the function is known to have its type. -/
theorem infer_denoting (he : F.Denotes e) (h : F.Stands D s)
    (hsuits : F.Suits D s.engine.store .outside env) (hsilent : F.Silent .outside e s)
    (hrun : infer Γ refuse e env s = .ok t s') :
    ∃ D', F.Goes .outside D s D' s' ∧ F.Generic s'.engine.store t := by
  rcases he with rfl | ⟨x, rfl, hx⟩
  · obtain ⟨D₁, h₁, as, r, rs, rfl, hlimited⟩ := infer_self_goes hF hbody h hsuits.enter
      (fun g hg => hsilent g ⟨Expr.self_mem_parts _, hg⟩) hrun
    exact ⟨D₁, h₁.outside, as, r, rs, rfl, hlimited⟩
  · obtain ⟨hlookup, rfl⟩ := infer_var_ok_iff.1 hrun
    have hgeneric := (hsuits _ (mem_of_lookup hlookup)).2.2.1 hx
    have h₁ : F.Goes .outside D s D (s.notedExpr (.var x) t) :=
      .notedExpr h fun _ => .inr hgeneric
    exact ⟨D, h₁, hgeneric.keeps h₁.keeps⟩

/-- The function is called where it stands, or by one of its names. -/
theorem infer_call_self (hnode : F.Node .outside (.call n callee args typeArgs attrs))
    (hcalled : F.Denotes callee) (hargs : ∀ c ∈ args, F.Encloses Γ .outside c) :
    F.Encloses Γ .outside (.call n callee args typeArgs attrs) := by
  intro D env s t s' h hsuits hsilent hrun
  obtain ⟨f, direct, ts, given, s₁, s₂, s₃, hf, hts, happly, rfl⟩ := infer_call_ok_iff.1 hrun
  have hreference : callee.isReference = false := by
    rcases hcalled with rfl | ⟨x, rfl, -⟩ <;> rfl
  obtain ⟨-, rfl, hinfer⟩ : typeArgs.getD [] = [] ∧ direct = none ∧
      infer Γ refuse callee env s = .ok f s₁ := by
    rcases hf with ⟨href, -⟩ | ⟨-, hf⟩
    · rw [hreference] at href
      cases href
    · exact hf
  obtain ⟨D₁, h₁, hgeneric⟩ := infer_denoting hF hbody hcalled h hsuits
    (hsilent.child (by simp)) hinfer
  exact call_goes hF (hnode.placed n (by simp)) hargs hsuits
    (fun c hc => hsilent.child (.tail _ hc)) h₁ (.inr ⟨hgeneric, rfl⟩) hts happly

end

/-- The cell that stands for a name of the function gets the type of the function. -/
theorem valueRun_self (hself : F.Encloses Γ .inside F.function.body) (hvalue : F.Denotes value)
    (hx : x.serial ∈ F.names) (h : F.Stands D s) (hsuits : F.Suits D s.engine.store .outside env)
    (hsilent : F.Silent .outside value s) (hrun : ValueRun Γ refuse x value env s u s') :
    ∃ D', F.Goes .outside D s D' s' ∧ F.Generic s'.engine.store u := by
  rcases hrun with ⟨hfunction, v, s₁, s₂, hfresh, hv, hunify⟩ | ⟨-, hrun⟩
  · obtain rfl : value = F.expr := by
      refine hvalue.resolve_right ?_
      rintro ⟨y, rfl, -⟩
      cases hfunction
    obtain ⟨hserials, hgiven⟩ := hF.names _ hx
    -- Nothing on either side has the cell, so it is still free when the function is typed.
    obtain ⟨h₁, c, rfl, howns, hc, hfree⟩ := fresh_apart_goes h .outside hfresh
    have hbound : F.Bound D s₁.engine.store .inside x.serial (.cell c) :=
      ⟨(absurd · hserials), (absurd · hgiven)⟩
    obtain ⟨D₂, h₂, as, r, rs, rfl, hlimited⟩ := infer_self_goes hF hself h₁.stands
      (.cons hbound (hsuits.keeps h₁.keeps).enter)
      (fun g hg => (hsilent.goes h₁) g ⟨Expr.self_mem_parts _, hg⟩) hv
    obtain ⟨hc, hfree⟩ := h₂.keeps.apart rfl howns hc hfree
    have hclosed : (Ty.func as r F.params rs).cellOccurrences = [] := by
      rw [eq_nil_iff_forall_not_mem]
      intro d hd
      rcases Ty.mem_cellOccurrences.1 hd with heq | ⟨w, hw, hd⟩
      · cases heq
      · simp [(hlimited w hw).complete] at hd
    obtain ⟨h₃, htop⟩ := unify_apart_goes h₂.stands hc hfree hclosed rfl hunify
    exact ⟨D₂, (h₁.trans h₂.outside).trans h₃, as, r, rs, htop, hlimited⟩
  · exact infer_denoting hF hself hvalue h hsuits hsilent hrun

theorem infer_bind_self (hself : F.Encloses Γ .inside F.function.body) (hn : F.Placed .outside n)
    (hvalue : F.Denotes value) (hx : x.serial ∈ F.names) (hfree : x.ascription = none)
    (hbody : F.Encloses Γ .outside body) : F.Encloses Γ .outside (.letIn n x value body) := by
  intro D env s t s' h hsuits hsilent hrun
  obtain ⟨u, s₁, s₂, s₃, hv, hasc, hb, rfl⟩ := infer_letIn_ok_iff.1 hrun
  obtain rfl : s₂ = s₁ := by rwa [hfree] at hasc
  obtain ⟨hserials, hgiven⟩ := hF.names _ hx
  obtain ⟨D₁, h₁, hgeneric⟩ := valueRun_self hF hself hvalue hx h hsuits
    (hsilent.child (by simp)) hv
  have h₂ : F.Goes .outside D₁ s₂ D₁ (s₂.notedExpr (.var x) u) :=
    .notedExpr h₁.stands fun _ => .inr hgeneric
  have h₁₂ := h₁.trans h₂
  have hbound : F.Bound D₁ (s₂.notedExpr (.var x) u).engine.store .outside x.serial u :=
    ⟨hserials, (absurd · hgiven), fun _ => hgeneric.keeps h₂.keeps, (absurd hx)⟩
  obtain ⟨D₃, h₃, hon⟩ := hbody h₂.stands (.cons hbound (hsuits.keeps h₁₂.keeps))
    ((hsilent.child (by simp)).goes h₁₂) hb
  exact (h₁₂.trans h₃).node hn hon

omit hF in
theorem Admits.node_of_reference (h : F.Admits side e) (he : e.isReference = true) :
    F.Node side e := by
  cases h with
  | node here => exact here
  | call => cases he
  | bind => cases he

theorem infer_node_goes (hΓ : F.Serves Γ) (hnode : F.Node side e)
    (hchildren : ∀ c ∈ e.children, F.Admits side c) (ih : ∀ c ∈ e.children, F.Encloses Γ side c) :
    F.Encloses Γ side e := by
  cases e with
  | var x => exact infer_var_goes hnode
  | global | op | ctor => exact infer_reference_goes hΓ rfl hnode
  | constant => exact infer_constant_goes hnode
  | fn => exact infer_fn_goes hF hnode (ih _ (by simp))
  | call n callee args =>
    rw [Expr.children, forall_mem_cons] at ih hchildren
    exact infer_call_goes hF hΓ hnode hchildren.1.node_of_reference ih.1 ih.2
  | letIn n x value body =>
    exact infer_letIn_goes hF hnode (infer_settles (hchildren _ (by simp)))
      (ih _ (by simp)) (ih _ (by simp))
  | tuple => exact infer_tuple_goes hnode ih
  | proj => exact infer_proj_goes hnode (ih _ (by simp))
  | cond n test whenTrue whenFalse =>
    exact infer_cond_goes hnode (ih _ (by simp)) (ih _ (by simp))
      (ih _ (by simp))
  | matchOn n subject clauses =>
    rw [Expr.children, forall_mem_cons] at ih
    exact infer_matchOn_goes hnode ih.1 ih.2

theorem infer_inside (hΓ : F.Serves Γ) (h : F.Admits .inside e) : F.Encloses Γ .inside e := by
  generalize hside : Side.inside = side at h
  induction h with
  | node here children ih => exact infer_node_goes hF hΓ here children fun c hc => ih c hc hside
  | call => cases hside
  | bind => cases hside

theorem infer_encloses (hΓ : F.Serves Γ) (h : F.Admits side e) : F.Encloses Γ side e := by
  have hself := infer_inside hF hΓ hF.body
  induction h with
  | node here children ih => exact infer_node_goes hF hΓ here children ih
  | call here called _ ih => exact infer_call_self hF hself here called ih
  | bind here bound name free _ ih => exact infer_bind_self hF hself here bound name free ih

end

end TensorTyping.LocalFunction
