import TensorTyping.Inference.Group
import TensorTyping.Proofs.Inference.Annotation
import TensorTyping.Proofs.Inference.Ascriptions
import TensorTyping.Proofs.Outcomes
import TensorTyping.Proofs.Ty.Children

/-!
# How a type is found

Typing an expression succeeds exactly if its steps do. For every form of expression it is said here
once what these steps are, in which states they are taken and which type comes out, so that later
proofs do not have to take the definitions apart.
-/
namespace TensorTyping

variable {ε σ α β : Type}
variable {a b : α} {p : Prop} {y : EStateM ε σ α}

theorem bind_ok_iff {x : EStateM ε σ α} {f : α → EStateM ε σ β} {s s' : σ} {b : β} :
    (x >>= f) s = .ok b s' ↔ ∃ a s₁, x s = .ok a s₁ ∧ f a s₁ = .ok b s' := by
  constructor
  · exact bind_eq_ok
  · rintro ⟨a, s₁, hx, hf⟩
    rw [bind_of_ok hx, hf]

theorem pure_ok_iff {s s' : σ} : (pure a : EStateM ε σ α) s = .ok b s' ↔ b = a ∧ s' = s := by
  change EStateM.Result.ok a s = .ok b s' ↔ _
  simp [eq_comm]

theorem throw_ok_iff {e : ε} {s s' : σ} : (throw e : EStateM ε σ α) s = .ok b s' ↔ False := by
  simp [throw_run]

theorem modify_ok_iff {g : σ → σ} {u : PUnit} {s s' : σ} :
    (modify g : EStateM ε σ PUnit) s = .ok u s' ↔ s' = g s := by
  change EStateM.Result.ok PUnit.unit (g s) = .ok u s' ↔ _
  simp [eq_comm]

theorem ite_ok_iff [Decidable p] {x : EStateM ε σ α} {s s' : σ} :
    (if p then x else y) s = .ok b s' ↔ p ∧ x s = .ok b s' ∨ ¬ p ∧ y s = .ok b s' := by
  split <;> simp [*]

theorem ite_then_ok_iff [Decidable p] {x : EStateM ε σ PUnit} {s s' : σ} :
    (if p then (do x; y) else y) s = .ok b s' ↔
      ∃ s₁, (p ∧ x s = .ok ⟨⟩ s₁ ∨ ¬ p ∧ s₁ = s) ∧ y s₁ = .ok b s' := by
  by_cases hp : p
  · simp only [hp, if_true, bind_ok_iff, true_and, not_true, false_and, or_false]
    exact ⟨fun ⟨_, s₁, h⟩ => ⟨s₁, h⟩, fun ⟨s₁, h⟩ => ⟨⟨⟩, s₁, h⟩⟩
  · simp [hp]

namespace Inference

variable {r : Ty × List Ty}

variable {s s' : State}
variable {n : Serial} {t : Ty} {u : Unit} {e body subject : Expr} {ps scope : List TypeParam}
  {m : Module} {ts : List Ty} {site : Phrase} {x : Var} {sig : Signature}
  {explicit : Option (List Ty)} {attrs : Attrs} {args : List Expr} {bound : Env}
variable {i : Issue} {act : InferM Ty} {E : Fault → State → Prop}

def State.noted (s : State) (n : Serial) (p : Phrase) (t : Ty) : State :=
  { s with nodeTypes := s.nodeTypes.insert n (p, t) }

def State.notedExpr (s : State) (e : Expr) (t : Ty) : State :=
  if e.isShared then s else s.noted e.serial (.expr e) t

/-- Nothing is wrong with the written types in a scope. -/
def WellFormed (m : Module) (scope : List TypeParam) (ts : List Ty) : Prop :=
  misformedList? m scope none ts = none

@[simp]
theorem complain_ok_iff : complain i s = .ok a s' ↔ False := throw_ok_iff

theorem noteAt_ok_iff {p : Phrase} :
    noteAt n p t s = .ok u s' ↔ s' = s.noted n p t := modify_ok_iff

theorem note_ok_iff : note e t s = .ok u s' ↔ s' = s.notedExpr e t := by
  unfold note State.notedExpr
  split
  · simp [pure_ok_iff]
  · exact noteAt_ok_iff

theorem typed_ok_iff :
    typed e act s = .ok t s' ↔ ∃ s₁, act s = .ok t s₁ ∧ s' = s₁.notedExpr e t := by
  unfold typed
  cases hact : act s with
  | ok u s₁ =>
    simp only [bind_ok_iff, note_ok_iff, pure_ok_iff]
    constructor
    · rintro ⟨_, s₂, rfl, rfl, rfl⟩
      exact ⟨s₁, rfl, rfl⟩
    · rintro ⟨s₂, hs₂, rfl⟩
      cases hs₂
      exact ⟨(), _, rfl, rfl, rfl⟩
  | error f s₁ => simp

theorem withScope_ok_iff {act : InferM α} :
    withScope ps act s = .ok a s' ↔
      ∃ s₁, act { s with scope := s.scope ++ ps } = .ok a s₁ ∧
        s' = { s₁ with scope := s.scope } := by
  unfold withScope
  cases act { s with scope := s.scope ++ ps } with
  | ok b s₁ =>
    simp only [EStateM.Result.ok.injEq]
    constructor
    · rintro ⟨rfl, rfl⟩
      exact ⟨s₁, ⟨rfl, rfl⟩, rfl⟩
    · rintro ⟨_, ⟨rfl, rfl⟩, rfl⟩
      exact ⟨rfl, rfl⟩
  | error f s₁ => simp

/-- A node is typed as the step for it ends: its type is noted, or it is blamed. -/
theorem typed_ends {P Q : Ty → State → Prop} {E' : Fault → State → Prop} (h : Ends act s P E)
    (hnote : ∀ t s₁, P t s₁ → Q t (s₁.notedExpr e t))
    (hblame : ∀ f s₁, E f s₁ → E' (f.blame (some (.expr e))) s₁) : Ends (typed e act) s Q E' := by
  cases hact : act s with
  | ok t s₁ => exact .of_eq_ok (typed_ok_iff.2 ⟨s₁, hact, rfl⟩) (hnote t s₁ (h.of_ok hact))
  | error f s₁ =>
    have hrun : typed e act s = .error (f.blame (some (.expr e))) s₁ := by simp only [typed, hact]
    exact .of_eq_error hrun (hblame f s₁ (h.of_error hact))

/-- The scope is put back, also where the computation stops. -/
theorem withScope_ends {act : InferM α} {P : α → State → Prop}
    (h : Ends act { s with scope := s.scope ++ ps } P E) :
    Ends (withScope ps act) s (fun a s' => ∃ s₁, P a s₁ ∧ s' = { s₁ with scope := s.scope })
      fun f s' => ∃ s₁, E f s₁ ∧ s' = { s₁ with scope := s.scope } := by
  cases hact : act { s with scope := s.scope ++ ps } with
  | ok a s₁ => exact .of_eq_ok (withScope_ok_iff.2 ⟨s₁, hact, rfl⟩) ⟨s₁, h.of_ok hact, rfl⟩
  | error f s₁ =>
    have hrun : withScope ps act s = .error f { s₁ with scope := s.scope } := by
      simp only [withScope, hact]
    exact .of_eq_error hrun ⟨s₁, h.of_error hact, rfl⟩

theorem wellFormed_iff (site : Option Phrase) :
    misformedList? m scope site ts = none ↔ WellFormed m scope ts := by
  unfold WellFormed
  rw [misformedList?_eq_none_iff, misformedList?_eq_none_iff]
  exact forall₂_congr fun t _ => ⟨misformed?_mono (List.Subset.refl _),
    misformed?_mono (List.Subset.refl _)⟩

variable {Γ : Context} {solve : Global → InferM Unit} {env : Env}
variable {es : List Expr} {index : Index} {o : Option (Ty × List Ty)} {branches : List (Expr × Ty)}
  {as : List Ty}

-- The equations of the traversal, made once for all the proofs below.
attribute [local simp] infer inferList inferClauses

/-- To type a node, something is done first, and then its type is noted. -/
theorem infer_typed (Γ : Context) (solve : Global → InferM Unit) (e : Expr) (env : Env) :
    ∃ act, infer Γ solve e env = typed e act := by
  cases e <;> exact ⟨_, by rw [infer]⟩

theorem checkWritten_ok_iff :
    checkWritten Γ ts site s = .ok u s' ↔ WellFormed Γ.module s.scope ts ∧ s' = s := by
  rw [← wellFormed_iff (some site)]
  unfold checkWritten
  rw [get_bind]
  cases misformedList? Γ.module s.scope (some site) ts with
  | some i => simp
  | none => simp [pure_ok_iff]

theorem inferList_nil_ok_iff : inferList Γ solve [] env s = .ok ts s' ↔ ts = [] ∧ s' = s := by
  unfold inferList
  exact pure_ok_iff

theorem inferList_cons_ok_iff :
    inferList Γ solve (e :: es) env s = .ok ts s' ↔
      ∃ t s₁ us, infer Γ solve e env s = .ok t s₁ ∧ inferList Γ solve es env s₁ = .ok us s' ∧
        ts = t :: us := by
  rw [inferList]
  simp only [bind_ok_iff, pure_ok_iff]
  constructor
  · rintro ⟨t, s₁, ht, us, s₂, hus, rfl, rfl⟩
    exact ⟨t, s₁, us, ht, hus, rfl⟩
  · rintro ⟨t, s₁, us, ht, hus, rfl⟩
    exact ⟨t, s₁, ht, us, s', hus, rfl, rfl⟩

theorem infer_var_ok_iff :
    infer Γ solve (.var x) env s = .ok t s' ↔
      env.lookup x.serial = some t ∧ s' = s.notedExpr (.var x) t := by
  rw [infer, typed_ok_iff]
  cases env.lookup x.serial with
  | none => simp
  | some u =>
    simp only [pure_ok_iff, Option.some.injEq]
    constructor
    · rintro ⟨_, ⟨rfl, rfl⟩, rfl⟩
      exact ⟨rfl, rfl⟩
    · rintro ⟨rfl, rfl⟩
      exact ⟨s, ⟨rfl, rfl⟩, rfl⟩

theorem infer_reference_ok_iff (he : e.isReference = true) :
    infer Γ solve e env s = .ok t s' ↔
      ∃ ts s₁, reference Γ solve e none (.expr e) .empty s = .ok (some (t, ts)) s₁ ∧
        s' = s₁.notedExpr e t := by
  cases e with
  | global | op | ctor =>
    rw [infer, typed_ok_iff]
    simp only [bind_ok_iff]
    constructor
    · rintro ⟨s₁, ⟨found, s₂, hfound, ht⟩, rfl⟩
      cases found with
      | none => simp [throw_ok_iff] at ht
      | some r =>
        obtain ⟨rfl, rfl⟩ := pure_ok_iff.1 ht
        exact ⟨r.2, _, hfound, rfl⟩
    · rintro ⟨ts, s₁, hfound, hend⟩
      exact ⟨s₁, ⟨_, s₁, hfound, rfl⟩, hend⟩
  | _ => cases he

theorem infer_constant_ok_iff {c : Constant} :
    infer Γ solve (.constant n c) env s = .ok t s' ↔
      Ty.ofEntries c.shape c.dtype = .ok t ∧ s' = s.notedExpr (.constant n c) t := by
  rw [infer, typed_ok_iff]
  cases Ty.ofEntries c.shape c.dtype with
  | error f => simp [throw_ok_iff]
  | ok u =>
    simp only [pure_ok_iff, Except.ok.injEq]
    constructor
    · rintro ⟨_, ⟨rfl, rfl⟩, rfl⟩
      exact ⟨rfl, rfl⟩
    · rintro ⟨rfl, rfl⟩
      exact ⟨s, ⟨rfl, rfl⟩, rfl⟩

theorem infer_tuple_ok_iff {fields : List Expr} :
    infer Γ solve (.tuple n fields) env s = .ok t s' ↔
      ∃ ts s₁, inferList Γ solve fields env s = .ok ts s₁ ∧ t = .tuple ts ∧
        s' = s₁.notedExpr (.tuple n fields) t := by
  rw [infer, typed_ok_iff]
  simp only [bind_ok_iff, pure_ok_iff]
  constructor
  · rintro ⟨_, ⟨ts, s₁, hts, rfl, rfl⟩, rfl⟩
    exact ⟨ts, _, hts, rfl, rfl⟩
  · rintro ⟨ts, s₁, hts, rfl, rfl⟩
    exact ⟨s₁, ⟨ts, s₁, hts, rfl, rfl⟩, rfl⟩

/-- What comes of a projection out of a type that stands for another at the top. -/
def ProjectRun (Γ : Context) (site : Expr) (t : Ty) (index : Index) (found : Ty) (s : State)
    (result : Ty) (s' : State) : Prop :=
  match found with
  | .tuple ts => ts[index.toInt.toNat]? = some result ∧ s' = s
  | .cell _ => ∃ s₁, fresh s = .ok result s₁ ∧
      relate Γ ⟨"TupleGetItem", [t, result], 1, .ofList [("index", index.toValue)]⟩ (.expr site)
        .empty s₁ = .ok () s'
  | _ => False

theorem projectFrom_eq_ok {site : Expr} {result : Ty}
    (h : projectFrom Γ site t index s = .ok result s') :
    ∃ found s₁, find t s = .ok found s₁ ∧ 0 ≤ index.toInt ∧
      ProjectRun Γ site t index found s₁ result s' := by
  rw [projectFrom] at h
  obtain ⟨found, s₁, hfind, h⟩ := bind_ok_iff.1 h
  refine ⟨found, s₁, hfind, ?_⟩
  cases found with
  | tuple ts =>
    rcases ite_ok_iff.1 h with ⟨-, h⟩ | ⟨hindex, h⟩
    · exact (complain_ok_iff.1 h).elim
    · cases hu : ts[index.toInt.toNat]? with
      | none =>
        rw [hu] at h
        exact (complain_ok_iff.1 h).elim
      | some u =>
        rw [hu] at h
        obtain ⟨rfl, rfl⟩ := pure_ok_iff.1 h
        exact ⟨Int.not_lt.1 hindex, hu, rfl⟩
  | cell c =>
    rcases ite_ok_iff.1 h with ⟨-, h⟩ | ⟨hindex, h⟩
    · obtain ⟨_, _, h, -⟩ := bind_ok_iff.1 h
      exact (complain_ok_iff.1 h).elim
    · simp only [bind_ok_iff, pure_ok_iff] at h
      obtain ⟨out, s₃, hfresh, _, _, hrelate, rfl, rfl⟩ := h
      exact ⟨Int.not_lt.1 hindex, s₃, hfresh, hrelate⟩
  | _ =>
    rcases ite_ok_iff.1 h with ⟨-, h⟩ | ⟨-, h⟩
    · obtain ⟨_, _, h, -⟩ := bind_ok_iff.1 h
      exact (complain_ok_iff.1 h).elim
    · exact (complain_ok_iff.1 h).elim

theorem infer_proj_ok_iff :
    infer Γ solve (.proj n e index) env s = .ok t s' ↔
      ∃ u s₁ s₂, infer Γ solve e env s = .ok u s₁ ∧
        projectFrom Γ (.proj n e index) u index s₁ = .ok t s₂ ∧
        s' = s₂.notedExpr (.proj n e index) t := by
  rw [infer, typed_ok_iff]
  simp only [bind_ok_iff]
  constructor
  · rintro ⟨s₂, ⟨u, s₁, hu, ht⟩, rfl⟩
    exact ⟨u, s₁, s₂, hu, ht, rfl⟩
  · rintro ⟨u, s₁, s₂, hu, ht, rfl⟩
    exact ⟨s₂, ⟨u, s₁, hu, ht⟩, rfl⟩

theorem infer_cond_ok_iff {test whenTrue whenFalse : Expr} :
    infer Γ solve (.cond n test whenTrue whenFalse) env s = .ok t s' ↔
      ∃ c u s₁ s₂ s₃ s₄ s₅, infer Γ solve test env s = .ok c s₁ ∧
        unify .bool c (.expr test) s₁ = .ok () s₂ ∧ infer Γ solve whenTrue env s₂ = .ok t s₃ ∧
        infer Γ solve whenFalse env s₃ = .ok u s₄ ∧
        unify t u (.expr (.cond n test whenTrue whenFalse)) s₄ = .ok () s₅ ∧
        s' = s₅.notedExpr (.cond n test whenTrue whenFalse) t := by
  rw [infer, typed_ok_iff]
  simp only [bind_ok_iff, pure_ok_iff]
  constructor
  · rintro ⟨_, ⟨c, s₁, hc, _, s₂, hbool, t, s₃, ht, u, s₄, hu, _, s₅, hunify, rfl, rfl⟩, rfl⟩
    exact ⟨c, u, s₁, s₂, s₃, s₄, _, hc, hbool, ht, hu, hunify, rfl⟩
  · rintro ⟨c, u, s₁, s₂, s₃, s₄, s₅, hc, hbool, ht, hu, hunify, rfl⟩
    exact ⟨s₅, ⟨c, s₁, hc, (), s₂, hbool, t, s₃, ht, u, s₄, hu, (), s₅, hunify, rfl, rfl⟩, rfl⟩

/-- A type has been unified with the ascription that is written for it, if there is one. -/
def Ascribed (Γ : Context) (ascription : Option Ty) (t : Ty) (site : Phrase) (s s' : State) :
    Prop :=
  match ascription with
  | none => s' = s
  | some a => WellFormed Γ.module s.scope [a] ∧ unify a t site s = .ok () s'

theorem paramTypes_nil_ok_iff : paramTypes Γ [] s = .ok ts s' ↔ ts = [] ∧ s' = s := by
  unfold paramTypes
  exact pure_ok_iff

theorem paramTypes_cons_ok_iff {xs : List Var} :
    paramTypes Γ (x :: xs) s = .ok ts s' ↔
      ∃ t s₁ us, (x.ascription = none ∧ fresh s = .ok t s₁ ∨
          x.ascription = some t ∧ WellFormed Γ.module s.scope [t] ∧ s₁ = s) ∧
        paramTypes Γ xs (s₁.notedExpr (.var x) t) = .ok us s' ∧ ts = t :: us := by
  rw [paramTypes]
  cases x.ascription with
  | none =>
    simp only [bind_ok_iff, note_ok_iff, pure_ok_iff]
    constructor
    · rintro ⟨t, s₁, ht, _, _, rfl, us, _, hus, rfl, rfl⟩
      exact ⟨t, s₁, us, .inl ⟨trivial, ht⟩, hus, rfl⟩
    · rintro ⟨t, s₁, us, ⟨-, ht⟩ | ⟨h, -⟩, hus, rfl⟩
      · exact ⟨t, s₁, ht, (), _, rfl, us, s', hus, rfl, rfl⟩
      · cases h
  | some a =>
    simp only [bind_ok_iff, checkWritten_ok_iff, note_ok_iff, pure_ok_iff]
    constructor
    · rintro ⟨_, _, ⟨hwf, rfl⟩, _, _, ⟨rfl, rfl⟩, _, _, rfl, us, _, hus, rfl, rfl⟩
      exact ⟨_, _, us, .inr ⟨rfl, hwf, rfl⟩, hus, rfl⟩
    · rintro ⟨t, s₁, us, ⟨h, -⟩ | ⟨h, hwf, rfl⟩, hus, rfl⟩
      · cases h
      · cases h
        exact ⟨(), _, ⟨hwf, rfl⟩, _, _, ⟨rfl, rfl⟩, (), _, rfl, us, s', hus, rfl, rfl⟩

theorem infer_fn_ok_iff {params : List Var} {ret : Option Ty} {typeParams : List TypeParam}
    {relations : List TypeRelation} :
    infer Γ solve (.fn n params body ret typeParams relations) env s = .ok t s' ↔
      ∃ ts b s₁ s₂ s₃ s₄,
        paramTypes Γ params { s with scope := s.scope ++ typeParams } = .ok ts s₁ ∧
        infer Γ solve body (extend env params ts) s₁ = .ok b s₂ ∧
        Ascribed Γ ret b (.expr body) s₂ s₃ ∧
        WellFormed Γ.module s₃.scope (relations.flatMap fun r => r.args) ∧
        (typeParams.isEmpty = true ∧ relateAll Γ
            (.expr (.fn n params body ret typeParams relations)) .empty relations s₃ = .ok () s₄ ∨
          ¬ typeParams.isEmpty = true ∧ s₄ = s₃) ∧
        t = .func ts (ret.getD b) typeParams relations ∧
        s' = { s₄ with scope := s.scope }.notedExpr
          (.fn n params body ret typeParams relations) t := by
  rw [infer, typed_ok_iff]
  simp only [withScope_ok_iff, bind_ok_iff]
  cases ret with
  | none =>
    simp only [bind_ok_iff, checkWritten_ok_iff, pure_ok_iff, ite_then_ok_iff]
    constructor
    · rintro ⟨_, ⟨s₅, ⟨ts, s₁, hts, b, s₂, hb, _, _, ⟨rfl, rfl⟩, _, _, ⟨hwf, rfl⟩, s₄, hrel, rfl,
        rfl⟩, rfl⟩, rfl⟩
      exact ⟨ts, _, s₁, _, _, _, hts, hb, rfl, hwf, hrel, rfl, rfl⟩
    · rintro ⟨ts, b, s₁, s₂, _, s₄, hts, hb, rfl, hwf, hrel, rfl, rfl⟩
      exact ⟨_, ⟨_, ⟨ts, s₁, hts, b, _, hb, _, _, ⟨rfl, rfl⟩, (), _, ⟨hwf, rfl⟩, s₄, hrel, rfl, rfl⟩,
        rfl⟩, rfl⟩
  | some a =>
    simp only [bind_ok_iff, checkWritten_ok_iff, pure_ok_iff, ite_then_ok_iff]
    constructor
    · rintro ⟨_, ⟨s₅, ⟨ts, s₁, hts, b, s₂, hb, _, _, ⟨hwfa, rfl⟩, _, s₃, hunify, _, _, ⟨rfl, rfl⟩,
        _, _, ⟨hwf, rfl⟩, s₄, hrel, rfl, rfl⟩, rfl⟩, rfl⟩
      exact ⟨ts, b, s₁, _, _, _, hts, hb, ⟨hwfa, hunify⟩, hwf, hrel, rfl, rfl⟩
    · rintro ⟨ts, b, s₁, s₂, s₃, s₄, hts, hb, ⟨hwfa, hunify⟩, hwf, hrel, rfl, rfl⟩
      exact ⟨_, ⟨_, ⟨ts, s₁, hts, b, s₂, hb, (), _, ⟨hwfa, rfl⟩, (), s₃, hunify, _, _, ⟨rfl, rfl⟩,
        (), _, ⟨hwf, rfl⟩, s₄, hrel, rfl, rfl⟩, rfl⟩, rfl⟩

/-- A function that is being typed is used at the signature that it declares. -/
def UsedAsDeclared (Γ : Context) (s : State) (g : Global) : Prop :=
  (Γ.declared? g).isSome = true ∧ s.solving.contains g = true

theorem signatureOf_ok_iff {g : Global} :
    signatureOf Γ solve g s = .ok sig s' ↔ Γ.module.functions.contains g = true ∧
      ((UsedAsDeclared Γ s g ∧ Γ.declared? g = some sig ∧ s' = s) ∨
        ¬ UsedAsDeclared Γ s g ∧
          (s.schemes.contains g = false ∧ solve g s = .ok () s' ∨
            s.schemes.contains g = true ∧ s' = s) ∧ s'.schemes.get? g = some sig) := by
  unfold signatureOf UsedAsDeclared
  extract_lets last demand
  have hlast {s₁ : State} :
      last () s₁ = .ok sig s' ↔ s₁.schemes.get? g = some sig ∧ s' = s₁ := by
    dsimp only [last]
    rw [get_bind]
    cases s₁.schemes.get? g with
    | none => simp [throw_ok_iff]
    | some sig' => simp [pure_ok_iff, eq_comm]
  have hdemand : demand () s = .ok sig s' ↔
      (s.schemes.contains g = false ∧ solve g s = .ok () s' ∨
        s.schemes.contains g = true ∧ s' = s) ∧ s'.schemes.get? g = some sig := by
    dsimp only [demand]
    rw [get_bind]
    cases hg : s.schemes.contains g with
    | true =>
      refine hlast.trans ?_
      constructor
      · rintro ⟨h, rfl⟩
        exact ⟨.inr ⟨rfl, rfl⟩, h⟩
      · rintro ⟨⟨h, -⟩ | ⟨-, rfl⟩, h⟩
        · contradiction
        · exact ⟨h, rfl⟩
    | false =>
      refine bind_ok_iff.trans ?_
      constructor
      · rintro ⟨_, s₁, hsolve, h⟩
        obtain ⟨h, rfl⟩ := hlast.1 h
        exact ⟨.inl ⟨rfl, hsolve⟩, h⟩
      · rintro ⟨⟨-, hsolve⟩ | ⟨h, -⟩, h⟩
        · exact ⟨(), s', hsolve, hlast.2 ⟨h, rfl⟩⟩
        · contradiction
  cases hf : Γ.module.functions.contains g with
  | false =>
    refine bind_ok_iff.trans ?_
    simp
  | true =>
    cases hd : Γ.declared? g with
    | none =>
      refine hdemand.trans ?_
      simp
    | some declared =>
      have hrun : (do
          if (← get).solving.contains g then return declared else demand () : InferM Signature) s =
            .ok sig s' ↔
          (s.solving.contains g = true ∧ sig = declared ∧ s' = s) ∨
            ¬ s.solving.contains g = true ∧ demand () s = .ok sig s' := by
        rw [get_bind, ite_ok_iff, pure_ok_iff]
      refine hrun.trans ?_
      rw [hdemand]
      simp only [Option.isSome_some, Option.some.injEq, true_and, eq_comm (a := sig)]

/-- The expression refers to something that has the signature; a global function may have to be
typed for that. -/
def SignatureRun (Γ : Context) (solve : Global → InferM Unit) (e : Expr) (s : State)
    (sig : Signature) (s' : State) : Prop :=
  match e with
  | .global g => s.provisional.get? g = none ∧ signatureOf Γ solve g s = .ok sig s'
  | .op _ name => Γ.operators.table.get? name = some sig ∧ s' = s
  | .ctor c => (∃ d, Γ.module.dataTypeOf? c = some d ∧ sig = d.ctorSignature c) ∧ s' = s
  | _ => False

/-- The function is referred to at its provisional type. -/
def ProvisionalAt (e : Expr) (s : State) (t : Ty) : Prop :=
  match e with
  | .global g => s.provisional.get? g = some t
  | _ => False

/-- What a reference comes to: a provisional type, or an instance of a signature. -/
def ReferenceRun (Γ : Context) (solve : Global → InferM Unit) (e : Expr)
    (explicit : Option (List Ty)) (site : Phrase) (attrs : Attrs) (s : State) (r : Ty × List Ty)
    (s' : State) : Prop :=
  WellFormed Γ.module s.scope (explicit.getD []) ∧
    ((ProvisionalAt e s r.1 ∧ explicit.getD [] = [] ∧ r.2 = [] ∧ s' = s) ∨
      ∃ sig s₁, SignatureRun Γ solve e s sig s₁ ∧
        instantiate Γ sig explicit site attrs s₁ = .ok r s')

theorem return_instance_ok_iff :
    (do return some (← instantiate Γ sig explicit site attrs) : InferM _) s = .ok o s' ↔
      ∃ r, o = some r ∧ instantiate Γ sig explicit site attrs s = .ok r s' := by
  simp only [bind_ok_iff, pure_ok_iff]
  constructor
  · rintro ⟨r, _, hr, rfl, rfl⟩
    exact ⟨r, rfl, hr⟩
  · rintro ⟨r, rfl, hr⟩
    exact ⟨r, s', hr, rfl, rfl⟩

theorem reference_ok_iff :
    reference Γ solve e explicit site attrs s = .ok o s' ↔
      (e.isReference = false ∧ o = none ∧ s' = s) ∨
        e.isReference = true ∧ ∃ r, o = some r ∧
          ReferenceRun Γ solve e explicit site attrs s r s' := by
  cases e with
  | global g =>
    simp only [reference, bind_ok_iff, get_bind, checkWritten_ok_iff, Expr.isReference,
      ReferenceRun, SignatureRun, ProvisionalAt]
    cases hp : s.provisional.get? g with
    | some t =>
      constructor
      · rintro ⟨_, _, ⟨hwf, rfl⟩, h⟩
        simp only [hp, ite_then_ok_iff, complain_ok_iff, pure_ok_iff] at h
        obtain ⟨_, ⟨-, hc⟩ | ⟨hempty, rfl⟩, rfl, rfl⟩ := h
        · exact hc.elim
        · exact .inr ⟨trivial, _, rfl, hwf, .inl ⟨rfl, by simpa using hempty, rfl, rfl⟩⟩
      · rintro (⟨h, -⟩ | ⟨-, r, rfl, hwf, ⟨ht, hgiven, hr, rfl⟩ | ⟨sig, s₁, ⟨h, -⟩, -⟩⟩)
        · cases h
        · refine ⟨(), s', ⟨hwf, rfl⟩, ?_⟩
          obtain ⟨_, _⟩ := r
          cases ht
          subst hr
          rw [hp, hgiven]
          rfl
        · cases h
    | none =>
      constructor
      · rintro ⟨_, _, ⟨hwf, rfl⟩, h⟩
        rw [hp] at h
        obtain ⟨sig, s₁, hsig, h⟩ := bind_ok_iff.1 h
        obtain ⟨r, rfl, hr⟩ := return_instance_ok_iff.1 h
        exact .inr ⟨trivial, r, rfl, hwf, .inr ⟨sig, s₁, ⟨rfl, hsig⟩, hr⟩⟩
      · rintro (⟨h, -⟩ | ⟨-, r, rfl, hwf, ⟨ht, -⟩ | ⟨sig, s₁, ⟨-, hsig⟩, hr⟩⟩)
        · cases h
        · cases ht
        · refine ⟨(), s, ⟨hwf, rfl⟩, ?_⟩
          rw [hp]
          exact bind_ok_iff.2 ⟨sig, s₁, hsig, return_instance_ok_iff.2 ⟨r, rfl, hr⟩⟩
  | op n name =>
    simp only [reference, bind_ok_iff, checkWritten_ok_iff, Expr.isReference, ReferenceRun,
      SignatureRun, ProvisionalAt]
    cases ht : Γ.operators.table.get? name with
    | none => simp
    | some sig =>
      simp only [return_instance_ok_iff]
      constructor
      · rintro ⟨_, _, ⟨hwf, rfl⟩, r, rfl, hr⟩
        exact .inr ⟨trivial, r, rfl, hwf, .inr ⟨sig, _, ⟨rfl, rfl⟩, hr⟩⟩
      · rintro (⟨h, -⟩ | ⟨-, r, rfl, hwf, ⟨h, -⟩ | ⟨_, _, ⟨hsig, rfl⟩, hr⟩⟩)
        · cases h
        · exact h.elim
        · cases hsig
          exact ⟨(), _, ⟨hwf, rfl⟩, r, rfl, hr⟩
  | ctor c =>
    simp only [reference, bind_ok_iff, checkWritten_ok_iff, Expr.isReference, ReferenceRun,
      SignatureRun, ProvisionalAt]
    cases hd : Γ.module.dataTypeOf? c with
    | none => simp
    | some d =>
      simp only [return_instance_ok_iff]
      constructor
      · rintro ⟨_, _, ⟨hwf, rfl⟩, r, rfl, hr⟩
        exact .inr ⟨trivial, r, rfl, hwf, .inr ⟨_, _, ⟨⟨d, rfl, rfl⟩, rfl⟩, hr⟩⟩
      · rintro (⟨h, -⟩ | ⟨-, r, rfl, hwf, ⟨h, -⟩ | ⟨_, _, ⟨⟨_, hd, rfl⟩, rfl⟩, hr⟩⟩)
        · cases h
        · exact h.elim
        · cases hd
          exact ⟨(), _, ⟨hwf, rfl⟩, r, rfl, hr⟩
  | _ => simp [reference, pure_ok_iff, Expr.isReference]

/-- What is called is referred to directly, with type arguments, or has a type like any other
expression. -/
def CalleeRun (Γ : Context) (solve : Global → InferM Unit) (site callee : Expr)
    (typeArgs : Option (List Ty)) (attrs : Attrs) (env : Env) (s : State) (t : Ty)
    (direct : Option (List Ty)) (s' : State) : Prop :=
  callee.isReference = true ∧ (∃ given s₁,
      ReferenceRun Γ solve callee typeArgs (.expr site) attrs s (t, given) s₁ ∧
      direct = some given ∧ s' = s₁.notedExpr callee t) ∨
    callee.isReference = false ∧ typeArgs.getD [] = [] ∧ direct = none ∧
      infer Γ solve callee env s = .ok t s'

theorem infer_call_ok_iff {callee : Expr} {typeArgs : Option (List Ty)} :
    infer Γ solve (.call n callee args typeArgs attrs) env s = .ok t s' ↔
      ∃ f direct ts given s₁ s₂ s₃,
        CalleeRun Γ solve (.call n callee args typeArgs attrs) callee typeArgs attrs env s f direct
          s₁ ∧
        inferList Γ solve args env s₁ = .ok ts s₂ ∧
        applyTo Γ (.call n callee args typeArgs attrs) f direct args ts attrs s₂ =
          .ok (t, given) s₃ ∧
        s' = { s₃ with callArgs := s₃.callArgs.insert n given }.notedExpr
          (.call n callee args typeArgs attrs) t := by
  rw [infer, typed_ok_iff]
  simp only [bind_ok_iff, reference_ok_iff, CalleeRun]
  constructor
  · rintro ⟨s₄, ⟨o, s₀, ⟨href, rfl, rfl⟩ | ⟨href, ⟨f, gs⟩, rfl, hr⟩, h⟩, rfl⟩
    · simp only [ite_then_ok_iff, complain_ok_iff, bind_ok_iff, pure_ok_iff, modify_ok_iff] at h
      obtain ⟨_, ⟨-, hc⟩ | ⟨hempty, rfl⟩, f, s₁, hf, _, _, ⟨rfl, rfl⟩, ts, s₂, hts, ⟨r, given⟩, s₃,
        happly, _, _, rfl, rfl, rfl⟩ := h
      · exact hc.elim
      · exact ⟨f, none, ts, given, _, s₂, s₃, .inr ⟨href, by simpa using hempty, rfl, hf⟩, hts,
          happly, rfl⟩
    · simp only [bind_ok_iff, note_ok_iff, pure_ok_iff, modify_ok_iff] at h
      obtain ⟨_, _, rfl, _, _, ⟨rfl, rfl⟩, ts, s₂, hts, ⟨r, given⟩, s₃, happly, _, _, rfl, rfl, rfl⟩
        := h
      exact ⟨f, some gs, ts, given, _, s₂, s₃, .inl ⟨href, gs, s₀, hr, rfl, rfl⟩, hts, happly, rfl⟩
  · rintro ⟨f, direct, ts, given, s₁, s₂, s₃,
      ⟨href, gs, s₀, hr, rfl, rfl⟩ | ⟨href, hgiven, rfl, hf⟩, hts, happly, rfl⟩
    · refine ⟨_, ⟨_, s₀, .inr ⟨href, (f, gs), rfl, hr⟩, ?_⟩, rfl⟩
      simp only [bind_ok_iff, note_ok_iff, pure_ok_iff, modify_ok_iff]
      exact ⟨(), _, rfl, _, _, ⟨rfl, rfl⟩, ts, s₂, hts, (t, given), s₃, happly, (), _, rfl, rfl, rfl⟩
    · refine ⟨_, ⟨_, s, .inl ⟨href, rfl, rfl⟩, ?_⟩, rfl⟩
      refine ite_then_ok_iff.2 ⟨s, .inr ⟨by simp [hgiven], rfl⟩, ?_⟩
      simp only [bind_ok_iff, pure_ok_iff, modify_ok_iff]
      exact ⟨f, s₁, hf, _, _, ⟨rfl, rfl⟩, ts, s₂, hts, (t, given), s₃, happly, (), _, rfl, rfl, rfl⟩

/-- The value of a variable is typed; if it is a function, it sees the variable at a new cell, which
then becomes its type. -/
def ValueRun (Γ : Context) (solve : Global → InferM Unit) (x : Var) (value : Expr) (env : Env)
    (s : State) (t : Ty) (s' : State) : Prop :=
  value.function?.isSome = true ∧ (∃ u s₁ s₂, fresh s = .ok t s₁ ∧
      infer Γ solve value ((x.serial, t) :: env) s₁ = .ok u s₂ ∧
      unify t u (.expr value) s₂ = .ok () s') ∨
    value.function?.isSome = false ∧ infer Γ solve value env s = .ok t s'

theorem ascribe_ok_iff {ascription : Option Ty} {u : Ty} {written : Phrase} {next : InferM α} :
    (match ascription with
      | some a => do
        checkWritten Γ [a] written
        unify a u site
        next
      | none => next : InferM α) s = .ok a s' ↔
      ∃ s₁, Ascribed Γ ascription u site s s₁ ∧ next s₁ = .ok a s' := by
  cases ascription with
  | none =>
    constructor
    · exact fun h => ⟨s, rfl, h⟩
    · rintro ⟨_, rfl, h⟩
      exact h
  | some a =>
    simp only [bind_ok_iff, checkWritten_ok_iff]
    constructor
    · rintro ⟨_, _, ⟨hwf, rfl⟩, _, s₁, hunify, h⟩
      exact ⟨s₁, ⟨hwf, hunify⟩, h⟩
    · rintro ⟨s₁, ⟨hwf, hunify⟩, h⟩
      exact ⟨(), s, ⟨hwf, rfl⟩, (), s₁, hunify, h⟩

theorem infer_letIn_ok_iff {value : Expr} :
    infer Γ solve (.letIn n x value body) env s = .ok t s' ↔
      ∃ u s₁ s₂ s₃, ValueRun Γ solve x value env s u s₁ ∧
        Ascribed Γ x.ascription u (.expr (.letIn n x value body)) s₁ s₂ ∧
        infer Γ solve body ((x.serial, u) :: env) (s₂.notedExpr (.var x) u) = .ok t s₃ ∧
        s' = s₃.notedExpr (.letIn n x value body) t := by
  rw [infer, typed_ok_iff]
  cases hf : value.function? with
  | none =>
    simp only [ValueRun, hf, bind_ok_iff, Option.isSome_none]
    constructor
    · rintro ⟨s₃, ⟨u, s₁, hu, h⟩, rfl⟩
      obtain ⟨s₂, hasc, hb⟩ := ascribe_ok_iff.1 h
      obtain ⟨_, _, hnote, hb⟩ := bind_ok_iff.1 hb
      rw [note_ok_iff.1 hnote] at hb
      exact ⟨u, s₁, s₂, s₃, .inr ⟨trivial, hu⟩, hasc, hb, rfl⟩
    · rintro ⟨u, s₁, s₂, s₃, ⟨h, -⟩ | ⟨-, hu⟩, hasc, hb, rfl⟩
      · cases h
      · refine ⟨s₃, ⟨u, s₁, hu, ascribe_ok_iff.2 ⟨s₂, hasc, ?_⟩⟩, rfl⟩
        exact bind_ok_iff.2 ⟨(), _, note_ok_iff.2 rfl, hb⟩
  | some f =>
    simp only [ValueRun, hf, bind_ok_iff, Option.isSome_some]
    constructor
    · rintro ⟨s₄, ⟨u, s₀, hu, v, s₁, hv, _, s₂, hunify, _, _, hpure, h⟩, rfl⟩
      obtain ⟨rfl, rfl⟩ := pure_ok_iff.1 hpure
      obtain ⟨s₃, hasc, hb⟩ := ascribe_ok_iff.1 h
      obtain ⟨_, _, hnote, hb⟩ := bind_ok_iff.1 hb
      rw [note_ok_iff.1 hnote] at hb
      exact ⟨_, _, s₃, s₄, .inl ⟨trivial, v, s₀, s₁, hu, hv, hunify⟩, hasc, hb, rfl⟩
    · rintro ⟨u, s₂, s₃, s₄, ⟨-, v, s₀, s₁, hu, hv, hunify⟩ | ⟨h, -⟩, hasc, hb, rfl⟩
      · refine ⟨s₄, ⟨u, s₀, hu, v, s₁, hv, (), s₂, hunify, u, s₂, rfl, ?_⟩, rfl⟩
        refine ascribe_ok_iff.2 ⟨s₃, hasc, ?_⟩
        exact bind_ok_iff.2 ⟨(), _, note_ok_iff.2 rfl, hb⟩
      · cases h

theorem inferClauses_nil_ok_iff {subject : Ty} :
    inferClauses Γ solve subject [] env s = .ok branches s' ↔ branches = [] ∧ s' = s := by
  unfold inferClauses
  exact pure_ok_iff

theorem inferClauses_cons_ok_iff {subject : Ty} {p : Pattern} {rest : List (Pattern × Expr)} :
    inferClauses Γ solve subject ((p, body) :: rest) env s = .ok branches s' ↔
      ∃ bound t more s₁ s₂, checkPattern Γ p subject s = .ok bound s₁ ∧
        infer Γ solve body (bound ++ env) (s₁.noted p.serial (.pattern p) subject) = .ok t s₂ ∧
        inferClauses Γ solve subject rest env s₂ = .ok more s' ∧
        branches = (body, t) :: more := by
  rw [inferClauses]
  simp only [bind_ok_iff, pure_ok_iff, notePattern, noteAt_ok_iff]
  constructor
  · rintro ⟨bound, s₁, hp, _, _, rfl, t, s₂, ht, more, _, hmore, rfl, rfl⟩
    exact ⟨bound, t, more, s₁, s₂, hp, ht, hmore, rfl⟩
  · rintro ⟨bound, t, more, s₁, s₂, hp, ht, hmore, rfl⟩
    exact ⟨bound, s₁, hp, (), _, rfl, t, s₂, ht, more, s', hmore, rfl, rfl⟩

/-- The clauses come to one type, and what is matched on is put on record. A match without clauses
has a new cell as its type. -/
def JoinRun (subject : Expr) (t : Ty) (branches : List (Expr × Ty)) (s : State) (result : Ty)
    (s' : State) : Prop :=
  match branches with
  | [] => fresh s = .ok result s'
  | (_, u) :: rest => result = u ∧ ∃ s₁, unifyBranches u rest s = .ok () s₁ ∧
      s' = { s₁ with scrutinees := s₁.scrutinees ++ [(subject, t)] }

theorem infer_matchOn_ok_iff {clauses : List (Pattern × Expr)} :
    infer Γ solve (.matchOn n subject clauses) env s = .ok t s' ↔
      ∃ u branches s₁ s₂ s₃ s₄, infer Γ solve subject env s = .ok u s₁ ∧
        checkSubject false subject u s₁ = .ok () s₂ ∧
        inferClauses Γ solve u clauses env s₂ = .ok branches s₃ ∧
        JoinRun subject u branches s₃ t s₄ ∧ s' = s₄.notedExpr (.matchOn n subject clauses) t := by
  rw [infer, typed_ok_iff]
  simp only [bind_ok_iff]
  constructor
  · rintro ⟨s₄, ⟨u, s₁, hu, _, s₂, hsubject, branches, s₃, hclauses, h⟩, rfl⟩
    refine ⟨u, branches, s₁, s₂, s₃, s₄, hu, hsubject, hclauses, ?_, rfl⟩
    cases branches with
    | nil => exact h
    | cons b rest =>
      simp only [bind_ok_iff, modify_ok_iff, pure_ok_iff] at h
      obtain ⟨_, s₅, hunify, _, _, rfl, rfl, rfl⟩ := h
      exact ⟨rfl, s₅, hunify, rfl⟩
  · rintro ⟨u, branches, s₁, s₂, s₃, s₄, hu, hsubject, hclauses, hjoin, rfl⟩
    refine ⟨s₄, ⟨u, s₁, hu, (), s₂, hsubject, branches, s₃, hclauses, ?_⟩, rfl⟩
    cases branches with
    | nil => exact hjoin
    | cons b rest =>
      simp only [bind_ok_iff, modify_ok_iff, pure_ok_iff]
      obtain ⟨rfl, s₅, hunify, rfl⟩ := hjoin
      exact ⟨(), s₅, hunify, (), _, rfl, rfl, rfl⟩

/-- What is called takes the arguments: a cell becomes a function type, and a function type that
binds parameters is instantiated first if it is not referred to directly. -/
def ApplyRun (Γ : Context) (site : Expr) (found : Ty) (direct : Option (List Ty))
    (args : List Expr) (ts : List Ty) (attrs : Attrs) (s : State) (result : Ty) (given : List Ty)
    (s' : State) : Prop :=
  match found with
  | .cell c => given = direct.getD [] ∧ ∃ s₁, fresh s = .ok result s₁ ∧
      unify (.cell c) (.func ts result [] []) (.expr site) s₁ = .ok () s'
  | .func as r ps rs => ∃ as' ps' rs' s₁,
      ((!ps.isEmpty && direct.isNone) = true ∧ instantiate Γ ⟨as, r, ps, rs⟩ none (.expr site)
          attrs s = .ok (.func as' result ps' rs', given) s₁ ∨
        (!ps.isEmpty && direct.isNone) = false ∧ as' = as ∧ result = r ∧ given = direct.getD [] ∧
          s₁ = s) ∧
      as'.length = ts.length ∧ unifyArgs as' ts args s₁ = .ok () s'
  | _ => False

theorem takeArgs_ok_iff {given : List Ty} {ret : Ty} :
    (if as.length ≠ ts.length then (do
        complain i
        unifyArgs as ts args
        return (ret, given))
      else (do
        unifyArgs as ts args
        return (ret, given)) : InferM (Ty × List Ty)) s = .ok r s' ↔
      r = (ret, given) ∧ as.length = ts.length ∧ unifyArgs as ts args s = .ok () s' := by
  simp only [ite_then_ok_iff, complain_ok_iff, bind_ok_iff, pure_ok_iff]
  constructor
  · rintro ⟨_, ⟨-, h⟩ | ⟨hlen, rfl⟩, _, _, hunify, rfl, rfl⟩
    · exact h.elim
    · exact ⟨rfl, Decidable.not_not.1 hlen, hunify⟩
  · rintro ⟨rfl, hlen, hunify⟩
    exact ⟨s, .inr ⟨not_not_intro hlen, rfl⟩, (), s', hunify, rfl, rfl⟩

theorem applyTo_ok_iff {site : Expr} {f : Ty} {direct : Option (List Ty)} :
    applyTo Γ site f direct args ts attrs s = .ok r s' ↔
      ∃ found s₁, find f s = .ok found s₁ ∧
        ApplyRun Γ site found direct args ts attrs s₁ r.1 r.2 s' := by
  rw [applyTo]
  simp only [bind_ok_iff]
  refine exists_congr fun found => exists_congr fun s₁ => and_congr_right fun _ => ?_
  cases found with
  | cell c =>
    simp only [bind_ok_iff, pure_ok_iff, ApplyRun]
    constructor
    · rintro ⟨ret, s₂, hret, _, _, hunify, rfl, rfl⟩
      exact ⟨rfl, s₂, hret, hunify⟩
    · rintro ⟨hgiven, s₂, hret, hunify⟩
      exact ⟨r.1, s₂, hret, (), s', hunify, Prod.ext rfl hgiven, rfl⟩
  | func as ret ps rs =>
    simp only [ApplyRun]
    rw [ite_ok_iff]
    constructor
    · rintro (⟨hp, h⟩ | ⟨hp, h⟩)
      · obtain ⟨⟨found, given⟩, s₂, hinst, h⟩ := bind_ok_iff.1 h
        cases found with
        | func as' ret' ps' rs' =>
          obtain ⟨rfl, hlen, hunify⟩ := takeArgs_ok_iff.1 h
          exact ⟨as', ps', rs', s₂, .inl ⟨hp, hinst⟩, hlen, hunify⟩
        | _ => exact (throw_ok_iff.1 h).elim
      · obtain ⟨rfl, hlen, hunify⟩ := takeArgs_ok_iff.1 h
        exact ⟨as, [], [], s₁, .inr ⟨Bool.eq_false_iff.2 hp, rfl, rfl, rfl, rfl⟩, hlen, hunify⟩
    · rintro ⟨as', ps', rs', s₂, ⟨hp, hinst⟩ | ⟨hp, rfl, hret, hgiven, rfl⟩, hlen, hunify⟩
      · refine .inl ⟨hp, bind_ok_iff.2 ⟨_, s₂, hinst, ?_⟩⟩
        exact takeArgs_ok_iff.2 ⟨rfl, hlen, hunify⟩
      · refine .inr ⟨Bool.eq_false_iff.1 hp, bind_ok_iff.2 ⟨_, s₂, rfl, ?_⟩⟩
        exact takeArgs_ok_iff.2 ⟨Prod.ext hret hgiven, hlen, hunify⟩
  | _ => simp [ApplyRun, bind_ok_iff]

/-- How an instance of a signature is taken, given a step that chooses the type arguments. A
signature without parameters is its own instance. -/
def InstanceRun (Γ : Context) (sig : Signature) (choose : InferM (List Ty)) (site : Phrase)
    (attrs : Attrs) (s : State) (r : Ty × List Ty) (s' : State) : Prop :=
  if sig.params.isEmpty then
    r = (sig.toTy, []) ∧ relateAll Γ site attrs sig.relations s = .ok () s'
  else
    ∃ s₁, choose s = .ok r.2 s₁ ∧ relateAll Γ site attrs
        (sig.relations.map (Substitution.ofParams sig.params r.2).applyRelation) s₁ = .ok () s' ∧
      r.1 = .func (sig.args.map (Substitution.ofParams sig.params r.2).apply)
        ((Substitution.ofParams sig.params r.2).apply sig.ret) [] []

theorem refuseKinds_ok_iff :
    refuseKinds site ps s = .ok u s' ↔ (∀ p ∈ ps, p.kind.standsForType = true) ∧ s' = s := by
  induction ps with
  | nil => simp [refuseKinds, pure_ok_iff]
  | cons p ps ih =>
    rw [refuseKinds, ite_ok_iff, ih, List.forall_mem_cons]
    simp [and_assoc]

theorem instanceRun_iff {choose : InferM (List Ty)} :
    (if sig.params.isEmpty then (do
        relateAll Γ site attrs sig.relations
        return (sig.toTy, []))
      else (do
        let ts ← choose
        relateAll Γ site attrs
          (sig.relations.map (Substitution.ofParams sig.params ts).applyRelation)
        return (.func (sig.args.map (Substitution.ofParams sig.params ts).apply)
          ((Substitution.ofParams sig.params ts).apply sig.ret) [] [], ts)) : InferM (Ty × List Ty))
      s = .ok r s' ↔ InstanceRun Γ sig choose site attrs s r s' := by
  unfold InstanceRun
  split
  · simp only [bind_ok_iff, pure_ok_iff]
    constructor
    · rintro ⟨_, _, hrel, rfl, rfl⟩
      exact ⟨rfl, hrel⟩
    · rintro ⟨rfl, hrel⟩
      exact ⟨(), s', hrel, rfl, rfl⟩
  · simp only [bind_ok_iff, pure_ok_iff]
    constructor
    · rintro ⟨ts, s₁, hts, _, _, hrel, rfl, rfl⟩
      exact ⟨s₁, hts, hrel, rfl⟩
    · rintro ⟨s₁, hts, hrel, hr⟩
      exact ⟨r.2, s₁, hts, (), s', hrel, Prod.ext hr rfl, rfl⟩

theorem instantiate_none_ok_iff :
    instantiate Γ sig none site attrs s = .ok r s' ↔
      InstanceRun Γ sig (freshFor sig.params) site attrs s r s' := instanceRun_iff

theorem instantiate_some_ok_iff :
    instantiate Γ sig (some ts) site attrs s = .ok r s' ↔
      ts.length = sig.params.length ∧ (∀ p ∈ sig.params, p.kind.standsForType = true) ∧
        InstanceRun Γ sig (pure ts) site attrs s r s' := by
  rw [← instanceRun_iff]
  simp only [instantiate, ite_then_ok_iff, bind_ok_iff, complain_ok_iff, refuseKinds_ok_iff]
  constructor
  · rintro ⟨_, ⟨-, hfalse⟩ | ⟨hlen, rfl⟩, _, _, ⟨hkinds, rfl⟩, h⟩
    · exact hfalse.elim
    · exact ⟨Decidable.not_not.1 hlen, hkinds, h⟩
  · rintro ⟨hlen, hkinds, h⟩
    exact ⟨s, .inr ⟨not_not_intro hlen, rfl⟩, (), s, ⟨hkinds, rfl⟩, h⟩

theorem freshFor_nil_ok_iff :
    freshFor ([] : List α) s = .ok ts s' ↔ ts = [] ∧ s' = s := pure_ok_iff

theorem freshFor_cons_ok_iff {as : List α} :
    freshFor (a :: as) s = .ok ts s' ↔
      ∃ t us s₁, fresh s = .ok t s₁ ∧ freshFor as s₁ = .ok us s' ∧ ts = t :: us := by
  simp only [freshFor, bind_ok_iff, pure_ok_iff]
  constructor
  · rintro ⟨t, s₁, ht, us, _, hus, rfl, rfl⟩
    exact ⟨t, us, s₁, ht, hus, rfl⟩
  · rintro ⟨t, us, s₁, ht, hus, rfl⟩
    exact ⟨t, s₁, ht, us, s', hus, rfl, rfl⟩

theorem unifyArgs_cons_ok_iff {p : Ty} {ps : List Ty} :
    unifyArgs (p :: ps) (t :: ts) (e :: es) s = .ok u s' ↔
      ∃ s₁, unify p t (.expr e) s = .ok () s₁ ∧ unifyArgs ps ts es s₁ = .ok () s' := by
  rw [unifyArgs, bind_ok_iff]
  exact ⟨fun ⟨_, s₁, h, h'⟩ => ⟨s₁, h, h'⟩, fun ⟨s₁, h, h'⟩ => ⟨(), s₁, h, h'⟩⟩

theorem checkPattern_wildcard_ok_iff :
    checkPattern Γ (.wildcard n) t s = .ok bound s' ↔ bound = [] ∧ s' = s := by
  unfold checkPattern
  exact pure_ok_iff

theorem checkPattern_var_ok_iff :
    checkPattern Γ (.var n x) t s = .ok bound s' ↔
      ∃ s₁, Ascribed Γ x.ascription t (.pattern (.var n x)) s s₁ ∧ bound = [(x.serial, t)] ∧
        s' = s₁.notedExpr (.var x) t := by
  rw [checkPattern]
  constructor
  · intro h
    obtain ⟨s₁, hasc, h⟩ := ascribe_ok_iff.1 h
    obtain ⟨_, _, hnote, h⟩ := bind_ok_iff.1 h
    obtain ⟨rfl, rfl⟩ := pure_ok_iff.1 h
    exact ⟨s₁, hasc, rfl, note_ok_iff.1 hnote⟩
  · rintro ⟨s₁, hasc, rfl, rfl⟩
    exact ascribe_ok_iff.2 ⟨s₁, hasc, bind_ok_iff.2 ⟨(), _, note_ok_iff.2 rfl, rfl⟩⟩

theorem checkPattern_ctor_ok_iff {c : Ctor} {subs : List Pattern} :
    checkPattern Γ (.ctor n c subs) t s = .ok bound s' ↔
      ∃ d ts s₁ s₂, Γ.module.dataTypeOf? c = some d ∧ freshFor d.params s = .ok ts s₁ ∧
        unify t (.data d.handle ts) (.pattern (.ctor n c subs)) s₁ = .ok () s₂ ∧
        subs.length = c.arity ∧
        checkPatterns Γ subs (c.inputs.map (Substitution.ofParams d.params ts).apply) s₂ =
          .ok bound s' := by
  rw [checkPattern]
  cases Γ.module.dataTypeOf? c with
  | none => simp
  | some d =>
    simp only [bind_ok_iff, ite_then_ok_iff, complain_ok_iff]
    constructor
    · rintro ⟨ts, s₁, hts, _, s₂, hunify, _, ⟨-, h⟩ | ⟨hlen, rfl⟩, hsubs⟩
      · exact h.elim
      · exact ⟨d, ts, s₁, _, rfl, hts, hunify, Decidable.not_not.1 hlen, hsubs⟩
    · rintro ⟨_, ts, s₁, s₂, hd, hts, hunify, hlen, hsubs⟩
      cases hd
      exact ⟨ts, s₁, hts, (), s₂, hunify, s₂, .inr ⟨not_not_intro hlen, rfl⟩, hsubs⟩

theorem checkPatterns_cons_ok_iff {p : Pattern} {ps : List Pattern} :
    checkPatterns Γ (p :: ps) (t :: ts) s = .ok bound s' ↔
      ∃ first more s₁, checkPattern Γ p t s = .ok first s₁ ∧
        checkPatterns Γ ps ts (s₁.noted p.serial (.pattern p) t) = .ok more s' ∧
        bound = more ++ first := by
  rw [checkPatterns]
  simp only [bind_ok_iff, notePattern, noteAt_ok_iff, pure_ok_iff]
  constructor
  · rintro ⟨first, s₁, hp, _, _, rfl, more, _, hmore, rfl, rfl⟩
    exact ⟨first, more, s₁, hp, hmore, rfl⟩
  · rintro ⟨first, more, s₁, hp, hmore, rfl⟩
    exact ⟨first, s₁, hp, (), _, rfl, more, s', hmore, rfl, rfl⟩

theorem checkPatterns_nil_ok_iff {ps : List Pattern} (h : ps = [] ∨ ts = []) :
    checkPatterns Γ ps ts s = .ok bound s' ↔ bound = [] ∧ s' = s := by
  rcases h with rfl | rfl
  · unfold checkPatterns
    exact pure_ok_iff
  · cases ps <;> exact pure_ok_iff

mutual
theorem checkPattern_bound {p : Pattern} {t : Ty} {bound : Env} {s s' : State}
    (h : checkPattern Γ p t s = .ok bound s') : ∀ b ∈ bound, b.1 ∈ p.inner := by
  match p with
  | .wildcard n =>
    obtain ⟨rfl, -⟩ := checkPattern_wildcard_ok_iff.1 h
    simp
  | .var n x =>
    obtain ⟨s₁, -, rfl, -⟩ := checkPattern_var_ok_iff.1 h
    simp [Pattern.inner]
  | .ctor n c subs =>
    obtain ⟨d, ts, s₁, s₂, -, -, -, -, hsubs⟩ := checkPattern_ctor_ok_iff.1 h
    exact checkPatterns_bound hsubs
theorem checkPatterns_bound {ps : List Pattern} {ts : List Ty} {bound : Env}
    {s s' : State} (h : checkPatterns Γ ps ts s = .ok bound s') :
    ∀ b ∈ bound, b.1 ∈ Pattern.serialsList ps := by
  match ps, ts with
  | [], _ =>
    obtain ⟨rfl, -⟩ := (checkPatterns_nil_ok_iff (.inl rfl)).1 h
    simp
  | _ :: _, [] =>
    obtain ⟨rfl, -⟩ := (checkPatterns_nil_ok_iff (.inr rfl)).1 h
    simp
  | p :: ps, t :: ts =>
    obtain ⟨first, more, s₁, hp, hps, rfl⟩ := checkPatterns_cons_ok_iff.1 h
    intro b hb
    rw [Pattern.serialsList, List.mem_append, List.mem_cons]
    rcases List.mem_append.1 hb with hb | hb
    · exact .inr (.inr (checkPatterns_bound hps b hb))
    · exact .inl (checkPattern_bound hp b hb)
end

/-- What is known to be a function cannot be matched on. -/
theorem checkSubject_func {final : Bool} {b : Ty} {rs : List TypeRelation} :
    checkSubject final subject (.func as b ps rs) s ≠ .ok () s' := by
  intro h
  obtain ⟨u, s₁, hfind, h⟩ := bind_ok_iff.1 h
  cases hfind
  obtain ⟨_, _, -, h⟩ := bind_ok_iff.1 h
  cases h

theorem instantiate_func (h : instantiate Γ sig explicit site attrs s = .ok r s') :
    ∃ as b ps rs, r.1 = .func as b ps rs := by
  have hrun : ∃ choose, InstanceRun Γ sig choose site attrs s r s' := by
    cases explicit with
    | none => exact ⟨_, instantiate_none_ok_iff.1 h⟩
    | some ts => exact ⟨_, (instantiate_some_ok_iff.1 h).2.2⟩
  obtain ⟨choose, hrun⟩ := hrun
  unfold InstanceRun at hrun
  split at hrun
  · rw [hrun.1]
    exact ⟨_, _, _, _, rfl⟩
  · obtain ⟨-, -, -, hr⟩ := hrun
    exact ⟨_, _, _, _, hr⟩

/-- A symbol can be matched on only at a provisional type. -/
theorem infer_shared {s'' : State} (hshared : subject.isShared = true)
    (h : infer Γ solve subject env s = .ok t s')
    (hcheck : checkSubject false subject t s' = .ok () s'') :
    ∃ g, s.provisional.get? g = some t := by
  have href : subject.isReference = true := by
    cases subject with
    | global | ctor => rfl
    | _ => cases hshared
  obtain ⟨ts, s₁, hrun, rfl⟩ := (infer_reference_ok_iff href).1 h
  obtain ⟨hno, -⟩ | ⟨-, r, hr, hrun⟩ := reference_ok_iff.1 hrun
  · rw [href] at hno
    cases hno
  cases hr
  obtain ⟨-, ⟨hprovisional, -⟩ | ⟨sig, s₂, -, hinst⟩⟩ := hrun
  · cases subject with
    | global g => exact ⟨g, hprovisional⟩
    | _ => exact hprovisional.elim
  · obtain ⟨as, b, ps, rs, rfl⟩ := instantiate_func hinst
    exact absurd hcheck checkSubject_func

end Inference

end TensorTyping
