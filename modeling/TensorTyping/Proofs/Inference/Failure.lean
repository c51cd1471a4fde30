import TensorTyping.Inference.Run
import TensorTyping.Proofs.Inference.Changes

/-!
# A run that fails marks nothing

All the way to the final types of the nodes the marks are left alone: typing works on the engine and
notes what it finds in the state of the run. From the first mark on, nothing is left that could end
in a type error. So where a run ends in a type error the marks are the ones it began with, and no
signature has been recorded.
-/
namespace TensorTyping

namespace Session

variable {s s' s'' : Session}

/-- Symbols may have been made, and the marks are as before. -/
structure Keeps (s s' : Session) : Prop where
  marks_eq : s'.marks = s.marks
  supply_le : s.supply.last ≤ s'.supply.last

/-- Symbols may have been made and types marked, and all tags are as before. -/
structure Grows (s s' : Session) : Prop where
  tags_eq : s'.marks.tags = s.marks.tags
  supply_le : s.supply.last ≤ s'.supply.last

theorem Keeps.refl (s : Session) : s.Keeps s := ⟨rfl, Nat.le_refl _⟩

theorem Keeps.trans (h : s.Keeps s') (h' : s'.Keeps s'') : s.Keeps s'' :=
  ⟨h'.marks_eq.trans h.marks_eq, h.supply_le.trans h'.supply_le⟩

theorem Keeps.grows (h : s.Keeps s') : s.Grows s' := ⟨congrArg Marks.tags h.marks_eq, h.supply_le⟩

theorem Grows.trans (h : s.Grows s') (h' : s'.Grows s'') : s.Grows s'' :=
  ⟨h'.tags_eq.trans h.tags_eq, h.supply_le.trans h'.supply_le⟩

end Session

namespace Inference

variable {α β : Type}
variable {f : α → InferM β} {s s' : State} {m : Module}

instance : Std.Refl fun s s' : State => s.session.Keeps s'.session := ⟨fun _ => .refl _⟩

instance : Trans (fun s s' : State => s.session.Keeps s'.session)
    (fun s s' : State => s.session.Keeps s'.session)
    fun s s' : State => s.session.Keeps s'.session := ⟨.trans⟩

instance : Trans (fun s s' : State => s.session.Grows s'.session)
    (fun s s' : State => s.session.Grows s'.session)
    fun s s' : State => s.session.Grows s'.session := ⟨.trans⟩

/-- However a computation ends, the marks are as before. -/
abbrev LeavesMarks (act : InferM α) : Prop := Leads (fun s s' => s.session.Keeps s'.session) act

/-- However a computation ends, the tags are as before. -/
abbrev LeavesTags (act : InferM α) : Prop := Leads (fun s s' => s.session.Grows s'.session) act

/-- A computation never ends in a type error, and leaves the tags alone. -/
structure NeverComplains (act : InferM α) : Prop where
  silent : ∀ s i s', act s ≠ .error (.issue i) s'
  tags : LeavesTags act

/-- Where a computation ends in a type error, the marks are as before, and the tags are in any
case. -/
structure MarksLast (act : InferM α) : Prop where
  last : ∀ s i s', act s = .error (.issue i) s' → s'.session.marks = s.session.marks
  tags : LeavesTags act

theorem Queries.leavesMarks {x : InferM α} (hx : Queries x) : LeavesMarks x := by
  intro s
  rw [(hx s).session_eq]
  exact .refl _

namespace LeavesMarks

theorem onEngine (act : EngineM α) : LeavesMarks (onEngine act) := by
  intro s
  rw [endState_onEngine]
  exact .refl _

theorem mint (name : String) : LeavesMarks (onSession (SessionM.mint (Symbol.mint name))) :=
  fun _ => ⟨rfl, Nat.le_succ _⟩

theorem tags {x : InferM α} (hx : LeavesMarks x) : LeavesTags x := fun s => (hx s).grows

end LeavesMarks

namespace NeverComplains

protected theorem pure (a : α) : NeverComplains (pure a) where
  silent s i s' h := by cases h
  tags := LeavesMarks.tags (.pure a)

protected theorem get : NeverComplains get where
  silent s i s' h := by cases h
  tags := LeavesMarks.tags .get

protected theorem bind {x : InferM α} (hx : NeverComplains x) (hf : ∀ a, NeverComplains (f a)) :
    NeverComplains (x >>= f) where
  silent s i s' h := by
    obtain h | ⟨a, s₁, -, h⟩ := bind_eq_error h
    · exact hx.silent s i s' h
    · exact (hf a).silent s₁ i s' h
  tags := hx.tags.bind fun a => (hf a).tags

theorem marksLast {x : InferM α} (hx : NeverComplains x) : MarksLast x :=
  ⟨fun s i s' h => absurd h (hx.silent s i s'), hx.tags⟩

end NeverComplains

/-- The marks are left alone first, and then there is no type error any more or the marks are again
left alone. -/
theorem MarksLast.bind {x : InferM α} (hx : LeavesMarks x) (hf : ∀ a, MarksLast (f a)) :
    MarksLast (x >>= f) where
  last s i s' h := by
    have hmarks := (hx s).marks_eq
    obtain h | ⟨a, s₁, h₁, h⟩ := bind_eq_error h
    · rwa [endState_of_error h] at hmarks
    · rw [endState_of_ok h₁] at hmarks
      exact ((hf a).last s₁ i s' h).trans hmarks
  tags := hx.tags.bind fun a => (hf a).tags

theorem MarksLast.bind_neverComplains {x : InferM α} (hx : MarksLast x)
    (hf : ∀ a, NeverComplains (f a)) : MarksLast (x >>= f) where
  last s i s' h := by
    obtain h | ⟨a, s₁, -, h⟩ := bind_eq_error h
    · exact hx.last s i s' h
    · exact absurd h ((hf a).silent s₁ i s')
  tags := hx.tags.bind fun a => (hf a).tags

/-! ## Typing -/

section
variable {Γ : Context} {solve : Global → InferM Unit}

theorem Changes.keeps {mentioned : Global → Prop} (hsolve : ∀ g, LeavesMarks (solve g))
    (h : Changes Γ solve mentioned s s') : s.session.Keeps s'.session := by
  induction h with
  | refl => exact .refl _
  | tail _ hlast ih =>
    refine ih.trans ?_
    cases hlast with
    | noted | stored | added => exact .refl _
    | solved g => exact hsolve g _

theorem infer_leavesMarks (hsolve : ∀ g, LeavesMarks (solve g)) (e : Expr) (env : Env) :
    LeavesMarks (infer Γ solve e env) :=
  fun s => (infer_changes e (fun g (_ : g ∈ e.mentions) => trivial) env s).keeps hsolve

theorem startProvisional_leavesMarks (gs : List Global) : LeavesMarks (startProvisional gs) := by
  induction gs with
  | nil => exact .pure ()
  | cons g gs ih =>
    unfold startProvisional
    exact (LeavesMarks.onEngine _).bind fun t => .bind (.modify fun _ => .refl _) fun _ => ih

theorem tell_leavesMarks (line : String) : LeavesMarks (tell Γ line) :=
  .ite (.modify fun _ => .refl _) (.pure ())

theorem openGroup_leavesMarks (group : List Global) : LeavesMarks (openGroup Γ group) :=
  (tell_leavesMarks _).bind fun _ => .bind (.modify fun _ => .refl _) fun _ =>
    startProvisional_leavesMarks _

theorem typeBody_leavesMarks (hsolve : ∀ g, LeavesMarks (solve g)) (g : Global) :
    LeavesMarks (typeBody Γ solve g) := by
  unfold typeBody
  split
  · exact .throw _
  · refine Leads.get.bind fun s => (infer_leavesMarks hsolve _ _).bind fun t => ?_
    refine Leads.get.bind fun s₁ => Leads.get.bind fun s₂ => ?_
    split
    · exact (LeavesMarks.onEngine _).bind fun _ => .pure _
    · exact .pure _

theorem typeBodies_leavesMarks (hsolve : ∀ g, LeavesMarks (solve g)) (gs : List Global) :
    LeavesMarks (typeBodies Γ solve gs) := by
  induction gs with
  | nil => exact .pure []
  | cons g gs ih =>
    unfold typeBodies
    exact (typeBody_leavesMarks hsolve g).bind fun _ => ih.bind fun _ => .pure _

theorem dischargeDeclared_leavesMarks (group : List Global) (mark : Nat) :
    LeavesMarks (dischargeDeclared Γ group mark) := by
  unfold dischargeDeclared
  refine .ite (.pure ()) (Leads.get.bind fun s => ?_)
  exact (entailed_queries _ _).leavesMarks.bind fun _ => LeavesMarks.onEngine _

theorem bindParams_leavesMarks (cells : List Cell) (names : List String) :
    LeavesMarks (bindParams cells names) := by
  induction cells generalizing names with
  | nil => exact .pure ()
  | cons c cs ih =>
    cases names with
    | nil => exact .pure ()
    | cons name names =>
      unfold bindParams
      exact (LeavesMarks.mint _).bind fun _ => (LeavesMarks.onEngine _).bind fun _ => ih names

theorem generalise_leavesMarks (spans : List Span) (mark : Nat) :
    LeavesMarks (generalise Γ spans mark) := by
  unfold generalise
  refine Leads.get.bind fun s => (checkOwned_queries _ _).leavesMarks.bind fun _ => ?_
  refine (LeavesMarks.onEngine _).bind fun _ => ?_
  refine (takeProvisional_queries _).leavesMarks.bind fun monos => ?_
  refine (relationsOf_queries _ _ _).leavesMarks.bind fun relations => ?_
  dsimp only
  split
  · exact .throw _
  · exact (bindParams_leavesMarks _ _).bind fun _ => (recordSchemes_queries _ _ _).leavesMarks

theorem announce_leavesMarks (gs : List Global) : LeavesMarks (announce Γ gs) := by
  induction gs with
  | nil => exact .pure ()
  | cons g gs ih =>
    unfold announce
    extract_lets rest report
    have hreport : ∀ u, LeavesMarks (report u) := by
      intro u
      refine Leads.get.bind fun s => ?_
      split
      · exact (tell_leavesMarks _).bind fun _ => ih
      · exact (Leads.throw _).bind fun _ => ih
    split
    · exact .bind (.modify fun _ => .refl _) hreport
    · exact hreport ()

theorem closeGroup_leavesMarks (group : List Global) (spans : List Span) (mark : Nat) :
    LeavesMarks (closeGroup Γ group spans mark) := by
  unfold closeGroup
  refine (LeavesMarks.onEngine _).bind fun _ => (dischargeDeclared_leavesMarks _ _).bind fun _ => ?_
  refine (generalise_leavesMarks _ _).bind fun _ => (announce_leavesMarks _).bind fun _ => ?_
  exact .modify fun _ => .refl _

theorem typeGroup_leavesMarks (hsolve : ∀ g, LeavesMarks (solve g)) (group : List Global) :
    LeavesMarks (typeGroup Γ solve group) := by
  unfold typeGroup
  refine Leads.get.bind fun s => (openGroup_leavesMarks group).bind fun _ => ?_
  exact (typeBodies_leavesMarks hsolve group).bind fun _ => closeGroup_leavesMarks _ _ _

/-- Typing a function with all that it depends on marks nothing, by induction on the depth. -/
theorem solveWithin_leavesMarks (fuel : Nat) (g : Global) : LeavesMarks (solveWithin Γ fuel g) := by
  induction fuel generalizing g with
  | zero => exact .throw _
  | succ fuel ih => exact typeGroup_leavesMarks ih _

theorem solveGroups_leavesMarks (groups : List (List Global)) :
    LeavesMarks (solveGroups Γ groups) := by
  induction groups with
  | nil => exact .pure ()
  | cons group rest ih =>
    unfold solveGroups
    split
    · refine Leads.get.bind fun s => ?_
      exact .ite ((solveWithin_leavesMarks _ _).bind fun _ => ih) ih
    · exact ih

end

/-! ## Marking -/

theorem checkSubject_leavesMarks (final : Bool) (subject : Expr) (t : Ty) :
    LeavesMarks (checkSubject final subject t) := by
  unfold checkSubject
  refine (LeavesMarks.onEngine _).bind fun u => ?_
  split
  · exact .ite (.throw _) (.pure ())
  · exact .pure ()
  · exact (LeavesMarks.onEngine _).bind fun _ => .throw _

theorem checkSubjects_leavesMarks (subjects : List (Expr × Ty)) :
    LeavesMarks (checkSubjects subjects) := by
  induction subjects with
  | nil => exact .pure ()
  | cons x rest ih =>
    unfold checkSubjects
    exact (checkSubject_leavesMarks _ _ _).bind fun _ => ih

theorem finalTypes_leavesMarks (nodes : List (Serial × (Phrase × Ty))) :
    LeavesMarks (finalTypes nodes) := by
  induction nodes with
  | nil => exact .pure []
  | cons x rest ih =>
    unfold finalTypes
    refine (LeavesMarks.onEngine _).bind fun u => ?_
    have hmore : LeavesMarks (do
        let more ← finalTypes rest
        return (x.1, u) :: more) := ih.bind fun _ => .pure _
    exact .ite ((Leads.throw _).bind fun _ => hmore) hmore

/-- A type that is resolved may hold a cell of another run, which is no type error. -/
theorem resolve_neverComplains (t : Ty) : NeverComplains (resolve t) := by
  refine ⟨fun s i s' h => ?_, (LeavesMarks.onEngine _).tags⟩
  unfold resolve onEngine EngineM.onStore StoreM.resolve Store.resolve? at h
  grind

theorem onEngine_bind (x : EngineM α) (f : α → EngineM β) :
    onEngine (x >>= f) = onEngine x >>= fun a => onEngine (f a) := by
  funext s
  cases hx : x s.engine with
  | ok a e =>
    have hrun : onEngine x s = .ok a { s with engine := e } := by simp only [onEngine, hx]
    rw [bind_of_ok hrun]
    simp only [onEngine, bind_of_ok hx]
  | error fault e =>
    have hrun : onEngine x s = .error fault { s with engine := e } := by simp only [onEngine, hx]
    rw [bind_of_error hrun]
    simp only [onEngine, bind_of_error hx]

theorem resolveAll_neverComplains (ts : List Ty) : NeverComplains (resolveAll ts) := by
  induction ts with
  | nil => exact .pure []
  | cons t ts ih =>
    unfold resolveAll EngineM.resolveAll
    rw [onEngine_bind]
    refine (resolve_neverComplains t).bind fun u => ?_
    rw [onEngine_bind]
    exact ih.bind fun us => .pure _

theorem mark_neverComplains {f : Marks → Marks} (hf : ∀ m, (f m).tags = m.tags) :
    NeverComplains (onSession (SessionM.mark f)) where
  silent s i s' h := by cases h
  tags s := ⟨hf _, Nat.le_refl _⟩

theorem tags_foldl_setType {γ : Type} (xs : List γ) (f : γ → Serial × Ty) (m : Marks) :
    (xs.foldl (fun m x => m.setType (f x).1 (f x).2) m).tags = m.tags := by
  induction xs generalizing m with
  | nil => rfl
  | cons x xs ih => exact ih _

theorem markCalls_neverComplains (calls : List (Serial × List Ty)) :
    NeverComplains (markCalls calls) := by
  induction calls with
  | nil => exact .pure ()
  | cons x rest ih =>
    unfold markCalls
    refine (resolveAll_neverComplains _).bind fun _ => (mark_neverComplains ?_).bind fun _ => ih
    exact fun _ => rfl

theorem annotate_marksLast : MarksLast annotate := by
  unfold annotate
  refine .bind .get fun s => .bind (checkSubjects_leavesMarks _) fun _ => ?_
  refine .bind .get fun s => .bind (finalTypes_leavesMarks _) fun final => ?_
  -- Everything is complete, and from here on the marks change.
  refine (NeverComplains.bind (mark_neverComplains ?_) fun _ => ?_).marksLast
  · exact tags_foldl_setType final id
  · exact NeverComplains.get.bind fun s => markCalls_neverComplains _

theorem recordSignatures_neverComplains (gs : List Global) (m : Module) :
    NeverComplains (recordSignatures gs m) := by
  induction gs generalizing m with
  | nil => exact .pure m
  | cons g gs ih =>
    unfold recordSignatures
    refine NeverComplains.get.bind fun s => ?_
    split
    · exact ⟨fun s i s' h => by (cases h), LeavesMarks.tags (.throw _)⟩
    · refine (mark_neverComplains ?_).bind fun _ => ih _
      exact fun _ => rfl

theorem markCtors_neverComplains (ds : List DataType) : NeverComplains (ds.forM markCtors) := by
  induction ds with
  | nil => exact .pure ()
  | cons d ds ih =>
    refine (mark_neverComplains ?_).bind fun _ => ih
    exact tags_foldl_setType d.ctors fun c => (c.serial, (d.ctorSignature c).toTy)

theorem checkModule_marksLast (Γ : Context) : MarksLast (checkModule Γ) := by
  unfold checkModule
  refine .bind (solveGroups_leavesMarks _) fun _ => .bind (LeavesMarks.onEngine _) fun _ => ?_
  refine annotate_marksLast.bind_neverComplains fun _ => ?_
  refine (recordSignatures_neverComplains _ _).bind fun m => ?_
  exact (markCtors_neverComplains _).bind fun _ => .pure m

theorem recordSignatures_module {gs : List Global} {m' : Module}
    (h : recordSignatures gs m s = .ok m' s') : m' = { m with checked := m'.checked } ∧
      ∀ g, m'.checked.contains g = true → m.checked.contains g = true ∨ g ∈ gs := by
  induction gs generalizing s m with
  | nil =>
    cases h
    exact ⟨rfl, fun _ => .inl⟩
  | cons g gs ih =>
    unfold recordSignatures at h
    rw [get_bind] at h
    cases hget : s.schemes.get? g with
    | none =>
      simp only [hget] at h
      cases h
    | some sig =>
      simp only [hget] at h
      obtain ⟨_, s₁, -, hrest⟩ := bind_eq_ok h
      obtain ⟨hmodule, hchecked⟩ := ih hrest
      refine ⟨hmodule, fun k hk => ?_⟩
      rcases hchecked k hk with hk | hk
      · simp only [Table.contains_insert, Bool.or_eq_true, decide_eq_true_eq] at hk
        rcases hk with rfl | hk
        · exact .inr (.head _)
        · exact .inl hk
      · exact .inr (.tail _ hk)

/-- Checking a module changes its record of signatures and nothing else in it. -/
theorem checkModule_module {Γ : Context} (h : checkModule Γ s = .ok m s') :
    m = { Γ.module with checked := m.checked } ∧
      ∀ g, m.checked.contains g = true →
        Γ.module.checked.contains g = true ∨ g ∈ Γ.module.functions.keys := by
  unfold checkModule at h
  obtain ⟨_, s₁, -, h⟩ := bind_eq_ok h
  obtain ⟨_, s₂, -, h⟩ := bind_eq_ok h
  obtain ⟨_, s₃, -, h⟩ := bind_eq_ok h
  obtain ⟨m', s₄, hrecord, h⟩ := bind_eq_ok h
  obtain ⟨_, s₅, -, h⟩ := bind_eq_ok h
  cases h
  exact recordSignatures_module hrecord

theorem typeExpr_marksLast (Γ : Context) (e : Expr) : MarksLast (typeExpr Γ e) := by
  unfold typeExpr
  refine .bind (infer_leavesMarks (solveWithin_leavesMarks _) e []) fun t => ?_
  refine .bind (LeavesMarks.onEngine _) fun _ => ?_
  exact annotate_marksLast.bind_neverComplains fun _ => resolve_neverComplains t

/-- A run that fails marks nothing. Where checking a module comes to the conclusion that the module
is not well typed, the marks are those that were there before, on nodes and calls and on the symbols
of functions and constructors, and so are the signatures of the module. Where typing an expression
ends in a type error, the marks are those that were there before. -/
theorem failed_run_marks_nothing (m : Module) (operators : Operators) (registry : Registry)
    (report : Report) (e : Expr) (session : Session) :
    ((m.check operators registry report session).outcome = .ok false →
        (m.check operators registry report session).session.marks = session.marks ∧
          (m.check operators registry report session).module = m) ∧
      ∀ i session', m.typeOf operators registry e session = .error (.issue i) session' →
        session'.marks = session.marks := by
  constructor
  · intro h
    unfold Module.check at h ⊢
    dsimp only at h ⊢
    split at h
    · cases h
    · next i s hrun => exact ⟨(checkModule_marksLast _).last _ _ _ hrun, rfl⟩
    · cases h
  · intro i session' h
    unfold Module.typeOf at h
    dsimp only at h
    split at h
    · cases h
    · next f s hrun =>
      cases h
      exact (typeExpr_marksLast _ _).last _ _ _ hrun

theorem eq_ok_of_toOption {ε : Type} {x : Except ε α} {a : α} (h : x.toOption = some a) :
    x = .ok a := by
  cases x <;> simp_all [Except.toOption]

/-! A module that has been checked is extended by a function that calls a number. -/

namespace Extended

def x : Var := ⟨⟨1, "x"⟩, none⟩
def id : Global := ⟨⟨2, "id"⟩⟩
def k : Global := ⟨⟨3, "k"⟩⟩
def bodyOfId : Function := { node := 4, params := [x], body := .var x }
def one (n : Serial) : Expr := .constant n ⟨"int32", [], .int 1⟩

/-- The expression `id(1)(1)`. -/
def wrong : Expr := .call 5 (.call 6 (.global id) [one 7] none .empty) [one 8] none .empty

def bodyOfK : Function := { node := 9, params := [], body := wrong }
def operators : Operators := (Operators.standard ⟨50⟩).1

def checked : TensorTyping.Checked :=
  Module.check { functions := ⟨[(id, bodyOfId)]⟩ } operators .standard {} { supply := ⟨200⟩ }

def module : Module := { checked.module with functions := ⟨[(id, bodyOfId), (k, bodyOfK)]⟩ }

def refused : Bool :=
  match module.typeOf operators .standard wrong checked.session with
  | .error (.issue _) _ => true
  | _ => false

theorem exists_issue (h : refused = true) : ∃ i session',
    module.typeOf operators .standard wrong checked.session = .error (.issue i) session' := by
  unfold refused at h
  split at h
  · next i session' hrun => exact ⟨i, session', hrun⟩
  · cases h

end Extended

/-- The marks and the signatures of the first run are still there after two runs that fail. -/
theorem failed_run_marks_nothing_extended :
    (Extended.checked.session.marks.type? Extended.x.serial).isSome = true ∧
      (Extended.module.signature? Extended.id).isSome = true ∧
      ((Extended.module.check Extended.operators .standard {}
          Extended.checked.session).outcome.toOption = some false ∧
        (Extended.module.check Extended.operators .standard {}
          Extended.checked.session).session.marks = Extended.checked.session.marks ∧
        (Extended.module.check Extended.operators .standard {}
          Extended.checked.session).module = Extended.module) ∧
      ∃ i session', Extended.module.typeOf Extended.operators .standard Extended.wrong
          Extended.checked.session = .error (.issue i) session' ∧
        session'.marks = Extended.checked.session.marks := by
  have hfails := failed_run_marks_nothing Extended.module Extended.operators .standard {}
    Extended.wrong Extended.checked.session
  refine ⟨by decide +kernel, by decide +kernel, ?_, ?_⟩
  · have hoption : (Extended.module.check Extended.operators .standard {}
        Extended.checked.session).outcome.toOption = some false := by decide +kernel
    exact ⟨hoption, hfails.1 (eq_ok_of_toOption hoption)⟩
  · obtain ⟨i, session', hrun⟩ := Extended.exists_issue (by decide +kernel)
    exact ⟨i, session', hrun, hfails.2 i session' hrun⟩

end Inference

end TensorTyping
