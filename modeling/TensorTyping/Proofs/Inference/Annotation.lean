import Mathlib.Data.List.Forall2
import TensorTyping.Inference.State
import TensorTyping.Proofs.Expr.Parts

/-!
# Annotations that obey the typing rules

An annotation gives types to the nodes and variables of an expression and type arguments to its
calls. It obeys the typing rules when at every node the types around it fit. The rules are local,
so they can be read off node by node, and they do not say when two types count as the same: that is
left to the annotation.

A global function or a constructor is a symbol that all its uses share, so that it has no type of
its own at a place. It has the types that are instances of its signature.
-/
namespace TensorTyping

/-- The type is the signature with the type arguments put in for its parameters. -/
def Signature.HasInstance (sig : Signature) (ts : List Ty) (t : Ty) : Prop :=
  ts.length = sig.params.length ∧ ∃ relations,
    t = .func (sig.args.map (Substitution.ofParams sig.params ts).apply)
      ((Substitution.ofParams sig.params ts).apply sig.ret) [] relations

/-- Whether the expression refers to something that has a signature: a global function, a
constructor or an operator. -/
def Expr.isReference : Expr → Bool
  | .global _ | .ctor _ | .op .. => true
  | _ => false

namespace Inference

/-- Types for nodes and variables and type arguments for calls, by serial number. -/
structure Annotation where
  type : Serial → Option Ty
  typeArgs : Serial → Option (List Ty)
  /-- The types that a global function may be used at, with its type arguments. -/
  uses : Global → List Ty → Ty → Prop
  /-- When two types count as the same. -/
  agree : Ty → Ty → Prop
  /-- When the second type may be that of a projection out of the first. -/
  projects : Index → Ty → Ty → Prop

namespace Annotation

variable (Γ : Context) (A : Annotation)

/-- The expression refers to something that can be used at the type, with the type arguments. -/
def Refers : Expr → List Ty → Ty → Prop
  | .global g, ts, t => A.uses g ts t
  | .ctor c, ts, t => ∃ d, Γ.module.dataTypeOf? c = some d ∧ (d.ctorSignature c).HasInstance ts t
  | .op _ name, ts, t => ∃ sig, Γ.operators.table.get? name = some sig ∧ sig.HasInstance ts t
  | _, _, _ => False

def HasType (e : Expr) (t : Ty) : Prop :=
  if e.isShared then ∃ ts, A.Refers Γ e ts t else A.type e.serial = some t

/-- The call `n` uses its callee at the type. -/
def HasCallee (n : Serial) (e : Expr) (t : Ty) : Prop :=
  if e.isReference then
    (e.isShared = false → A.type e.serial = some t) ∧
      ∃ ts, A.typeArgs n = some ts ∧ A.Refers Γ e ts t
  else A.type e.serial = some t ∧ A.typeArgs n = some []

mutual
/-- The pattern fits the type of what is matched. -/
def Fits : Pattern → Ty → Prop
  | .wildcard n, t => A.type n = some t
  | .var n x, t => A.type n = some t ∧ A.type x.serial = some t ∧
      ∀ a, x.ascription = some a → A.agree a t
  | .ctor n c subs, t => A.type n = some t ∧ ∃ d ts, Γ.module.dataTypeOf? c = some d ∧
      ts.length = d.params.length ∧ A.agree t (.data d.handle ts) ∧
      FitAll subs (c.inputs.map (Substitution.ofParams d.params ts).apply)
/-- The patterns fit the types at their places. -/
def FitAll : List Pattern → List Ty → Prop
  | [], [] => True
  | p :: ps, t :: ts => Fits p t ∧ FitAll ps ts
  | _, _ => False
end

/-- The variable is annotated with the type, which is the one it declares if it declares one. -/
def HasParam (x : Var) (t : Ty) : Prop :=
  A.type x.serial = some t ∧ ∀ a, x.ascription = some a → t = a

/-- The typing rule at a node. -/
def Obeys : Expr → Prop
  | .var x => ∃ t, A.type x.serial = some t
  | .global _ | .ctor _ => True
  | .op n name => ∃ ts t, A.Refers Γ (.op n name) ts t ∧ A.type n = some t
  | .constant n c => ∃ t, Ty.ofEntries c.shape c.dtype = .ok t ∧ A.type n = some t
  | .fn n params body ret typeParams relations => ∃ ts b r,
      List.Forall₂ A.HasParam params ts ∧ A.HasType Γ body b ∧
      r = ret.getD b ∧ A.agree r b ∧ A.type n = some (.func ts r typeParams relations)
  | .call n callee args _ _ => ∃ as r relations ts,
      A.HasCallee Γ n callee (.func as r [] relations) ∧ List.Forall₂ (A.HasType Γ) args ts ∧
      List.Forall₂ A.agree as ts ∧ A.type n = some r
  | .letIn n x value body => ∃ v t b,
      A.HasType Γ value v ∧ A.type x.serial = some t ∧ A.agree v t ∧
      (value.function? = none → v = t) ∧ (∀ a, x.ascription = some a → A.agree a t) ∧
      A.HasType Γ body b ∧ A.type n = some b
  | .tuple n fields => ∃ ts, List.Forall₂ (A.HasType Γ) fields ts ∧ A.type n = some (.tuple ts)
  | .proj n e index => ∃ t u, A.HasType Γ e t ∧ A.projects index t u ∧ A.type n = some u
  | .cond n test whenTrue whenFalse => ∃ c t u,
      A.HasType Γ test c ∧ A.HasType Γ whenTrue t ∧ A.HasType Γ whenFalse u ∧
      A.agree .bool c ∧ A.agree t u ∧ A.type n = some t
  | .matchOn n subject clauses => ∃ t u us,
      A.HasType Γ subject t ∧ (∀ c ∈ clauses, A.Fits Γ c.1 t) ∧
      List.Forall₂ (fun c u => A.HasType Γ c.2 u) clauses us ∧ (∀ v ∈ us.head?, v = u) ∧
      (∀ v ∈ us, A.agree u v) ∧ A.type n = some u

/-- Whatever one annotation says, the other says as well. -/
structure Refines (A B : Annotation) : Prop where
  type : ∀ {n t}, A.type n = some t → B.type n = some t
  typeArgs : ∀ {n ts}, A.typeArgs n = some ts → B.typeArgs n = some ts
  uses : ∀ {g ts t}, A.uses g ts t → B.uses g ts t
  agree : ∀ {t u}, A.agree t u → B.agree t u
  projects : ∀ {i t u}, A.projects i t u → B.projects i t u

namespace Refines

variable {Γ : Context} {A B : Annotation} {e : Expr} {t : Ty}

theorem refers (h : A.Refines B) {ts : List Ty} (he : A.Refers Γ e ts t) : B.Refers Γ e ts t := by
  cases e with
  | global g => exact h.uses he
  | _ => exact he

theorem hasType (h : A.Refines B) (he : A.HasType Γ e t) : B.HasType Γ e t := by
  unfold HasType at he ⊢
  split at he
  · next hshared =>
    obtain ⟨ts, hts⟩ := he
    rw [if_pos hshared]
    exact ⟨ts, h.refers hts⟩
  · next hshared =>
    rw [if_neg hshared]
    exact h.type he

theorem hasCallee (h : A.Refines B) {n : Serial} (he : A.HasCallee Γ n e t) :
    B.HasCallee Γ n e t := by
  unfold HasCallee at he ⊢
  split at he
  · next href =>
    obtain ⟨htype, ts, hts, he⟩ := he
    rw [if_pos href]
    exact ⟨fun hshared => h.type (htype hshared), ts, h.typeArgs hts, h.refers he⟩
  · next href =>
    rw [if_neg href]
    exact ⟨h.type he.1, h.typeArgs he.2⟩

mutual
theorem fits (h : A.Refines B) {p : Pattern} {t : Ty} (hp : A.Fits Γ p t) : B.Fits Γ p t := by
  cases p with
  | wildcard n =>
    unfold Fits at hp ⊢
    exact h.type hp
  | var n x =>
    unfold Fits at hp ⊢
    exact ⟨h.type hp.1, h.type hp.2.1, fun a ha => h.agree (hp.2.2 a ha)⟩
  | ctor n c subs =>
    unfold Fits at hp ⊢
    obtain ⟨hn, d, ts, hd, hlen, hagree, hsubs⟩ := hp
    exact ⟨h.type hn, d, ts, hd, hlen, h.agree hagree, fitAll h hsubs⟩
theorem fitAll (h : A.Refines B) {ps : List Pattern} {ts : List Ty} (hp : A.FitAll Γ ps ts) :
    B.FitAll Γ ps ts := by
  cases ps with
  | nil =>
    cases ts <;> unfold FitAll at hp ⊢ <;> exact hp
  | cons p ps =>
    cases ts with
    | nil => unfold FitAll at hp; exact hp.elim
    | cons t ts =>
      unfold FitAll at hp ⊢
      exact ⟨fits h hp.1, fitAll h hp.2⟩
end

theorem obeys (h : A.Refines B) (he : A.Obeys Γ e) : B.Obeys Γ e := by
  cases e with
  | var x =>
    obtain ⟨t, ht⟩ := he
    exact ⟨t, h.type ht⟩
  | global g => trivial
  | ctor c => trivial
  | op n name =>
    obtain ⟨ts, t, href, hn⟩ := he
    exact ⟨ts, t, h.refers href, h.type hn⟩
  | constant n c =>
    obtain ⟨t, ht, hn⟩ := he
    exact ⟨t, ht, h.type hn⟩
  | fn n params body ret typeParams relations =>
    obtain ⟨ts, b, r, hparams, hbody, hr, hagree, hn⟩ := he
    refine ⟨ts, b, r, hparams.imp fun x t hx => ⟨h.type hx.1, hx.2⟩, h.hasType hbody, hr,
      h.agree hagree, h.type hn⟩
  | call n callee args typeArgs attrs =>
    obtain ⟨as, r, relations, ts, hcallee, hargs, hagree, hn⟩ := he
    exact ⟨as, r, relations, ts, h.hasCallee hcallee, hargs.imp fun _ _ => h.hasType,
      hagree.imp fun _ _ => h.agree, h.type hn⟩
  | letIn n x value body =>
    obtain ⟨v, t, b, hvalue, hx, hagree, heq, hwritten, hbody, hn⟩ := he
    exact ⟨v, t, b, h.hasType hvalue, h.type hx, h.agree hagree, heq,
      fun a ha => h.agree (hwritten a ha), h.hasType hbody, h.type hn⟩
  | tuple n fields =>
    obtain ⟨ts, hfields, hn⟩ := he
    exact ⟨ts, hfields.imp fun _ _ => h.hasType, h.type hn⟩
  | proj n e index =>
    obtain ⟨t, u, ht, hproj, hn⟩ := he
    exact ⟨t, u, h.hasType ht, h.projects hproj, h.type hn⟩
  | cond n test whenTrue whenFalse =>
    obtain ⟨c, t, u, hc, ht, hu, hbool, hagree, hn⟩ := he
    exact ⟨c, t, u, h.hasType hc, h.hasType ht, h.hasType hu, h.agree hbool, h.agree hagree,
      h.type hn⟩
  | matchOn n subject clauses =>
    obtain ⟨t, u, us, ht, hfits, hbodies, hfirst, hagree, hn⟩ := he
    exact ⟨t, u, us, h.hasType ht, fun c hc => h.fits (hfits c hc),
      hbodies.imp fun _ _ => h.hasType, hfirst, fun v hv => h.agree (hagree v hv), h.type hn⟩

end Refines

end Annotation

end Inference

end TensorTyping
