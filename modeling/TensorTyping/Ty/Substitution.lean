import TensorTyping.Ty.Basic

/-!
# Substitution

Replacing the parameters and cells of a type, everywhere at once. A function type keeps the list
of parameters that it binds, whatever becomes of them inside.
-/
namespace TensorTyping.Ty

mutual
def replace (onParam : TypeParam → Ty) (onCell : Cell → Ty) : Ty → Ty
  | .tensor s d => .tensor s d
  | .tuple ts => .tuple (replaceList onParam onCell ts)
  | .func as r ps rs =>
    .func (replaceList onParam onCell as) (r.replace onParam onCell) ps
      (replaceRelations onParam onCell rs)
  | .param p => onParam p
  | .cell c => onCell c
  | .handle h => .handle h
  | .data h as => .data h (replaceList onParam onCell as)
def replaceList (onParam : TypeParam → Ty) (onCell : Cell → Ty) : List Ty → List Ty
  | [] => []
  | t :: ts => t.replace onParam onCell :: replaceList onParam onCell ts
def replaceRelations (onParam : TypeParam → Ty) (onCell : Cell → Ty) :
    List TypeRelation → List TypeRelation
  | [] => []
  | ⟨n, as, k, ats⟩ :: rs =>
    ⟨n, replaceList onParam onCell as, k, ats⟩ :: replaceRelations onParam onCell rs
end

theorem replaceList_eq_map (f : TypeParam → Ty) (g : Cell → Ty) (ts : List Ty) :
    replaceList f g ts = ts.map (replace f g) := by
  induction ts with
  | nil => rfl
  | cons t ts ih => simp [replaceList, ih]

def mapCells (f : Cell → Ty) (t : Ty) : Ty := t.replace .param f

end TensorTyping.Ty

namespace TensorTyping

/-- What parameters and cells are to be replaced with. Of two entries for one leaf the later
wins. -/
structure Substitution where
  entries : List (Ty × Ty) := []

namespace Substitution

def onParam (γ : Substitution) (p : TypeParam) : Ty :=
  γ.entries.foldl (fun t e => match e.1 with
    | .param q => if p = q then e.2 else t
    | _ => t) (.param p)

def onCell (γ : Substitution) (c : Cell) : Ty :=
  γ.entries.foldl (fun t e => match e.1 with
    | .cell d => if c = d then e.2 else t
    | _ => t) (.cell c)

def apply (γ : Substitution) (t : Ty) : Ty := t.replace γ.onParam γ.onCell

def applyRelation (γ : Substitution) (r : TypeRelation) : TypeRelation :=
  { r with args := r.args.map γ.apply }

def ofParams (ps : List TypeParam) (ts : List Ty) : Substitution :=
  ⟨(ps.zip ts).map fun e => (.param e.1, e.2)⟩

end Substitution

end TensorTyping
