import TensorTyping.Ty.Basic

/-!
# Equality of types

Two types are equal when they have the same parts. Settings of relations are equal as values, so
that a truth value and the number it counts as make no difference.
-/
namespace TensorTyping.Ty

mutual
def same : Ty → Ty → Bool
  | .tensor s d, .tensor s' d' => d == d' && s == s'
  | .tuple ts, .tuple ts' => sameList ts ts'
  | .func as r ps rs, .func as' r' ps' rs' =>
    sameList as as' && r.same r' && ps == ps' && sameRelations rs rs'
  | .param p, .param p' => p == p'
  | .cell c, .cell c' => c == c'
  | .handle h, .handle h' => h == h'
  | .data h as, .data h' as' => h == h' && sameList as as'
  | _, _ => false
def sameList : List Ty → List Ty → Bool
  | [], [] => true
  | t :: ts, t' :: ts' => t.same t' && sameList ts ts'
  | _, _ => false
def sameRelations : List TypeRelation → List TypeRelation → Bool
  | [], [] => true
  | ⟨n, as, k, at'⟩ :: rs, ⟨n', as', k', at''⟩ :: rs' =>
    n == n' && sameList as as' && k == k' && at'.same at'' && sameRelations rs rs'
  | _, _ => false
end

instance : BEq Ty := ⟨same⟩

end TensorTyping.Ty

namespace TensorTyping.TypeRelation

def same (r s : TypeRelation) : Bool :=
  r.name == s.name && Ty.sameList r.args s.args && r.inputs == s.inputs && r.attrs.same s.attrs

end TensorTyping.TypeRelation
