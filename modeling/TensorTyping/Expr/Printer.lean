import TensorTyping.Expr.Basic
import TensorTyping.Text.Excerpt
import TensorTyping.Ty.Printer

/-!
# The text of expressions

Expressions have no concrete syntax to point into, so reports show this text of a phrase, cut to a
line. Each type inside it is printed alone.
-/
namespace TensorTyping

def Var.text (x : Var) : String :=
  match x.ascription with
  | none => x.name
  | some t => x.name ++ ": " ++ t.text

def Global.text (g : Global) : String := "@" ++ g.name

def Constant.text (c : Constant) : String :=
  match c.value, c.shape with
  | .null, [] => "const<" ++ c.dtype ++ ">"
  | v, [] => v.written
  | _, shape => "const<" ++ c.dtype ++ "[" ++ ", ".intercalate (shape.map DimEntry.text) ++ "]>"

namespace Pattern

mutual
def text : Pattern → String
  | .wildcard _ => "_"
  | .var _ x => x.text
  | .ctor _ c [] => c.name
  | .ctor _ c subs => c.name ++ Ty.parenthesised (texts subs)
def texts : List Pattern → List String
  | [] => []
  | p :: ps => p.text :: texts ps
end

end Pattern

namespace Expr

def braced (s : String) : String := "\x7b " ++ s ++ " \x7d"

def clauseText (p : Pattern) (body : String) : String := p.text ++ " => " ++ body

mutual
def text : Expr → String
  | .var x => x.text
  | .global g => g.text
  | .op _ name => name
  | .ctor c => c.name
  | .constant _ c => c.text
  | .fn _ params body ret typeParams _ =>
    let generic := if typeParams.isEmpty then "" else
      "<" ++ ", ".intercalate (typeParams.map fun p => p.name) ++ ">"
    let result := match ret with
      | none => ""
      | some t => " -> " ++ t.text
    "fn" ++ generic ++ Ty.parenthesised (params.map Var.text) ++ result ++ " " ++ braced body.text
  | .call _ callee args typeArgs _ =>
    let explicit := match typeArgs with
      | some (t :: ts) => "[" ++ ", ".intercalate ((t :: ts).map Ty.text) ++ "]"
      | _ => ""
    callee.text ++ explicit ++ Ty.parenthesised (texts args)
  | .letIn _ x value body => "let " ++ x.text ++ " = " ++ value.text ++ "; " ++ body.text
  | .tuple _ fields => Ty.parenthesised (texts fields)
  | .proj _ t index => t.text ++ "." ++ toString index.toInt
  | .cond _ test whenTrue whenFalse =>
    "if (" ++ test.text ++ ") " ++ braced whenTrue.text ++ " else " ++ braced whenFalse.text
  | .matchOn _ subject clauses =>
    "match (" ++ subject.text ++ ") " ++ braced (" | ".intercalate (clauseTexts clauses))
def texts : List Expr → List String
  | [] => []
  | e :: es => e.text :: texts es
def clauseTexts : List (Pattern × Expr) → List String
  | [] => []
  | (p, e) :: cs => clauseText p e.text :: clauseTexts cs
end

end Expr

/-- Anything that a report can point at. -/
inductive Phrase where
  | expr (e : Expr)
  | pattern (p : Pattern)
  | clause (p : Pattern) (body : Expr)
deriving Inhabited

namespace Phrase

def text : Phrase → String
  | .expr e => e.text
  | .pattern p => p.text
  | .clause p body => Expr.clauseText p body.text

def summary (p : Phrase) : String := Text.excerpt p.text

end Phrase

end TensorTyping
