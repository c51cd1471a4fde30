import TensorTyping.Expr.Build
import TensorTyping.Module.Basic

/-!
# The standard prelude

Generic data types and the usual functions over them, and demonstration programs that use them
together with the tensor operators. Most functions carry no ascriptions. A constructor without
inputs is applied to no arguments.
-/
namespace TensorTyping.Prelude

open Build

def addTo (m : Module) (g : Global) (f : Mint Expr) : SessionM Module := do
  let e ← SessionM.mint f
  SessionM.ofExcept (m.addFunction g e)

/-- Add a data type of one parameter, whose cases may mention it and themselves. -/
def addData (m : Module) (name : String) (cases : Handle → Ty → List (String × List Ty)) :
    SessionM Module := do
  let h ← SessionM.mint (newHandle name)
  let a ← SessionM.mint (newTypeParam "a")
  return (← m.defineData h [a] (cases h (.param a))).2

/-- Lists, optional values and trees with any number of branches. -/
def dataTypes : SessionM Module := do
  let m ← addData .empty "List" fun list a => [("Nil", []), ("Cons", [a, .data list [a]])]
  let m ← addData m "Option" fun _ a => [("None_", []), ("Some", [a])]
  let list ← SessionM.ofExcept (m.handle? "List")
  addData m "Tree" fun tree a => [("Rose", [a, .data list [.data tree [a]]])]

structure Ctors where
  nil : Ctor
  cons : Ctor
  none : Ctor
  some : Ctor
  rose : Ctor

/-- Find the constructors of the prelude in a module. -/
def ctorsOf (m : Module) : SessionM Ctors := do
  return {
    nil := ← SessionM.ofExcept (m.ctorNamed "List" "Nil")
    cons := ← SessionM.ofExcept (m.ctorNamed "List" "Cons")
    none := ← SessionM.ofExcept (m.ctorNamed "Option" "None_")
    some := ← SessionM.ofExcept (m.ctorNamed "Option" "Some")
    rose := ← SessionM.ofExcept (m.ctorNamed "Tree" "Rose") }

/-- The functions that only pass their arguments on. -/
def addCombinators (m : Module) : SessionM Module := do
  let m ← addTo m (← SessionM.mint (newGlobal "id")) do
    let x ← newVar "x"
    fn [x] (use x)
  addTo m (← SessionM.mint (newGlobal "compose")) do
    let f ← newVar "f"
    let g ← newVar "g"
    let x ← newVar "x"
    fn [f, g] (fn [x] (call (use f) [call (use g) [use x]]))

/-- The parts and the length of a list. -/
def addListParts (c : Ctors) (m : Module) : SessionM Module := do
  let m ← addTo m (← SessionM.mint (newGlobal "hd")) do
    let xs ← newVar "xs"
    let h ← newVar "h"
    fn [xs] (matchOn (use xs) [(shape c.cons [binding h, anything], use h)])
  let m ← addTo m (← SessionM.mint (newGlobal "tl")) do
    let xs ← newVar "xs"
    let t ← newVar "t"
    fn [xs] (matchOn (use xs) [(shape c.cons [anything, binding t], use t)])
  let length ← SessionM.mint (newGlobal "length")
  addTo m length do
    let xs ← newVar "xs"
    let t ← newVar "t"
    fn [xs] (matchOn (use xs) [
      (shape c.nil [], int 0),
      (shape c.cons [anything, binding t],
        call (op "add") [int 1, call (global length) [use t]])])

def addListFolds (c : Ctors) (m : Module) : SessionM Module := do
  let map ← SessionM.mint (newGlobal "map")
  let m ← addTo m map do
    let f ← newVar "f"
    let xs ← newVar "xs"
    let h ← newVar "h"
    let t ← newVar "t"
    fn [f, xs] (matchOn (use xs) [
      (shape c.nil [], call (ctor c.nil) []),
      (shape c.cons [binding h, binding t],
        call (ctor c.cons) [call (use f) [use h], call (global map) [use f, use t]])])
  let foldl ← SessionM.mint (newGlobal "foldl")
  let m ← addTo m foldl do
    let f ← newVar "f"
    let acc ← newVar "acc"
    let xs ← newVar "xs"
    let h ← newVar "h"
    let t ← newVar "t"
    fn [f, acc, xs] (matchOn (use xs) [
      (shape c.nil [], use acc),
      (shape c.cons [binding h, binding t],
        call (global foldl) [use f, call (use f) [use acc, use h], use t])])
  let foldr ← SessionM.mint (newGlobal "foldr")
  addTo m foldr do
    let f ← newVar "f"
    let acc ← newVar "acc"
    let xs ← newVar "xs"
    let h ← newVar "h"
    let t ← newVar "t"
    fn [f, acc, xs] (matchOn (use xs) [
      (shape c.nil [], use acc),
      (shape c.cons [binding h, binding t],
        call (use f) [use h, call (global foldr) [use f, use acc, use t]])])

/-- Joining lists and picking an item. -/
def addListIndexing (c : Ctors) (m : Module) : SessionM Module := do
  let append ← SessionM.mint (newGlobal "append")
  let m ← addTo m append do
    let xs ← newVar "xs"
    let ys ← newVar "ys"
    let h ← newVar "h"
    let t ← newVar "t"
    fn [xs, ys] (matchOn (use xs) [
      (shape c.nil [], use ys),
      (shape c.cons [binding h, binding t],
        call (ctor c.cons) [use h, call (global append) [use t, use ys]])])
  let nth ← SessionM.mint (newGlobal "nth")
  addTo m nth do
    let xs ← newVar "xs"
    let n ← newVar "n" (some (.scalar "int32"))
    let h ← newVar "h"
    let t ← newVar "t"
    fn [xs, n] (matchOn (use xs) [
      (shape c.cons [binding h, binding t],
        cond (call (op "equal") [use n, int 0]) (use h)
          (call (global nth) [use t, call (op "subtract") [use n, int 1]]))])

/-- Optional values and trees. -/
def addOthers (c : Ctors) (m : Module) : SessionM Module := do
  let m ← addTo m (← SessionM.mint (newGlobal "unwrap_or")) do
    let opt ← newVar "opt"
    let default ← newVar "default"
    let v ← newVar "v"
    fn [opt, default] (matchOn (use opt) [
      (shape c.some [binding v], use v),
      (anything, use default)])
  let m ← addTo m (← SessionM.mint (newGlobal "head_option")) do
    let xs ← newVar "xs"
    let h ← newVar "h"
    fn [xs] (matchOn (use xs) [
      (shape c.cons [binding h, anything], call (ctor c.some) [use h]),
      (shape c.nil [], call (ctor c.none) [])])
  let map ← SessionM.ofExcept (m.global? "map")
  let treeMap ← SessionM.mint (newGlobal "tree_map")
  addTo m treeMap do
    let f ← newVar "f"
    let tree ← newVar "tree"
    let v ← newVar "v"
    let kids ← newVar "kids"
    let k ← newVar "k"
    fn [f, tree] (matchOn (use tree) [
      (shape c.rose [binding v, binding kids],
        call (ctor c.rose) [call (use f) [use v],
          call (global map) [fn [k] (call (global treeMap) [use f, use k]), use kids]])])

def build : SessionM Module := do
  let m ← dataTypes
  let c ← ctorsOf m
  let m ← addCombinators m
  let m ← addListParts c m
  let m ← addListFolds c m
  let m ← addListIndexing c m
  addOthers c m

end TensorTyping.Prelude
