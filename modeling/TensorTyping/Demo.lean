import TensorTyping.Prelude

/-!
# Demonstration programs

Each adds functions to a prelude of its own.
-/
namespace TensorTyping.Demo

open Build

def floats (dims : List Nat) : Option Ty := some (.tensor (dims.map .known) "float32")

/-- A network of two layers, annotated throughout but for its result. -/
def mlp (m : Module) : SessionM Module := do
  Prelude.addTo m (← SessionM.mint (newGlobal "mlp")) do
    let x ← newVar "x" (floats [1, 784])
    let w1 ← newVar "w1" (floats [784, 128])
    let b1 ← newVar "b1" (floats [128])
    let w2 ← newVar "w2" (floats [128, 10])
    let b2 ← newVar "b2" (floats [10])
    let h ← newVar "h"
    fn [x, w1, b1, w2, b2] (letIn h
      (call (op "relu") [call (op "add") [call (op "matmul") [use x, use w1], use b1]])
      (call (op "add") [call (op "matmul") [use h, use w2], use b2]))

/-- A layer of any size, and two of them at given sizes. -/
def dense (m : Module) : SessionM Module := do
  let layer ← SessionM.mint (newGlobal "dense")
  let m ← Prelude.addTo m layer do
    let x ← newVar "x"
    let w ← newVar "w"
    let b ← newVar "b"
    fn [x, w, b] (call (op "relu")
      [call (op "add") [call (op "matmul") [use x, use w], use b]])
  Prelude.addTo m (← SessionM.mint (newGlobal "two_layers")) do
    let x ← newVar "x" (floats [8, 32])
    let w1 ← newVar "w1" (floats [32, 16])
    let b1 ← newVar "b1" (floats [16])
    let w2 ← newVar "w2" (floats [16, 4])
    let b2 ← newVar "b2" (floats [4])
    fn [x, w1, b1, w2, b2] (call (global layer)
      [call (global layer) [use x, use w1, use b1], use w2, use b2])

/-- Functions over a list of numbers. -/
def lists (m : Module) : SessionM Module := do
  let c ← Prelude.ctorsOf m
  let map ← SessionM.ofExcept (m.global? "map")
  let length ← SessionM.ofExcept (m.global? "length")
  let hd ← SessionM.ofExcept (m.global? "hd")
  let positive : Mint Expr :=
    call (global map) [op "relu",
      call (ctor c.cons) [float 1.5, call (ctor c.cons) [float 2.5, call (ctor c.nil) []]]]
  let m ← Prelude.addTo m (← SessionM.mint (newGlobal "count_positive"))
    (fn [] (call (global length) [positive]))
  Prelude.addTo m (← SessionM.mint (newGlobal "first_positive"))
    (fn [] (call (global hd) [positive]))

/-- Exchanging the parts of a pair. -/
def pairs (m : Module) : SessionM Module := do
  let swap ← SessionM.mint (newGlobal "swap")
  let m ← Prelude.addTo m swap do
    let p ← newVar "p"
    fn [p] (tuple [proj (use p) 1, proj (use p) 0])
  Prelude.addTo m (← SessionM.mint (newGlobal "swapped"))
    (fn [] (call (global swap) [tuple [float 1.0, ints [1, 2, 3]]]))

def all : List (String × (Module → SessionM Module)) :=
  [("mlp", mlp), ("dense", dense), ("lists", lists), ("pairs", pairs)]

def names : List String := all.map Prod.fst

def build (name : String) : SessionM Module := do
  let m ← Prelude.build
  match all.lookup name with
  | some extend => extend m
  | none => throw (.missing name)

end TensorTyping.Demo
