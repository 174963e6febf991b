import Mathlib.Algebra.Ring.Int.Defs
import RaftImplementation.Library.Maps

/-!
# The gradient manager (`gradient.go`, `handleGradientLog` in `raft.go`)

The applier hands every committed `GradientLog` to the gradient manager of its peer.
The manager collects the logs of a batch; when a batch has `bufferSize` of them it sums
their vectors, divides by their number and takes one step of gradient descent. An
update past the end of a vector is a panic, here `none`.

`float32` is any type `F` with the operations the code uses. The clock readings of the
manager are left out; the time stamp of a log is data and is carried along.
-/

namespace RaftImplementation

open Library

structure GradientLog (F : Type) where
  epoch : Int
  workerID : Int
  batchID : Int
  gradients : Map String (List F)
  timestamp : Int
  deriving DecidableEq

structure AggregatedGradient (F : Type) where
  epoch : Int
  batchID : Int
  gradients : Map String (List F)
  workerCount : Nat

structure ModelState (F : Type) where
  epoch : Int
  params : Map String (List F)
  deriving DecidableEq

structure GradientManager (F : Type) where
  gradientBuffer : Map Int (List (GradientLog F))
  bufferSize : Nat
  currentModel : ModelState F
  learningRate : F
  totalGradients : Nat
  aggregatedBatches : Nat
  deriving DecidableEq

def newGradientManager {F : Type} (learningRate : F) : GradientManager F where
  gradientBuffer := ∅
  bufferSize := 10
  currentModel := ⟨0, ∅⟩
  learningRate := learningRate
  totalGradients := 0
  aggregatedBatches := 0

namespace GradientManager

variable {F : Type}

/-- `for i, val := range vals { acc[i] = op(acc[i], val) }`. -/
def accumulate (op : F → F → F) : List F → List F → Option (List F)
  | acc, [] => some acc
  | [], _ :: _ => none
  | a :: acc, val :: vals => (accumulate op acc vals).map (op a val :: ·)

/-- The vector of a parameter after `vals` came in; one that does not exist is made with
the length of `vals`. -/
def accumulateInto [Zero F] (op : F → F → F) (old : Option (List F)) (vals : List F) :
    Option (List F) :=
  accumulate op (old.getD (List.replicate vals.length 0)) vals

/-- The new manager, and whether the batch is complete. -/
def addGradient (gm : GradientManager F) (grad : GradientLog F) : GradientManager F × Bool :=
  let buffer := (gm.gradientBuffer.lookup grad.batchID).getD [] ++ [grad]
  ({ gm with
      gradientBuffer := gm.gradientBuffer.insert grad.batchID buffer
      totalGradients := gm.totalGradients + 1 },
    decide (gm.bufferSize ≤ buffer.length))

variable [Zero F] [Add F] [Sub F] [Mul F] [Div F] [NatCast F]

/-- The loop that adds up the vectors of all workers. -/
def sumGradients (gradients : List (GradientLog F)) : Option (Map String (List F)) :=
  gradients.foldlM (fun sum grad => Map.merge (accumulateInto (· + ·)) sum grad.gradients) ∅

/-- The aggregate of an empty buffer is nil. -/
def aggregateGradients (gm : GradientManager F) (batchID : Int) :
    Option (GradientManager F × Option (AggregatedGradient F)) :=
  match (gm.gradientBuffer.lookup batchID).getD [] with
  | [] => some (gm, none)
  | grad :: grads => do
    let gradients := grad :: grads
    let sum ← sumGradients gradients
    return ({ gm with
        gradientBuffer := gm.gradientBuffer.erase batchID
        aggregatedBatches := gm.aggregatedBatches + 1 },
      some
        { epoch := grad.epoch
          batchID := batchID
          gradients := sum.mapValues fun vec => vec.map (· / (gradients.length : F))
          workerCount := gradients.length })

def applyGradientToModel (gm : GradientManager F) (aggGrad : AggregatedGradient F) :
    Option (GradientManager F) := do
  let params ← Map.merge (accumulateInto fun param grad => param - gm.learningRate * grad)
    gm.currentModel.params aggGrad.gradients
  return { gm with currentModel := ⟨aggGrad.epoch, params⟩ }

def handleGradientLog (gm : GradientManager F) (gradLog : GradientLog F) :
    Option (GradientManager F) :=
  match gm.addGradient gradLog with
  | (gm, true) => do
    match ← gm.aggregateGradients gradLog.batchID with
    | (gm, some aggGrad) => gm.applyGradientToModel aggGrad
    | (gm, none) => return gm
  | (gm, false) => some gm

/-- The logs handled one by one. -/
def handleAll (gm : GradientManager F) (logs : List (GradientLog F)) :
    Option (GradientManager F) :=
  logs.foldlM handleGradientLog gm

end GradientManager

end RaftImplementation
