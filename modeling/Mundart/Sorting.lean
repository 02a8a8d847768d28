/-!
# A stable sort that asks its order in a fixed sequence

Blocks of twenty are sorted by insertion and then merged in place, pairwise, by symmetric merging.
The questions are asked through a monad, because which pair is asked about first can be seen from
outside when the order does not know an answer.
-/

namespace Mundart.Sorting

variable {α : Type} {m : Type → Type} [Monad m]

/-- Inserts an element into a block given from its end: it moves towards the start while it is less
than its neighbour. -/
def insertBack (less : α → α → m Bool) (x : α) : List α → m (List α)
  | [] => pure [x]
  | y :: ys => do
    if ← less x y then
      return y :: (← insertBack less x ys)
    else
      return x :: y :: ys

/-- Sorts a block by inserting its elements one after the other. -/
def insertionSort (less : α → α → m Bool) (block : List α) : m (List α) := do
  let sorted ← block.foldlM (fun sorted x => insertBack less x sorted) []
  return sorted.reverse

/-- The least index between two bounds at which a test holds, for a test that holds from some index
on. -/
def search (test : Nat → m Bool) : Nat → Nat → Nat → m Nat
  | 0, low, _ => pure low
  | fuel + 1, low, high =>
    if low < high then do
      let middle := (low + high) / 2
      if ← test middle then search test fuel low middle
      else search test fuel (middle + 1) high
    else pure low

/-- Asks about two elements of a list by their indexes. -/
def lessAt (less : α → α → m Bool) (xs : List α) (i j : Nat) : m Bool :=
  match xs[i]?, xs[j]? with
  | some x, some y => less x y
  | _, _ => pure false

/-- Merges two sorted runs. One element is put in its place by a search; otherwise the two runs are
cut so that the middle of the result lies between the cuts, and both halves are merged. -/
def symMerge (less : α → α → m Bool) : Nat → List α → List α → m (List α)
  | 0, left, right => pure (left ++ right)
  | fuel + 1, left, right =>
    let data := left ++ right
    let m := left.length
    let size := data.length
    if left.isEmpty || right.isEmpty then pure data
    else if m = 1 then do
      let i ← search (fun h => do return !(← lessAt less data h 0)) size 1 size
      return (data.take i).drop 1 ++ data.take 1 ++ data.drop i
    else if size - m = 1 then do
      let i ← search (fun h => lessAt less data m h) size 0 m
      return data.take i ++ data.drop m ++ (data.take m).drop i
    else do
      let middle := size / 2
      let n := middle + m
      let low := if middle < m then n - size else 0
      let high := if middle < m then middle else m
      let start ← search (fun c => lessAt less data (n - 1 - c) c) size low high
      let stop := n - start
      let data := data.take start ++ (data.take stop).drop m ++ (data.take m).drop start
        ++ data.drop stop
      let first ← symMerge less fuel (data.take start) ((data.take middle).drop start)
      let second ← symMerge less fuel ((data.take stop).drop middle) (data.drop stop)
      return first ++ second

/-- Consecutive blocks of a size; the last one may be shorter. -/
def blocks (size : Nat) : Nat → List α → List (List α)
  | 0, _ => []
  | fuel + 1, xs => if xs.isEmpty then [] else xs.take size :: blocks size fuel (xs.drop size)

/-- Merges neighbouring blocks once. -/
def mergePairs (less : α → α → m Bool) : List (List α) → m (List (List α))
  | a :: b :: rest => do
    let merged ← symMerge less (a.length + b.length) a b
    return merged :: (← mergePairs less rest)
  | rest => pure rest

/-- Merges neighbouring blocks until one is left. -/
def mergeAll (less : α → α → m Bool) : Nat → List (List α) → m (List α)
  | 0, bs => pure bs.flatten
  | fuel + 1, bs =>
    match bs with
    | [] => pure []
    | [b] => pure b
    | bs => do mergeAll less fuel (← mergePairs less bs)

/-- The stable sort. -/
def stableSort (less : α → α → m Bool) (xs : List α) : m (List α) := do
  let bs ← (blocks 20 xs.length xs).mapM (insertionSort less)
  mergeAll less xs.length bs

end Mundart.Sorting
