import Howlinux.Search.Distance

open List

namespace Howlinux

-- The three rows `damerauLevenshteinDistance` keeps between its calls, with whatever a call left in them.
structure DistanceBuffers where
  previousPrevious : List ℕ
  previous         : List ℕ
  current          : List ℕ

-- `std::vector::resize`.
def resize (values : List ℕ) (size : ℕ) : List ℕ :=
  values.take size ++ replicate (size - values.length) 0

namespace DistanceBuffers

def resizeAll (buffers : DistanceBuffers) (size : ℕ) : DistanceBuffers where
  previousPrevious := resize buffers.previousPrevious size
  previous         := resize buffers.previous size
  current          := resize buffers.current size

-- The first loop: both rows above the first one hold the numbers of their columns.
def number (buffers : DistanceBuffers) (size : ℕ) : DistanceBuffers :=
  (range size).foldl (fun buffers column =>
    { buffers with
      previous         := buffers.previous.set column column
      previousPrevious := buffers.previousPrevious.set column column }) buffers

-- One turn of the inner loop, with the minimum of the row so far.
def fillCell (left right : Bytes) (row : ℕ) (state : DistanceBuffers × ℕ) (column : ℕ) :
    DistanceBuffers × ℕ :=
  let (buffers, rowMinimum) := state
  let substitutionCost := if left[row - 1]? = right[column - 1]? then 0 else 1
  let current := buffers.current.set column <|
    min (buffers.previous.getD column 0 + 1) <|
      min (buffers.current.getD (column - 1) 0 + 1) (buffers.previous.getD (column - 1) 0 + substitutionCost)
  let current :=
    if row > 1 ∧ column > 1 ∧ left[row - 1]? = right[column - 2]? ∧ left[row - 2]? = right[column - 1]? then
      current.set column <|
        min (current.getD column 0) (buffers.previousPrevious.getD (column - 2) 0 + 1)
    else
      current
  ({ buffers with current := current }, min rowMinimum (current.getD column 0))

def fillRow (left right : Bytes) (row : ℕ) (buffers : DistanceBuffers) : DistanceBuffers × ℕ :=
  (range' 1 right.length).foldl (fillCell left right row)
    ({ buffers with current := buffers.current.set 0 row }, row)

-- The two swaps at the end of a row. The oldest row is the next one to be overwritten.
def rotate (buffers : DistanceBuffers) : DistanceBuffers where
  previousPrevious := buffers.previous
  previous         := buffers.current
  current          := buffers.previousPrevious

def fillRows (left right : Bytes) (maximumDistance : ℕ) (buffers : DistanceBuffers) :
    List ℕ → DistanceBuffers × ℕ
  | [] => (buffers, buffers.previous.getD right.length 0)
  | row :: rest =>
    let (buffers, rowMinimum) := buffers.fillRow left right row
    if rowMinimum > maximumDistance then
      (buffers, maximumDistance + 1)
    else
      fillRows left right maximumDistance buffers.rotate rest

def damerauLevenshteinDistance (buffers : DistanceBuffers) (left right : Bytes) (maximumDistance : ℕ) :
    DistanceBuffers × ℕ :=
  let lengthDifference :=
    if left.length > right.length then left.length - right.length else right.length - left.length
  if left = right then
    (buffers, 0)
  else if lengthDifference > maximumDistance then
    (buffers, maximumDistance + 1)
  else
    let size := right.length + 1
    fillRows left right maximumDistance ((buffers.resizeAll size).number size) (range' 1 left.length)

end DistanceBuffers

end Howlinux
