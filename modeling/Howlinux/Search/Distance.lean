import Howlinux.Library.Bytes

namespace Howlinux

section

variable (left right : Bytes) (previousPrevious previous : List ℕ)

-- One cell of the row that is being filled. `before` is the cell to its left.
def distanceCell (row before column : ℕ) : ℕ :=
  let substitutionCost := if left[row - 1]? = right[column - 1]? then 0 else 1
  let value := min (previous.getD column 0 + 1) <|
    min (before + 1) (previous.getD (column - 1) 0 + substitutionCost)
  if row > 1 ∧ column > 1 ∧ left[row - 1]? = right[column - 2]? ∧ left[row - 2]? = right[column - 1]? then
    min value (previousPrevious.getD (column - 2) 0 + 1)
  else
    value

def distanceRow (row : ℕ) : List ℕ :=
  (List.range' 1 right.length).scanl (distanceCell left right previousPrevious previous row) row

end

-- The rows that are left to be filled, below the last two.
def distanceRows (left right : Bytes) (maximumDistance : ℕ) (previousPrevious previous : List ℕ) :
    List ℕ → ℕ
  | [] => previous.getD right.length 0
  | row :: rest =>
    let current := distanceRow left right previousPrevious previous row
    if current.foldl min row > maximumDistance then
      maximumDistance + 1
    else
      distanceRows left right maximumDistance previous current rest

def damerauLevenshteinDistance (left right : Bytes) (maximumDistance : ℕ) : ℕ :=
  let lengthDifference := max left.length right.length - min left.length right.length
  if left = right then
    0
  else if lengthDifference > maximumDistance then
    maximumDistance + 1
  else
    let first := List.range (right.length + 1)
    distanceRows left right maximumDistance first first (List.range' 1 left.length)

end Howlinux
