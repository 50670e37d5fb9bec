import Howlinux.Library.Alignment
import Howlinux.Search.DistanceBuffers

open List Aligns

namespace Howlinux

-- The byte before a position is the last one of the start that ends there.
theorem getElem?_of_take_eq {α : Type*} {l l' : List α} {n : ℕ} {x : α} (hn : n < l.length)
    (h : l.take (n + 1) = l' ++ [x]) : l[n]? = some x := by
  rw [take_succ_eq_append_getElem hn] at h
  rw [getElem?_eq_getElem hn, List.singleton_inj.mp (append_inj' h rfl).right]

section

variable {left right : Bytes} {previousPrevious previous : List ℕ} {row column before k n : ℕ}

-- The cells of a row are the distances from the first `row` bytes to the starts of the right string.
structure IsRow (left right : Bytes) (row : ℕ) (values : List ℕ) : Prop where
  length   : values.length = right.length + 1
  distance : ∀ column ≤ right.length, IsDistance (left.take row) (right.take column) (values.getD column 0)

theorem isRow_zero : IsRow left right 0 (range (right.length + 1)) where
  length            := length_range
  distance column h := by
    have hd := isDistance_nil_left (right.take column)
    rw [length_take_of_le h] at hd
    simpa [getD_eq_getElem?_getD, Nat.lt_succ_of_le h] using hd

-- One cell, from the cells it reads.
theorem isDistance_distanceCell (hp : IsRow left right row previous)
    (hpp : 0 < row → IsRow left right (row - 1) previousPrevious)
    (hr : row < left.length) (hc : column < right.length)
    (hb : IsDistance (left.take (row + 1)) (right.take column) before) :
    IsDistance (left.take (row + 1)) (right.take (column + 1))
      (distanceCell left right previousPrevious previous (row + 1) before (column + 1)) := by
  have hl : left.take (row + 1) = left.take row ++ [left[row]] := by simp
  have hr' : right.take (column + 1) = right.take column ++ [right[column]] := by simp
  have hx := hp.distance (column + 1) hc
  have hz := hp.distance column hc.le
  rw [hl] at hb ⊢
  rw [hr'] at hx ⊢
  simp only [distanceCell, Nat.add_sub_cancel, getElem?_eq_getElem hr, getElem?_eq_getElem hc,
    Option.some.injEq, Nat.reduceSubDiff]
  split
  case isTrue h =>
    have ⟨h₁, h₂, h₃, h₄⟩ := h
    obtain ⟨r, rfl⟩ : ∃ r, row = r + 1 := ⟨row - 1, by omega⟩
    obtain ⟨c, rfl⟩ : ∃ c, column = c + 1 := ⟨column - 1, by omega⟩
    have ha : left.take (r + 1) = left.take r ++ [right[c + 1]] := by
      have : left[r]? = some right[c + 1] := by simpa using h₄
      rw [take_add_one, this, Option.toList_some]
    have hb' : right.take (c + 1) = right.take c ++ [left[r + 1]] := by
      have : right[c]? = some left[r + 1] := by simpa using h₃.symm
      rw [take_add_one, this, Option.toList_some]
    have hw := (hpp r.succ_pos).distance c (by omega)
    rw [ha] at hx hb hz ⊢
    rw [hb'] at hx hb hz ⊢
    exact isDistance_transpose hx hb hz hw
  case isFalse h =>
    refine isDistance_concat hx hb hz fun a b ha hb => h ?_
    obtain ⟨r, rfl⟩ : ∃ r, row = r + 1 := ⟨row - 1, by cases row <;> simp at ha ⊢⟩
    obtain ⟨c, rfl⟩ : ∃ c, column = c + 1 := ⟨column - 1, by cases column <;> simp at hb ⊢⟩
    refine ⟨by omega, by omega, ?_, ?_⟩
    · exact (getElem?_of_take_eq (by omega) hb).symm
    · exact getElem?_of_take_eq (by omega) ha

theorem getD_distanceRow_succ (h : column < right.length) :
    (distanceRow left right previousPrevious previous row).getD (column + 1) 0 =
      distanceCell left right previousPrevious previous row
        ((distanceRow left right previousPrevious previous row).getD column 0) (column + 1) := by
  have hc : column < (distanceRow left right previousPrevious previous row).length := by
    simp [distanceRow]; omega
  have hr : (range' 1 right.length)[column]? = some (column + 1) := by
    rw [getElem?_range' h, Nat.one_mul, Nat.add_comm]
  rw [getD_eq_getElem?_getD, getD_eq_getElem _ _ hc]
  simp only [distanceRow] at hc ⊢
  rw [getElem?_succ_scanl, getElem?_eq_getElem hc, hr]
  rfl

theorem length_distanceRow :
    (distanceRow left right previousPrevious previous row).length = right.length + 1 := by
  simp [distanceRow]

theorem isRow_distanceRow (hp : IsRow left right row previous)
    (hpp : 0 < row → IsRow left right (row - 1) previousPrevious) (hr : row < left.length) :
    IsRow left right (row + 1) (distanceRow left right previousPrevious previous (row + 1)) where
  length            := length_distanceRow
  distance column h := by
    induction column
    case zero =>
      have hd := isDistance_nil_right (left.take (row + 1))
      rw [length_take_of_le hr] at hd
      simpa [distanceRow, getD_eq_getElem?_getD] using hd
    case succ column hi =>
      rw [getD_distanceRow_succ h]
      exact isDistance_distanceCell hp hpp hr h (hi <| Nat.le_of_succ_le h)

-- Once every cell of a row is above the bound, so is the distance of the whole strings.
theorem lt_of_isRow (hp : IsRow left right row previous) (hm : ∀ value ∈ previous, k < value)
    (h : Aligns left right n) : k < n := by
  have ⟨column, hc, m, hmn, ha⟩ := h.exists_take row
  have hv : previous.getD column 0 ∈ previous := by
    rw [getD_eq_getElem _ _ (by rw [hp.length]; omega)]
    exact getElem_mem _
  calc k < previous.getD column 0 := hm _ hv
       _ ≤ m                      := (hp.distance column hc).right ha
       _ ≤ n                      := hmn

theorem lt_foldl_min {values : List ℕ} {first : ℕ} :
    k < values.foldl min first ↔ k < first ∧ ∀ value ∈ values, k < value := by
  induction values generalizing first
  case nil => simp
  case cons value values hi => simp [hi, and_assoc]

-- The rest of the table, from any row on. The rows above the first one are only read by a transposition.
theorem distanceRows_exact {count : ℕ} (hp : IsRow left right row previous)
    (hpp : 0 < row → IsRow left right (row - 1) previousPrevious) (hr : row + count = left.length)
    (h : IsDistance left right n) :
    (n ≤ k → distanceRows left right k previousPrevious previous (range' (row + 1) count) = n) ∧
      (k < n → k < distanceRows left right k previousPrevious previous (range' (row + 1) count)) := by
  induction count generalizing row previousPrevious previous
  case zero =>
    have hd := hp.distance right.length le_rfl
    rw [take_of_length_le (by omega), take_length] at hd
    have := hd.unique h
    simp only [range'_zero, distanceRows]
    omega
  case succ count hi =>
    have hc := isRow_distanceRow hp hpp (by omega)
    rw [range'_succ, distanceRows]
    split
    case isTrue hm =>
      have := lt_of_isRow hc (lt_foldl_min.mp hm).right h.left
      omega
    case isFalse => exact hi hc (fun _ => hp) (by omega)

theorem damerauLevenshteinDistance_exact (h : IsDistance left right n) :
    (n ≤ k → damerauLevenshteinDistance left right k = n) ∧
      (k < n → k < damerauLevenshteinDistance left right k) := by
  have hl := h.left.length_left_le
  have hr := h.left.length_right_le
  simp only [damerauLevenshteinDistance]
  split
  case isTrue he =>
    subst he
    have := h.unique (isDistance_self left)
    omega
  case isFalse =>
    split
    case isTrue  => omega
    case isFalse => exact distanceRows_exact isRow_zero (absurd · (lt_irrefl 0)) (by omega) h

end

namespace DistanceBuffers

variable {left right : Bytes} {buffers : DistanceBuffers} {row size k : ℕ}

theorem length_resize (values : List ℕ) (size : ℕ) : (resize values size).length = size := by
  simp [resize]; omega

theorem set_range_append {values : List ℕ} (h : size < values.length) :
    (range size ++ values.drop size).set size size = range (size + 1) ++ values.drop (size + 1) := by
  rw [set_append_right _ _ (by simp), drop_eq_getElem_cons h, length_range, Nat.sub_self, set_cons_zero,
    range_succ, append_assoc, singleton_append]

-- The numbers overwrite what the buffers held.
theorem number_eq (hp : size ≤ buffers.previous.length) (hpp : size ≤ buffers.previousPrevious.length) :
    buffers.number size = { buffers with
      previous         := range size ++ buffers.previous.drop size
      previousPrevious := range size ++ buffers.previousPrevious.drop size } := by
  induction size
  case zero => rfl
  case succ size hi =>
    have hn : buffers.number (size + 1) = { buffers.number size with
        previous         := (buffers.number size).previous.set size size
        previousPrevious := (buffers.number size).previousPrevious.set size size } := by
      simp only [number, range_succ, foldl_append, foldl_cons, foldl_nil]
    rw [hn, hi (by omega) (by omega)]
    simp only [set_range_append hp, set_range_append hpp]

theorem number_resizeAll : (buffers.resizeAll size).number size =
    { previousPrevious := range size, previous := range size, current := resize buffers.current size } := by
  rw [number_eq (length_resize _ _).ge (length_resize _ _).ge]
  simp [resizeAll, length_resize]

-- One turn of the inner loop writes the cell of `distanceCell` over the stale one.
theorem fillCell_eq {filled rest : List ℕ} {before stale minimum column : ℕ}
    (hc : buffers.current = filled ++ before :: stale :: rest) (hl : filled.length = column) :
    fillCell left right row (buffers, minimum) (column + 1) =
      let value := distanceCell left right buffers.previousPrevious buffers.previous row before (column + 1)
      ({ buffers with current := filled ++ before :: value :: rest }, min minimum value) := by
  have hs (stale value : ℕ) :
      (filled ++ before :: stale :: rest).set (column + 1) value = filled ++ before :: value :: rest := by
    rw [set_append_right _ _ (by omega), ← hl]
    simp
  have hg (value : ℕ) : (filled ++ before :: value :: rest).getD (column + 1) 0 = value := by
    rw [getD_append_right _ _ _ _ (by omega), ← hl]
    simp
  have hb : (filled ++ before :: stale :: rest).getD column 0 = before := by
    rw [getD_append_right _ _ _ _ (by omega), ← hl]
    simp
  simp only [fillCell, distanceCell, Nat.add_sub_cancel, hc, hb, hs]
  split
  case isTrue  => simp only [hg]
  case isFalse => simp only [hg]

theorem foldl_min_scanl {α : Type*} {f : ℕ → α → ℕ} {l : List α} {value minimum : ℕ} :
    (l.scanl f value).foldl min (min minimum value) = (l.scanl f value).foldl min minimum := by
  cases l <;> simp

-- The inner loop, from any column on.
theorem foldl_fillCell (filled : List ℕ) {rest : List ℕ} {before minimum column : ℕ}
    (hc : buffers.current = filled ++ before :: rest) (hl : filled.length = column) (hm : minimum ≤ before) :
    (range' (column + 1) rest.length).foldl (fillCell left right row) (buffers, minimum) =
      let values := (range' (column + 1) rest.length).scanl
        (distanceCell left right buffers.previousPrevious buffers.previous row) before
      ({ buffers with current := filled ++ values }, values.foldl min minimum) := by
  induction rest generalizing buffers filled before minimum column
  case nil => simp [← hc, hm]
  case cons stale rest hi =>
    simp only [length_cons, range'_succ, foldl_cons, scanl_cons, fillCell_eq hc hl]
    rw [hi _ (by rw [append_cons]) (by simp [hl]) (min_le_right _ _)]
    simp [foldl_min_scanl, hm]

theorem fillRow_eq (h : buffers.current.length = right.length + 1) :
    buffers.fillRow left right row =
      let current := distanceRow left right buffers.previousPrevious buffers.previous row
      ({ buffers with current := current }, current.foldl min row) := by
  have ⟨stale, rest, hc⟩ := exists_cons_of_length_eq_add_one h
  have hr : rest.length = right.length := by simpa [hc] using h
  simp only [fillRow, distanceRow, ← hr, hc, set_cons_zero]
  exact foldl_fillCell [] rfl rfl le_rfl

theorem fillRows_eq {rows : List ℕ} (hp : buffers.previous.length = right.length + 1)
    (hpp : buffers.previousPrevious.length = right.length + 1)
    (hc : buffers.current.length = right.length + 1) :
    (buffers.fillRows left right k rows).2 =
      distanceRows left right k buffers.previousPrevious buffers.previous rows := by
  induction rows generalizing buffers
  case nil => rfl
  case cons row rows hi =>
    simp only [fillRows, distanceRows, fillRow_eq hc]
    split
    case isTrue  => rfl
    case isFalse => exact hi length_distanceRow hp hpp

-- Whatever earlier calls left in the buffers, the function computes the same number.
theorem damerauLevenshteinDistance_eq :
    (buffers.damerauLevenshteinDistance left right k).2 =
      Howlinux.damerauLevenshteinDistance left right k := by
  have hd : (if left.length > right.length then left.length - right.length else right.length - left.length) =
      max left.length right.length - min left.length right.length := by
    split <;> omega
  simp only [damerauLevenshteinDistance, Howlinux.damerauLevenshteinDistance, hd, number_resizeAll]
  split
  case isTrue => rfl
  case isFalse =>
    split
    case isTrue  => rfl
    case isFalse => exact fillRows_eq length_range length_range (length_resize _ _)

end DistanceBuffers

open DistanceBuffers in
theorem exact_within_bound (buffers : DistanceBuffers) (left right : Bytes) (k : ℕ) :
    ∃ distance, IsDistance left right distance ∧
      (distance ≤ k → (buffers.damerauLevenshteinDistance left right k).2 = distance) ∧
      (k < distance → k < (buffers.damerauLevenshteinDistance left right k).2) := by
  have ⟨distance, h⟩ := exists_isDistance left right
  rw [damerauLevenshteinDistance_eq]
  exact ⟨distance, h, damerauLevenshteinDistance_exact h⟩

-- The swapped bytes are not edited again, so this is more than the two edits of the unrestricted distance.
example : damerauLevenshteinDistance (Bytes.ascii "ca") (Bytes.ascii "abc") 3 = 3 := by decide

end Howlinux
