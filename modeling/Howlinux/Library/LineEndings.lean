import Howlinux.Library.Bytes

namespace Bytes

-- The lines of a text without the carriage returns of their endings.
def chompedLines (text : Bytes) : List Bytes :=
  (lines text).map chompReturn

-- Two texts with the same lines, each of which may end in a line feed or in a carriage return and a line feed.
structure SameLines (text text' : Bytes) : Prop where
  lines      : chompedLines text = chompedLines text'
  terminated : Terminated text ↔ Terminated text'

def firstLine (text : Bytes) : Bytes :=
  text.takeWhile (· != byte '\n')

def afterLine (text : Bytes) : Bytes :=
  text.drop ((firstLine text).length + 1)

section

variable {text text' line tail : Bytes}

theorem lines_eq_nil_iff : lines text = [] ↔ text = [] := by
  cases text <;> simp [lines]

-- A text that is not empty starts with a line.
theorem lines_eq_cons (h : text ≠ []) : lines text = firstLine text :: lines (afterLine text) := by
  cases text
  case nil  => contradiction
  case cons => rw [lines, afterLine, firstLine]

theorem firstLine_append (h : byte '\n' ∉ line) : firstLine (line ++ byte '\n' :: tail) = line := by
  have hl : ∀ b ∈ line, (b != byte '\n') = true := fun b hb => bne_iff_ne.mpr (ne_of_mem_of_not_mem hb h)
  simp [firstLine, List.takeWhile_append_of_pos hl]

theorem afterLine_append (h : byte '\n' ∉ line) : afterLine (line ++ byte '\n' :: tail) = tail := by
  simp [afterLine, firstLine_append h]

theorem chompReturn_eq_nil_iff : chompReturn line = [] ↔ line = [] ∨ line = [byte '\r'] := by
  cases line using List.reverseRecOn
  case nil => simp [chompReturn]
  case append_singleton front last =>
    unfold chompReturn
    simp only [List.getLast?_append, List.getLast?_singleton, Option.some_or, List.dropLast_concat]
    split
    case isTrue h => simp_all
    case isFalse h =>
      refine iff_of_false (by simp) ?_
      rintro (hn | hn)
      · simp at hn
      · simp_all [List.append_eq_cons_iff]

-- What follows a line ends as the whole text does, unless nothing follows it.
theorem terminated_append_iff (front : Bytes) (h : tail ≠ []) : Terminated (front ++ tail) ↔ Terminated tail := by
  rw [Terminated, Terminated, List.getLast?_append_of_ne_nil _ h]

theorem mem_newline_iff : byte '\n' ∈ text ↔ 2 ≤ (lines text).length ∨ text ≠ [] ∧ Terminated text := by
  by_cases hm : byte '\n' ∈ text
  case pos =>
    refine iff_of_true hm ?_
    obtain ⟨line, tail, rfl, hd⟩ := List.eq_append_cons_of_mem hm
    by_cases ht : tail = []
    case pos => exact .inr ⟨by simp, by simp [ht, Terminated]⟩
    case neg =>
      have := List.length_pos_iff.mpr <| mt lines_eq_nil_iff.mp ht
      rw [lines_cons hd, List.length_cons]
      exact .inl (by omega)
  case neg =>
    refine iff_of_false hm ?_
    by_cases hn : text = []
    case pos => simp [hn, lines]
    case neg =>
      have hl := List.getLast_mem hn
      simp only [lines_of_notMem hm hn, List.length_singleton, Nat.not_ofNat_le_one, false_or, not_and]
      exact fun _ ht => hm <| ht _ (List.getLast?_eq_some_getLast hn) ▸ hl

namespace SameLines

theorem eq_nil_iff (h : SameLines text text') : text = [] ↔ text' = [] := by
  have hl := congrArg List.length h.lines
  simp only [chompedLines, List.length_map] at hl
  rw [← lines_eq_nil_iff, ← lines_eq_nil_iff, ← List.length_eq_zero_iff, hl, List.length_eq_zero_iff]

theorem mem_newline (h : SameLines text text') : byte '\n' ∈ text ↔ byte '\n' ∈ text' := by
  have hl := congrArg List.length h.lines
  simp only [chompedLines, List.length_map] at hl
  rw [mem_newline_iff, mem_newline_iff, hl, h.terminated, ne_eq, h.eq_nil_iff]

-- The first lines are the same, and so are the lines after them.
theorem cons (h : SameLines text text') : chompReturn (firstLine text) = chompReturn (firstLine text') ∧
    SameLines (afterLine text) (afterLine text') := by
  by_cases hn : text = []
  case pos =>
    have hn' := h.eq_nil_iff.mp hn
    exact hn ▸ hn' ▸ ⟨rfl, rfl, .rfl⟩
  case neg =>
    have hn' := mt h.eq_nil_iff.mpr hn
    have hl := h.lines
    rw [chompedLines, chompedLines, lines_eq_cons hn, lines_eq_cons hn', List.map_cons, List.map_cons,
      List.cons.injEq] at hl
    refine ⟨hl.left, hl.right, ?_⟩
    have ht : afterLine text = [] ↔ afterLine text' = [] := by
      rw [← lines_eq_nil_iff, ← lines_eq_nil_iff, ← List.map_eq_nil_iff, hl.right, List.map_eq_nil_iff]
    by_cases ha : afterLine text = []
    case pos => rw [ha, ht.mp ha]
    case neg =>
      have hf  := terminated_append_iff (text.take ((firstLine text).length + 1)) ha
      have hf' := terminated_append_iff (text'.take ((firstLine text').length + 1)) <| mt ht.mpr ha
      rw [← hf, ← hf', afterLine, afterLine, List.take_append_drop, List.take_append_drop]
      exact h.terminated

end SameLines

end

end Bytes
