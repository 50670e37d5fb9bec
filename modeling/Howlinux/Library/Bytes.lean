import Mathlib

-- Strings of the program are byte strings: nothing promises that they are valid UTF-8.
abbrev Bytes := List UInt8

instance instLinearOrderUInt8 : LinearOrder UInt8 where
  le_refl a            := UInt8.le_refl a
  le_trans _ _ _       := UInt8.le_trans
  le_antisymm _ _      := UInt8.le_antisymm
  le_total             := UInt8.le_total
  lt_iff_le_not_ge a b := by simp only [UInt8.lt_iff_toNat_lt, UInt8.le_iff_toNat_le]; omega
  toDecidableEq        := inferInstance
  toDecidableLE a b    := inferInstanceAs (Decidable (a ≤ b))
  toDecidableLT a b    := inferInstanceAs (Decidable (a < b))

instance instLawfulBEqUInt8 : LawfulBEq UInt8 :=
  inferInstance

instance instLawfulBEqBytes : LawfulBEq Bytes :=
  inferInstance

namespace Bytes

def byte (c : Char) : UInt8 :=
  UInt8.ofNat c.toNat

def ascii (s : String) : Bytes :=
  s.toList.map byte

-- The decimal digits `std::to_string` and `operator<<` print for an unsigned number.
def decimal (n : ℕ) : Bytes :=
  (Nat.toDigits 10 n).map byte

theorem digit_of_mem_decimal {n : ℕ} {b : UInt8} (h : b ∈ decimal n) : byte '0' ≤ b ∧ b ≤ byte '9' := by
  have ⟨c, hm, hc⟩ := List.mem_map.mp h
  have hd := Nat.isDigit_of_mem_toDigits (by decide) (by decide) hm
  simp only [Char.isDigit, Bool.and_eq_true, decide_eq_true_eq, UInt32.le_iff_toNat_le] at hd
  have hv : b.toNat = c.val.toNat := hc ▸ UInt8.toNat_ofNat_of_lt' (lt_of_le_of_lt hd.right (by decide))
  simp only [UInt8.le_iff_toNat_le, hv]
  exact hd

def startsWith (text start : Bytes) : Bool :=
  start.isPrefixOf text

-- The first position from `start` on at which `pattern` occurs.
def find (text pattern : Bytes) (start : ℕ := 0) : Option ℕ :=
  (List.range (text.length + 1)).find? fun position =>
    start ≤ position && pattern.isPrefixOf (text.drop position)

theorem isSome_find {text pattern : Bytes} : (text.find pattern).isSome ↔ pattern <:+: text := by
  simp only [find, List.find?_isSome, List.mem_range, Nat.zero_le, decide_true, Bool.true_and,
    List.isPrefixOf_iff_prefix]
  constructor
  case mp =>
    intro ⟨position, _, rest, hr⟩
    exact ⟨text.take position, rest, by rw [List.append_assoc, hr, List.take_append_drop]⟩
  case mpr =>
    intro ⟨before, rest, h⟩
    subst h
    exact ⟨before.length, by simp, rest, by simp⟩

-- The text around the first occurrence of `pattern`.
def cut (text pattern : Bytes) : Option (Bytes × Bytes) :=
  (find text pattern).map fun position =>
    (text.take position, text.drop (position + pattern.length))

theorem find_eq_some {text pattern : Bytes} {start position : ℕ}
    (h : find text pattern start = some position) : start ≤ position ∧ pattern <+: text.drop position := by
  simpa using List.find?_some h

theorem eq_append_of_cut {text pattern before rest : Bytes} (h : cut text pattern = some (before, rest)) :
    text = before ++ pattern ++ rest := by
  have ⟨position, hf, he⟩ := Option.map_eq_some_iff.mp h
  have ⟨rest', hr⟩ := (find_eq_some hf).right
  simp only [Prod.mk.injEq] at he
  have hd : text.drop (position + pattern.length) = rest' := by
    rw [← List.drop_drop, ← hr, List.drop_left]
  rw [← he.left, ← he.right, hd, List.append_assoc, hr, List.take_append_drop]

theorem not_prefix_of_find {text pattern : Bytes} {start position other : ℕ}
    (h : find text pattern start = some position) (hs : start ≤ other) (hl : other < position) :
    ¬pattern <+: text.drop other := by
  have hn := (List.find?_range_eq_some.mp h).right.right other hl
  simpa [hs, Bool.eq_false_iff] using hn

theorem not_prefix_of_find_eq_none {text pattern : Bytes} {start other : ℕ} (hp : pattern ≠ [])
    (h : find text pattern start = none) (hs : start ≤ other) : ¬pattern <+: text.drop other := by
  by_cases hl : other < text.length + 1
  case pos =>
    have hn := List.find?_eq_none.mp h other (List.mem_range.mpr hl)
    simpa [hs] using hn
  case neg =>
    rw [List.drop_eq_nil_of_le (by omega), List.prefix_nil]
    exact hp

-- The first occurrence is the one before which the first byte of the pattern does not occur.
theorem find_append_of_notMem {before pattern rest : Bytes} {b : UInt8} {start : ℕ}
    (hs : start ≤ before.length) (hb : b ∉ before.drop start) :
    find (before ++ (b :: pattern) ++ rest) (b :: pattern) start = some before.length := by
  rw [find, List.find?_range_eq_some]
  refine ⟨by simp [hs], by simp, fun i hi => ?_⟩
  simp only [Bool.not_eq_true', Bool.and_eq_false_imp, decide_eq_true_eq]
  intro hsi
  refine Bool.eq_false_iff.mpr fun hp => hb ?_
  have hd : (before ++ (b :: pattern) ++ rest).drop i =
      before[i] :: (before ++ (b :: pattern) ++ rest).drop (i + 1) := by
    rw [List.drop_eq_getElem_cons (by simp; omega)]
    simp [List.getElem_append_left, hi]
  rw [hd, List.isPrefixOf_iff_prefix, List.cons_prefix_cons] at hp
  rw [hp.left]
  exact List.mem_drop_iff_getElem.mpr ⟨i - start, by omega, by simp [Nat.add_sub_cancel' hsi]⟩

theorem cut_append_of_notMem {before pattern rest : Bytes} {b : UInt8} (hb : b ∉ before) :
    cut (before ++ (b :: pattern) ++ rest) (b :: pattern) = some (before, rest) := by
  rw [cut, find_append_of_notMem (Nat.zero_le _) hb]
  simp

theorem find_cons {text pattern : Bytes} {b : UInt8} (h : ¬pattern <+: b :: text) :
    find (b :: text) pattern = (find text pattern).map (· + 1) := by
  have hp : pattern.isPrefixOf (b :: text) = false := by
    rwa [Bool.eq_false_iff, ne_eq, List.isPrefixOf_iff_prefix]
  rw [find, List.length_cons, List.range_succ_eq_map, List.find?_cons, List.find?_map]
  simp [find, hp]

theorem cut_cons {text pattern : Bytes} {b : UInt8} (h : ¬pattern <+: b :: text) :
    cut (b :: text) pattern = (cut text pattern).map fun (before, rest) => (b :: before, rest) := by
  rw [cut, cut, find_cons h, Option.map_map, Option.map_map]
  congr 1
  funext position
  simp [Nat.add_right_comm]

theorem length_cut_lt {text pattern before after : Bytes} (hp : pattern ≠ [])
    (h : cut text pattern = some (before, after)) : after.length < text.length := by
  have ⟨position, hf, he⟩ := Option.map_eq_some_iff.mp h
  have hl := (find_eq_some hf).right.length_le
  have := List.length_pos_iff.mpr hp
  simp only [Prod.mk.injEq] at he
  rw [← he.right, List.length_drop]
  rw [List.length_drop] at hl
  omega

-- What `getline` reads line by line.
def lines : Bytes → List Bytes
  | [] => []
  | b :: text =>
    let line := (b :: text).takeWhile (· != byte '\n')
    line :: lines ((b :: text).drop (line.length + 1))
termination_by text => text.length
decreasing_by simp

theorem lines_cons {line text : Bytes} (h : byte '\n' ∉ line) :
    lines (line ++ byte '\n' :: text) = line :: lines text := by
  have hl : ∀ b ∈ line, (b != byte '\n') = true := fun b hb => bne_iff_ne.mpr (ne_of_mem_of_not_mem hb h)
  have ht : (line ++ byte '\n' :: text).takeWhile (· != byte '\n') = line := by
    simp [List.takeWhile_append_of_pos hl]
  cases hc : line ++ byte '\n' :: text
  case nil => simp at hc
  case cons b rest =>
    rw [lines, ← hc, ht]
    simp

theorem lines_of_notMem {text : Bytes} (h : byte '\n' ∉ text) (hn : text ≠ []) : lines text = [text] := by
  have ht : text.takeWhile (· != byte '\n') = text :=
    List.takeWhile_eq_self_iff.mpr fun b hb => bne_iff_ne.mpr (ne_of_mem_of_not_mem hb h)
  cases text
  case nil => contradiction
  case cons b text =>
    have hd : text.drop (text.length + 1) = [] := List.drop_eq_nil_of_le (by omega)
    rw [lines, ht, List.length_cons, List.drop_succ_cons, hd, lines]

-- What is empty or ends in a line feed.
def Terminated (text : Bytes) : Prop :=
  ∀ b ∈ text.getLast?, b = byte '\n'

-- It is read on its own, whatever follows.
theorem lines_append {text rest : Bytes} (h : Terminated text) :
    lines (text ++ rest) = lines text ++ lines rest := by
  induction hl : text.length using Nat.strong_induction_on generalizing text
  case h n hi =>
    by_cases hn : text = []
    case pos => simp [hn, lines]
    case neg =>
      have hm : byte '\n' ∈ text := by
        have hg := List.getLast_mem hn
        rwa [h _ (List.getLast?_eq_some_getLast hn)] at hg
      obtain ⟨line, tail, rfl, hd⟩ := List.eq_append_cons_of_mem hm
      have ht : Terminated tail := fun b hb => h b (by simp_all [List.getLast?_append, List.getLast?_cons])
      rw [List.append_assoc, List.cons_append, lines_cons hd, lines_cons hd,
        hi tail.length (by simp [← hl]; omega) ht rfl, List.cons_append]

theorem intercalate_concat {separator last : Bytes} {texts : List Bytes} (h : texts ≠ []) :
    separator.intercalate (texts ++ [last]) = separator.intercalate texts ++ separator ++ last := by
  induction texts
  case nil => contradiction
  case cons text texts hi =>
    cases texts
    case nil  => simp
    case cons =>
      have hi := hi (List.cons_ne_nil _ _)
      simp only [List.cons_append, List.intercalate_cons_cons, List.append_assoc] at hi ⊢
      rw [hi]

-- A line without the carriage return of its ending.
def chompReturn (line : Bytes) : Bytes :=
  if line.getLast? == some (byte '\r') then line.dropLast else line

end Bytes
