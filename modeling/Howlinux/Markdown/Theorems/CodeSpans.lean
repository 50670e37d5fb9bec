import Howlinux.Library.Lists
import Howlinux.Markdown.Render

open Bytes List

namespace Howlinux

-- Backticks with no other backtick on either side.
structure IsRun (text : Bytes) (start count : ℕ) : Prop where
  pos       : 0 < count
  backticks : replicate count (byte '`') <+: text.drop start
  before    : start = 0 ∨ text[start - 1]? ≠ some (byte '`')
  after     : text[start + count]? ≠ some (byte '`')

-- The first run of a length from a position on, if there is one.
def IsFirstRun (text : Bytes) (start count : ℕ) : Option ℕ → Prop
  | none      => ∀ other ≥ start, ¬IsRun text other count
  | some stop => start ≤ stop ∧ IsRun text stop count ∧ ∀ other ≥ start, other < stop → ¬IsRun text other count

-- A byte as a code span shows it: line feeds as spaces, and other controls but tabs escaped.
def codeByte (ch : UInt8) : Bytes :=
  if ch = byte '\n' then
    [byte ' ']
  else if (ch < 32 ∧ ch ≠ byte '\t') ∨ ch = 127 then
    ascii "\\x" ++ [hexDigit (ch >>> 4).toUInt32, hexDigit ch.toUInt32]
  else
    [ch]

section

variable {text : Bytes} {start stop count pos : ℕ} {color : Bool}

theorem isRun_iff_not_touches (hc : 0 < count) (hp : replicate count (byte '`') <+: text.drop start) :
    IsRun text start count ↔ ¬touchesBacktick text start (start + count) := by
  rw [touchesBacktick]
  constructor
  case mp =>
    intro h
    have ha := h.after
    rcases h.before with hs | hs
    · subst hs
      simpa using ha
    · simp [hs, ha]
  case mpr =>
    intro h
    simp only [Bool.or_eq_true, Bool.and_eq_true, decide_eq_true_eq, beq_iff_eq, not_or, not_and] at h
    exact ⟨hc, hp, (Nat.eq_zero_or_pos start).imp_right h.left, h.right⟩

theorem getElem?_of_run {b : UInt8} {i : ℕ} (hp : replicate count b <+: text.drop start) (hs : start ≤ i)
    (hi : i < start + count) : text[i]? = some b := by
  have ⟨rest, hr⟩ := hp
  obtain ⟨k, rfl⟩ := Nat.exists_eq_add_of_le hs
  have hk : k < count := by omega
  rw [← getElem?_drop, ← hr, getElem?_append_left (by simpa using hk), getElem?_replicate, if_pos hk]

-- No run starts behind a backtick.
theorem not_isRun_of_lt {other : ℕ} (hp : replicate count (byte '`') <+: text.drop start) (hs : start < other)
    (ho : other < start + count) : ¬IsRun text other count := by
  intro h
  rcases h.before with h | h
  · omega
  · exact h <| getElem?_of_run hp (by omega) (by omega)

theorem isFirstRun_closingBackticks : IsFirstRun text start (count + 1) (closingBackticks text count start) := by
  fun_induction closingBackticks text count start
  case case1 start hf =>
    intro other ho h
    exact not_prefix_of_find_eq_none (by simp) hf ho h.backticks
  case case2 start stop hf ht hi =>
    obtain ⟨hl, hp⟩ := find_eq_some hf
    -- The search goes on behind backticks that belong to a longer run.
    have hn : ∀ other ≥ start, other < stop + (count + 1) → ¬IsRun text other (count + 1) := by
      intro other ho hs h
      rcases lt_trichotomy other stop with hlt | rfl | hgt
      · exact not_prefix_of_find hf ho hlt h.backticks
      · exact (isRun_iff_not_touches (Nat.succ_pos _) hp).mp h ht
      · exact not_isRun_of_lt hp hgt hs h
    cases hc : closingBackticks text count (stop + (count + 1))
    case none =>
      rw [hc] at hi
      exact fun other ho => (lt_or_ge other _).elim (hn other ho) (hi other)
    case some last =>
      rw [hc] at hi
      obtain ⟨hl', hr, hf'⟩ := hi
      refine ⟨by omega, hr, fun other ho hs => ?_⟩
      exact (lt_or_ge other _).elim (hn other ho) (hf' other · hs)
  case case3 start stop hf ht =>
    obtain ⟨hl, hp⟩ := find_eq_some hf
    refine ⟨hl, (isRun_iff_not_touches (Nat.succ_pos _) hp).mpr ht, fun other ho hs h => ?_⟩
    exact not_prefix_of_find hf ho hs h.backticks

theorem takeWhile_of_isRun (h : IsRun text start count) :
    (text.drop start).takeWhile (· == byte '`') = replicate count (byte '`') := by
  have ⟨rest, hr⟩ := h.backticks
  rw [← hr]
  refine takeWhile_append_of_stop (by simp) fun b hb => ?_
  have hd : text[start + count]? = rest.head? := by
    rw [← getElem?_drop, ← hr, getElem?_append_right (by simp), length_replicate, Nat.sub_self, head?_eq_getElem?]
  have ha := h.after
  rw [hd, hb] at ha
  simpa using ha

theorem literal_codeByte (code : Bytes) :
    literal (code.map fun ch => if ch == byte '\n' then byte ' ' else ch) = code.flatMap codeByte := by
  have hb : ∀ ch, literalByte (if ch == byte '\n' then byte ' ' else ch) = codeByte ch := by decide +kernel
  rw [literal, flatMap_map]
  exact flatMap_congr fun ch _ => hb ch

theorem literal_backticks : literal (replicate count (byte '`')) = replicate count (byte '`') := by
  have hb : literalByte (byte '`') = [byte '`'] := rfl
  induction count
  case zero => rfl
  case succ count hi =>
    rw [literal] at hi ⊢
    rw [replicate_succ, flatMap_cons, hb, hi]
    rfl

theorem codeSpan_of_isRun (h : IsRun text pos count) : ∃ found, IsFirstRun text (pos + count) count found ∧
    codeSpan text color pos = some (match found with
      | none      => (replicate count (byte '`'), pos + count)
      | some stop => ((if color then style "36" else []) ++ ((text.take stop).drop (pos + count)).flatMap codeByte ++
        (if color then style "0" else []), stop + count)) := by
  obtain ⟨count, rfl⟩ := Nat.exists_eq_add_one_of_ne_zero h.pos.ne'
  refine ⟨_, isFirstRun_closingBackticks, ?_⟩
  have ht := takeWhile_of_isRun h
  rw [replicate_succ] at ht
  simp only [codeSpan, ht, length_replicate]
  cases closingBackticks text count (pos + (count + 1))
  case none => rw [← replicate_succ, literal_backticks]
  case some stop => simp only [styled, literal_codeByte]

theorem inlineFrom_of_isRun (h : IsRun text pos count) {output : Bytes} {next : ℕ}
    (hc : codeSpan text color pos = some (output, next)) :
    inlineFrom text color pos = output ++ inlineFrom text color next := by
  have hb : text[pos]? = some (byte '`') := getElem?_of_run h.backticks le_rfl (Nat.lt_add_of_pos_right h.pos)
  have ⟨hl, he⟩ := List.getElem?_eq_some_iff.mp hb
  have hs : escapedSpan text pos = none := by
    rw [escapedSpan, drop_eq_getElem_cons hl, he]
    split
    case h_1 he =>
      obtain ⟨rfl, _⟩ := cons.inj he
      exact if_neg fun h => absurd h.left (by decide)
    case h_2 => rfl
  rw [inlineFrom, if_pos hl, inlineSpan, hs, hc]
  rfl

end

-- Code ends at the next run of as many backticks as it starts with.
theorem code_span_closes (text : Bytes) (color : Bool) (pos count : ℕ) (h : IsRun text pos count) :
    ∃ found, IsFirstRun text (pos + count) count found ∧ inlineFrom text color pos = match found with
      | none      => replicate count (byte '`') ++ inlineFrom text color (pos + count)
      | some stop =>
        (if color then style "36" else []) ++ ((text.take stop).drop (pos + count)).flatMap codeByte ++
          (if color then style "0" else []) ++ inlineFrom text color (stop + count) := by
  have ⟨found, hf, hc⟩ := @codeSpan_of_isRun text count pos color h
  refine ⟨found, hf, ?_⟩
  cases found
  case none      => exact inlineFrom_of_isRun h hc
  case some stop => exact inlineFrom_of_isRun h hc

theorem code_span_closes_longer :
    let text := ascii "``a`b``` c``d"
    ∃ found, IsFirstRun text 2 2 found ∧ inlineFrom text true 0 = match found with
      | none      => replicate 2 (byte '`') ++ inlineFrom text true 2
      | some stop =>
        style "36" ++ ((text.take stop).drop 2).flatMap codeByte ++ style "0" ++ inlineFrom text true (stop + 2) :=
  code_span_closes _ true 0 2 ⟨by decide, by decide, by decide, by decide⟩

end Howlinux
