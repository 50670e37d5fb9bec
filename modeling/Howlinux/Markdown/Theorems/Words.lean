import Howlinux.Markdown.Theorems.Blocks
import Howlinux.Render.Theorems.Text

open Bytes List

namespace Howlinux

-- The letters, digits and other bytes of words of a text, in their order.
def words (text : Bytes) : Bytes :=
  text.filter isWordByte

-- Markup and layout, which have no letters, digits or other word bytes.
def Wordless (text : Bytes) : Prop :=
  ∀ b ∈ text, isWordByte b = false

-- A link that would show the same text twice shows it once.
def Span.shown : Span → Bytes
  | link label url => if url = label then label else (link label url).source
  | span           => span.source

-- What of a part of the content is to be read in the output.
def Part.shown : Part → Bytes
  | opening _               => []
  | verbatim line           => line ++ [byte '\n']
  | inline lead spans trail => lead ++ spans.flatMap Span.shown ++ trail ++ [byte '\n']

section

variable {text text' : Bytes}

@[simp]
theorem words_append : words (text ++ text') = words text ++ words text' :=
  filter_append ..

theorem Wordless.nil : Wordless [] := by
  simp [Wordless]

theorem Wordless.append (h : Wordless text) (h' : Wordless text') : Wordless (text ++ text') :=
  fun b hb => (mem_append.mp hb).elim (h b) (h' b)

theorem wordless_iff : Wordless text ↔ text.filter isWordByte = [] := by
  simp [Wordless, filter_eq_nil_iff]

theorem literal_of_isSafe (h : IsSafe text) : literal text = text := by
  have hb : ∀ b, isSafeByte b → literalByte b = [b] := by decide +kernel
  have hs : ∀ b ∈ text, isSafeByte b := all_eq_true.mp h
  rw [literal, flatMap_congr fun b hm => hb b (hs b hm)]
  exact flatMap_pure_eq_map id text |>.trans (map_id text)

theorem wordless_replicate {count : ℕ} {b : UInt8} (h : isWordByte b = false) : Wordless (replicate count b) :=
  fun _ hm => eq_of_mem_replicate hm ▸ h

theorem filter_isWordByte_unbroken :
    (text.map fun ch => if ch == byte '\n' then byte ' ' else ch).filter isWordByte = text.filter isWordByte := by
  have hn : isWordByte (byte '\n') = false ∧ isWordByte (byte ' ') = false := by decide
  induction text
  case nil => rfl
  case cons b text hi =>
    rw [map_cons, filter_cons, filter_cons, hi]
    by_cases hb : b = byte '\n' <;> simp [hb, hn]

-- Text without control bytes is printed as it is, and the delimiters of a span have no word bytes.
theorem Span.words (span : Span) (h : IsSafe span.source) :
    words (span.render false) = words span.shown := by
  unfold Howlinux.words
  cases span
  case plain text => exact congrArg _ (literal_of_isSafe h)
  case escaped ch =>
    have hs : IsSafe ([byte '\\'] ++ [ch]) := h
    have hl : literal [ch] = [ch] := literal_of_isSafe (IsSafe.append_iff.mp hs).right
    rw [render, hl]
    exact (filter_cons_of_neg (by decide)).symm
  case code count text =>
    have ht : IsSafe text := by simp_all [source]
    have hs : IsSafe (text.map fun ch => if ch == byte '\n' then byte ' ' else ch) := by
      simp only [IsSafe, all_map, all_eq_true] at ht ⊢
      intro b hb
      by_cases hn : b = byte '\n'
      case pos => simp [hn, isSafeByte, byte]
      case neg => simpa [hn] using ht b hb
    have hb : (replicate count (byte '`')).filter isWordByte = [] := wordless_iff.mp <| wordless_replicate rfl
    simp only [render, styled, Bool.false_eq_true, if_false, nil_append, append_nil, literal_of_isSafe hs,
      filter_isWordByte_unbroken, shown, source, filter_append, hb]
  case link label url =>
    simp only [source, IsSafe.append_iff] at h
    obtain ⟨⟨⟨hs, _⟩, hu⟩, _⟩ := h
    have hs : IsSafe ([byte '['] ++ label) := hs
    have hl : IsSafe label := (IsSafe.append_iff.mp hs).right
    by_cases he : url = label
    case pos => simp [render, styled, shown, he, literal_of_isSafe hl]
    case neg =>
      have ho : (ascii " (").filter isWordByte = [] := by decide
      have hm : (ascii "](").filter isWordByte = [] := by decide
      have hc : (ascii ")").filter isWordByte = [] := by decide
      have hb : isWordByte (byte '[') = false := by decide
      simp [render, styled, shown, source, he, literal_of_isSafe hl, literal_of_isSafe hu, ho, hm, hc, hb]
  case emphasis marker count text hm =>
    have ht : IsSafe text := by simp_all [source]
    have hw : ∀ b, isEmphasisMarker b → isWordByte b = false := by decide +kernel
    have hm' : (replicate count marker).filter isWordByte = [] := wordless_iff.mp <| wordless_replicate (hw marker hm)
    simp [render, styled, shown, source, literal_of_isSafe ht, hm']

end

section

variable {line text paragraph lead trail : Bytes}

theorem ne_nil_of_isParagraph (h : IsParagraph line) : line ≠ [] :=
  fun hn => h.visible (hn ▸ rfl)

-- The lines that a paragraph holds back.
def joined (held : List Bytes) : Bytes :=
  [byte '\n'].intercalate held

theorem isEmpty_joined {held : List Bytes} (hh : ∀ line ∈ held, IsParagraph line) :
    (joined held).isEmpty = held.isEmpty := by
  rcases held with _ | ⟨first, _ | _⟩
  case nil => rfl
  all_goals
    have hn := ne_nil_of_isParagraph (hh first mem_cons_self)
    simp [joined, intercalate_cons_cons, hn]

theorem isSafe_joined {held : List Bytes} (h : ∀ line ∈ held, IsSafe line) : IsSafe (joined held) := by
  induction held
  case nil => rfl
  case cons first held hi =>
    obtain ⟨hf, hh⟩ := forall_mem_cons.mp h
    cases held
    case nil => simpa [joined] using hf
    case cons =>
      have hn : IsSafe [byte '\n'] := rfl
      rw [joined, intercalate_cons_cons]
      exact (hf.append hn).append (hi hh)

theorem words_inlineText {spans : List Span} (h : IsSafe text) (hs : spans.flatMap Span.source = text)
    (hr : ∀ color, inlineText text color = spans.flatMap (Span.render color)) :
    words (inlineText text false) = words (spans.flatMap Span.shown) := by
  have hw : ∀ span ∈ spans, IsSafe span.source := by
    intro span hp
    rw [← hs] at h
    exact all_eq_true.mpr fun b hb => all_eq_true.mp h b (mem_flatMap_of_mem hp hb)
  rw [hr false, words, words, filter_flatMap, filter_flatMap]
  exact flatMap_congr fun span hm => span.words (hw span hm)

theorem exists_paragraph {held rest : List Bytes} {parts : List Part} (hh : ∀ line ∈ held, IsParagraph line)
    (hs : ∀ line ∈ held, IsSafe line) (hr : ∀ line ∈ rest.head?, ¬IsParagraph line) (h : Reads none rest parts) :
    ∃ parts', Reads none (held ++ rest) parts' ∧ words (parts'.flatMap Part.shown) =
      words (flushParagraph false (joined held)) ++ words (parts.flatMap Part.shown) := by
  by_cases hn : held = []
  case pos =>
    subst hn
    exact ⟨parts, h, rfl⟩
  case neg =>
    obtain ⟨spans, hf, hsrc, hren⟩ := exists_spans (joined held)
    have hj : (joined held).isEmpty = false := by
      rw [isEmpty_joined hh]
      simpa using hn
    have hw := words_inlineText (isSafe_joined hs) hsrc hren
    refine ⟨_, .paragraph hn hh hr hf h, ?_⟩
    rw [flatMap_cons, words_append, flushParagraph, hj, Part.shown]
    simp [hw]

-- A line that is no paragraph's ends the one that is held back.
theorem exists_part {held rest : List Bytes} {part : Part} {parts : List Part} {output : Bytes}
    (hh : ∀ line ∈ held, IsParagraph line) (hs : ∀ line ∈ held, IsSafe line) (hn : ¬IsParagraph line)
    (h : Reads none (line :: rest) (part :: parts)) (hp : words output = words part.shown) {later : Bytes}
    (hl : words later = words (parts.flatMap Part.shown)) : ∃ parts', Reads none (held ++ line :: rest) parts' ∧
      words (flushParagraph false (joined held) ++ output ++ later) = words (parts'.flatMap Part.shown) := by
  obtain ⟨parts', hr, hw⟩ := exists_paragraph hh hs (by simpa using hn) h
  exact ⟨parts', hr, by simp [hw, hp, hl]⟩

theorem SpansFrom.source {spans : List Span} {pos : ℕ} (h : SpansFrom text pos spans) :
    spans.flatMap Span.source = text.drop pos := by
  induction h
  case nil hl         => exact (drop_eq_nil_of_le hl).symm
  case cons hs _ hrec => rw [flatMap_cons, hrec, ← drop_of_prefix hs.source_prefix]

theorem flatMap_line {held : List Bytes} (h : held ≠ []) :
    held.flatMap (· ++ [byte '\n']) = joined held ++ [byte '\n'] := by
  induction held
  case nil => contradiction
  case cons first held hi =>
    cases held
    case nil  => simp [joined]
    case cons =>
      rw [joined, intercalate_cons_cons, flatMap_cons, hi (by simp), joined]
      simp

-- The parts are the lines, without a byte lost.
theorem Reads.source {fence : Option (UInt8 × ℕ)} {input : List Bytes} {parts : List Part}
    (h : Reads fence input parts) : parts.flatMap Part.source = input.flatMap (· ++ [byte '\n']) := by
  induction h
  case nil => rfl
  case opening hi | closing hi | code hi | indented hi | blank hi => rw [flatMap_cons, flatMap_cons, hi, Part.source]
  case marked hs _ hi => rw [flatMap_cons, flatMap_cons, hi, Part.source, hs.source, drop_zero]
  case paragraph hn _ _ hs _ hi =>
    rw [flatMap_cons, flatMap_append, hi, Part.source, hs.source, drop_zero, flatMap_line hn, joined]
    simp

end

end Howlinux
