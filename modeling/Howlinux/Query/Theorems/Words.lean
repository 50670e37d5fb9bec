import Howlinux.Library.Slices
import Howlinux.Library.Utf8
import Howlinux.Query.Theorems.Tokenizer

open Bytes List

namespace Howlinux

section

variable (value : UInt8)

theorem isWordByte_asciiLower : isWordByte (asciiLower value) = isWordByte value := by
  revert value; decide +kernel

variable {value}

theorem not_isWordByte_of_not_isChunkByte (h : isChunkByte value = false) : isWordByte value = false := by
  revert value; decide +kernel

theorem not_isWordByte_of_isWordBoundary (h : isWordBoundary value) : isWordByte value = false := by
  revert value; decide +kernel

theorem asciiLower_of_isRedirection (h : isRedirection value) :
    asciiLower value = value ∧ isWordByte value = false := by
  revert value; decide +kernel

end

section

variable {chunk token rest : Bytes} {tokens : List Bytes}

theorem slices_flush (h : Slices isWordByte rest tokens) (ha : Apart isWordByte token rest) :
    Slices isWordByte (token ++ rest) (flush token ++ tokens) := by
  cases token
  case nil  => exact h
  case cons => exact .cons ha h

-- What is held back is continued byte by byte, and flushed before a byte that no word has.
theorem slices_appendDotAware (token rest : Bytes) :
    Slices isWordByte (token ++ rest) (appendDotAware token rest) := by
  fun_induction appendDotAware token rest
  case case1 token =>
    rw [← append_nil (flush token)]
    exact slices_flush .nil .nil_right
  case case2 hi => simpa using hi
  case case3 hd hi =>
    simp only [Bool.and_eq_true, beq_iff_eq] at hd
    simpa [hd] using hi
  case case4 value rest hw _ hi =>
    have hv : isWordByte value = false := by simpa using hw
    exact slices_flush (@Slices.skip _ _ _ [value] _ (by simpa) hi) (.of_head (by simpa))

theorem slices_splitOnP (chunk : Bytes) :
    Slices isWordByte chunk ((chunk.splitOnP isWordBoundary).flatMap (appendDotAware [])) := by
  induction hl : chunk.length using Nat.strong_induction_on generalizing chunk
  case h n hi =>
    by_cases hb : ∃ value ∈ chunk, isWordBoundary value
    case neg =>
      have hb : ∀ value ∈ chunk, isWordBoundary value = false := by simpa using hb
      rw [splitOnP_eq_singleton hb, flatMap_singleton]
      exact slices_appendDotAware [] chunk
    case pos =>
      have ⟨_, hm, hp⟩ := hb
      have ⟨value, before, rest, hn, hv, hs, _⟩ := exists_of_eraseP hm hp
      have hw : isWordByte value = false := not_isWordByte_of_isWordBoundary hv
      have hr := hi rest.length (by simp [← hl, hs]; omega) rest rfl
      rw [hs, splitOnP_append_cons_of_forall_mem (by simpa using hn) value hv, flatMap_cons]
      exact .append (.of_head (by simpa)) (slices_appendDotAware [] before)
        (@Slices.skip _ _ _ [value] _ (by simpa) hr)

theorem slices_appendChunk (chunk : Bytes) : Slices isWordByte chunk (appendChunk chunk) := by
  unfold appendChunk
  split
  case isTrue h => exact isEmpty_iff.mp h ▸ .nil
  case isFalse =>
    split
    case isTrue =>
      have ⟨dots, hd, hb⟩ := exists_popTrailingDots_append chunk
      have hn : ∀ value ∈ dots, isWordByte value = false := fun value hv => hb value hv ▸ rfl
      have hs : Slices isWordByte (popTrailingDots chunk ++ dots) (flush (popTrailingDots chunk) ++ []) :=
        slices_flush (.gap hn) (.of_head fun value hv => hn value (mem_of_mem_head? hv))
      rwa [hd, append_nil] at hs
    case isFalse => exact slices_splitOnP chunk

theorem redirectionRun_prefix : redirectionRun chunk rest <+: rest := by
  cases rest
  case nil => exact nil_prefix
  case cons direction rest =>
    simp only [redirectionRun]
    split
    case isTrue  => exact (prefix_cons_inj _).mpr ( takeWhile_prefix _)
    case isFalse => exact nil_prefix

theorem isRedirection_of_mem_redirectionRun {value : UInt8} (h : value ∈ redirectionRun chunk rest) :
    isRedirection value := by
  have ⟨_, direction, n, hd, he⟩ := redirectionRun_eq (ne_nil_of_mem h)
  rw [he, mem_cons, mem_replicate] at h
  cases h
  case inl h => exact h ▸ hd
  case inr h => exact h.right ▸ hd

-- The tokens are slices of the lower-cased input.
theorem slices_lexicalTokens (input : Bytes) : Slices isWordByte (input.map asciiLower) (lexicalTokens input) := by
  fun_induction lexicalTokens input
  case case1 => exact .nil
  case case2 value rest hv hi =>
    have hn : isWordByte (asciiLower value) = false := by
      rw [isWordByte_asciiLower]
      exact not_isWordByte_of_not_isChunkByte (by simpa using hv)
    exact @Slices.skip _ _ _ [asciiLower value] _ (by simpa) hi
  case case3 value rest hv chunk rest' run hr hi =>
    have ht : (value :: rest).map asciiLower = chunk ++ rest'.map asciiLower := by
      simp [chunk, rest', ← map_append]
    have hh : ∀ b ∈ (rest'.map asciiLower).head?, isWordByte b = false := by
      intro b hb
      obtain ⟨a, ha, he⟩ := Option.map_eq_some_iff.mp (head?_map ▸ hb)
      have hc : isChunkByte a = false := by
        have := head?_dropWhile_not isChunkByte rest
        simp_all [rest']
      rw [← he, isWordByte_asciiLower]
      exact not_isWordByte_of_not_isChunkByte hc
    exact ht ▸ .append (.of_head hh) (slices_appendChunk chunk) hi
  case case4 value rest hv chunk rest' run hr hi =>
    have hw (b : UInt8) (hb : b ∈ run) := asciiLower_of_isRedirection <| isRedirection_of_mem_redirectionRun hb
    have hp : rest' = run ++ rest'.drop run.length := (prefix_iff_eq_append.mp redirectionRun_prefix).symm
    have hm : rest'.map asciiLower = run ++ (rest'.drop run.length).map asciiLower := by
      conv_lhs => rw [hp, map_append, map_asciiLower fun b hb => (hw b hb).left]
    have ht : (value :: rest).map asciiLower = chunk ++ run ++ (rest'.drop run.length).map asciiLower := by
      rw [append_assoc, ← hm]
      simp [chunk, rest', ← map_append]
    refine ht ▸ .cons (.of_last fun b hb => ?_) hi
    have hn : run ≠ [] := by simpa using hr
    rw [getLast?_append_of_ne_nil _ hn] at hb
    exact (hw b (mem_of_mem_getLast? hb)).right

theorem tokenize_eq_lexicalTokens (input : Bytes) : tokenize input false false = lexicalTokens input := by
  rw [tokenize, tokenizeLoop_keep]
  simp

end

-- Lower-casing leaves the characters of more than one byte alone.
theorem isValid_map_asciiLower_char (c : Char) : Utf8.IsValid ((String.utf8EncodeChar c).map asciiLower) := by
  have hlt : ∀ b < 0x80, asciiLower b < 0x80 := by decide +kernel
  have hle : ∀ b, 0x80 ≤ b → asciiLower b = b := by decide +kernel
  by_cases hc : c.val.toNat < 0x80
  case pos =>
    have hv : (byte c).toNat = c.val.toNat := UInt8.toNat_ofNat_of_lt' (hc.trans (by decide))
    have hb : byte c < 0x80 := UInt8.lt_iff_toNat_lt.mpr (hv ▸ hc)
    rw [Utf8.utf8EncodeChar_byte hc, map_singleton, ← Utf8.utf8EncodeChar_of_ascii (hlt _ hb)]
    exact .char trivial
  case neg =>
    have hm (b : UInt8) (hb : b ∈ String.utf8EncodeChar c) : asciiLower b = b :=
      hle b <| UInt8.not_lt.mp fun hlt => hc (Utf8.eq_of_mem_utf8EncodeChar hb hlt ▸ hlt)
    rw [map_asciiLower hm]
    exact .char trivial

theorem isValid_map_asciiLower {text : Bytes} (h : Utf8.IsValid text) : Utf8.IsValid (text.map asciiLower) := by
  obtain ⟨chars, rfl, -⟩ := h
  induction chars
  case nil             => exact .nil
  case cons c chars hi =>
    rw [Utf8.encode, flatMap_cons, map_append]
    exact (isValid_map_asciiLower_char c).append hi

theorem isValid_of_slices {text : Bytes} {tokens : List Bytes} (h : Slices isWordByte text tokens)
    (hv : Utf8.IsValid text) : ∀ token ∈ tokens, Utf8.IsValid token := by
  have hw : ∀ b, 0x80 ≤ b → isWordByte b := by decide +kernel
  have hn : ∀ b, isWordByte b = false → b < 0x80 := by decide +kernel
  induction h
  case gap => simp
  case part hg ha _ hi =>
    rw [append_assoc] at hv
    have ⟨_, hv⟩ := hv.of_append fun a hm _ _ hle =>
      absurd (hn a (hg a (mem_of_mem_getLast? hm))) (UInt8.not_lt.mpr hle)
    have ⟨hp, hr⟩ := hv.of_append fun a hm b hb hle => hn b (ha a hm b hb (hw a hle))
    exact forall_mem_cons.mpr ⟨hp, hi hr⟩

-- Tokens are slices of the input, and no word is cut or left out.
theorem tokenize_keeps_words (input : Bytes) :
    let tokens := tokenize input false false
    tokens.flatten.filter isWordByte = (input.filter isWordByte).map asciiLower ∧
    (∀ before run after, input = before ++ run ++ after → run ≠ [] → (∀ b ∈ run, isWordByte b) →
      ∃ earlier left right later,
        tokens = earlier ++ (left ++ run.map asciiLower ++ right) :: later ∧
        (earlier.flatten ++ left).filter isWordByte = (before.filter isWordByte).map asciiLower ∧
        (right ++ later.flatten).filter isWordByte = (after.filter isWordByte).map asciiLower) ∧
    (Utf8.IsValid input → ∀ token ∈ tokens, Utf8.IsValid token) := by
  intro tokens
  have hs : Slices isWordByte (input.map asciiLower) tokens := by
    have ht : tokens = lexicalTokens input := tokenize_eq_lexicalTokens input
    rw [ht]
    exact slices_lexicalTokens input
  have hf (text : Bytes) : (text.map asciiLower).filter isWordByte = (text.filter isWordByte).map asciiLower := by
    rw [filter_map]
    exact congrArg _ <| filter_congr fun value _ => isWordByte_asciiLower value
  refine ⟨hs.filter_flatten.trans (hf input), ?_, fun hv => isValid_of_slices hs (isValid_map_asciiLower hv)⟩
  rintro before run after rfl hn hr
  have hr' : ∀ b ∈ run.map asciiLower, isWordByte b := by
    simpa [isWordByte_asciiLower] using hr
  have hm : (before ++ run ++ after).map asciiLower =
      before.map asciiLower ++ run.map asciiLower ++ after.map asciiLower := by simp
  have ⟨earlier, left, right, later, ht, hb, ha⟩ := hs.exists_part hm (by simpa using hn) hr'
  exact ⟨earlier, left, right, later, ht, hb.trans (hf before), ha.trans (hf after)⟩

end Howlinux
