import Howlinux.Library.Json
import Howlinux.Render.Escape

open Bytes String

namespace Howlinux

-- The bits that the bytes of a sequence contribute, as numbers.
section

variable (first second third fourth : UInt8)

theorem or_eq_add {a b : ℕ} (n : ℕ) (h : b < 2 ^ n) : a * 2 ^ n ||| b = a * 2 ^ n + b := by
  rw [Nat.mul_comm, Nat.two_pow_add_eq_or_of_lt h]

theorem toNat_lead (n : ℕ) (b mask : UInt8) (hm : mask.toNat = 2 ^ n - 1) :
    (b &&& mask).toUInt32.toNat = b.toNat % 2 ^ n := by
  rw [UInt8.toNat_toUInt32, UInt8.toNat_and, hm, Nat.and_two_pow_sub_one_eq_mod]

theorem toNat_shiftLeft {x k : UInt32} (n : ℕ) (hk : k.toNat = n) (hx : x.toNat < 64)
    (hn : n ≤ 18) : (x <<< k).toNat = x.toNat * 2 ^ n := by
  have : 2 ^ n ≤ 2 ^ 18 := Nat.pow_le_pow_right (by decide) hn
  have hl : x.toNat * 2 ^ n < 64 * 2 ^ 18 := Nat.mul_lt_mul_of_lt_of_le hx this (by decide)
  rw [UInt32.toNat_shiftLeft, hk, Nat.mod_eq_of_lt (by omega : n < 32), Nat.shiftLeft_eq]
  exact Nat.mod_eq_of_lt (hl.trans (by decide))

theorem toNat_continuation (b : UInt8) : (b &&& 0x3F).toUInt32.toNat = b.toNat % 64 :=
  toNat_lead 6 b 0x3F rfl

theorem toNat_two : ((first &&& 0x1F).toUInt32 <<< 6 ||| (second &&& 0x3F).toUInt32).toNat =
    first.toNat % 32 * 64 + second.toNat % 64 := by
  have hf := toNat_lead 5 first 0x1F rfl
  rw [UInt32.toNat_or, toNat_shiftLeft 6 rfl (by omega) (by decide), hf, toNat_continuation,
    or_eq_add 6 (by omega)]
  rfl

theorem toNat_three : ((first &&& 0x0F).toUInt32 <<< 12 ||| (second &&& 0x3F).toUInt32 <<< 6 |||
    (third &&& 0x3F).toUInt32).toNat =
      first.toNat % 16 * 4096 + second.toNat % 64 * 64 + third.toNat % 64 := by
  have hf := toNat_lead 4 first 0x0F rfl
  have hs := toNat_continuation second
  rw [UInt32.toNat_or, UInt32.toNat_or, toNat_shiftLeft 12 rfl (by omega) (by decide),
    toNat_shiftLeft 6 rfl (by omega) (by decide), hf, hs, toNat_continuation, or_eq_add 12 (by omega)]
  have := or_eq_add (a := first.toNat % 2 ^ 4 * 64 + second.toNat % 64) (b := third.toNat % 64) 6 (by omega)
  rw [show first.toNat % 2 ^ 4 * 2 ^ 12 + second.toNat % 64 * 2 ^ 6 =
    (first.toNat % 2 ^ 4 * 64 + second.toNat % 64) * 2 ^ 6 by omega, this]
  omega

theorem toNat_four : ((first &&& 0x07).toUInt32 <<< 18 ||| (second &&& 0x3F).toUInt32 <<< 12 |||
    (third &&& 0x3F).toUInt32 <<< 6 ||| (fourth &&& 0x3F).toUInt32).toNat =
      first.toNat % 8 * 262144 + second.toNat % 64 * 4096 + third.toNat % 64 * 64 + fourth.toNat % 64 := by
  have hf := toNat_lead 3 first 0x07 rfl
  have hs := toNat_continuation second
  have ht := toNat_continuation third
  rw [UInt32.toNat_or, UInt32.toNat_or, UInt32.toNat_or, toNat_shiftLeft 18 rfl (by omega) (by decide),
    toNat_shiftLeft 12 rfl (by omega) (by decide), toNat_shiftLeft 6 rfl (by omega) (by decide), hf, hs, ht,
    toNat_continuation, or_eq_add 18 (by omega)]
  have h₁ := or_eq_add (a := first.toNat % 2 ^ 3 * 64 + second.toNat % 64)
    (b := third.toNat % 64 * 2 ^ 6) 12 (by omega)
  have h₂ := or_eq_add (a := (first.toNat % 2 ^ 3 * 64 + second.toNat % 64) * 64 + third.toNat % 64)
    (b := fourth.toNat % 64) 6 (by omega)
  rw [show first.toNat % 2 ^ 3 * 2 ^ 18 + second.toNat % 64 * 2 ^ 12 =
    (first.toNat % 2 ^ 3 * 64 + second.toNat % 64) * 2 ^ 12 by omega, h₁,
    show (first.toNat % 2 ^ 3 * 64 + second.toNat % 64) * 2 ^ 12 + third.toNat % 64 * 2 ^ 6 =
    ((first.toNat % 2 ^ 3 * 64 + second.toNat % 64) * 64 + third.toNat % 64) * 2 ^ 6 by omega, h₂]
  omega

end

section

variable {c : Char} {text : Bytes} {length : ℕ} {codePoint : UInt32}

theorem utf8EncodeChar_prefix_iff {bytes : List ℕ} (h : Utf8.Encoded c bytes) :
    utf8EncodeChar c <+: text ↔ bytes <+: text.map UInt8.toNat := by
  rw [← h.unique (Utf8.encoded c), List.prefix_map_iff_of_injective fun _ _ => UInt8.toNat_inj.mp]

theorem char_of_encoded {bytes : List ℕ} (hv : codePoint.isValidChar)
    (he : Utf8.Encoded ⟨codePoint, hv⟩ bytes) (hp : bytes <+: text.map UInt8.toNat) :
    ∃ c : Char, c.val = codePoint ∧ c.utf8Size = bytes.length ∧ utf8EncodeChar c <+: text := by
  refine ⟨⟨codePoint, hv⟩, rfl, ?_, (utf8EncodeChar_prefix_iff he).mpr hp⟩
  rw [← length_utf8EncodeChar, ← he.unique (Utf8.encoded _), List.length_map]

theorem isContinuationByte_iff {b : UInt8} :
    isContinuationByte b ↔ 0x80 ≤ b.toNat ∧ b.toNat ≤ 0xBF := by
  simp [isContinuationByte, UInt8.le_iff_toNat_le]

theorem isSecondOfThree_iff {first second : UInt8} (h : 0xE0 ≤ first ∧ first ≤ 0xEF) :
    isSecondOfThree first second ↔ 0x80 ≤ second.toNat ∧ second.toNat ≤ 0xBF ∧
      (first.toNat = 0xE0 → 0xA0 ≤ second.toNat) ∧ (first.toNat = 0xED → second.toNat ≤ 0x9F) := by
  simp [isSecondOfThree, isContinuationByte, UInt8.le_iff_toNat_le, ← UInt8.toNat_inj] at h ⊢
  omega

theorem isSecondOfFour_iff {first second : UInt8} (h : 0xF0 ≤ first ∧ first ≤ 0xF4) :
    isSecondOfFour first second ↔ 0x80 ≤ second.toNat ∧ second.toNat ≤ 0xBF ∧
      (first.toNat = 0xF0 → 0x90 ≤ second.toNat) ∧ (first.toNat = 0xF4 → second.toNat ≤ 0x8F) := by
  simp [isSecondOfFour, isContinuationByte, UInt8.le_iff_toNat_le, ← UInt8.toNat_inj] at h ⊢
  omega

theorem isValidChar_iff : codePoint.isValidChar ↔
    codePoint.toNat < 0xD800 ∨ (0xDFFF < codePoint.toNat ∧ codePoint.toNat < 0x110000) :=
  Iff.rfl

-- A sequence that is taken is the encoding of a character.
theorem char_of_decodeUtf8 : (decodeUtf8 text = some (length, codePoint)) →
    ∃ c : Char, c.val = codePoint ∧ c.utf8Size = length ∧ utf8EncodeChar c <+: text := by
  fun_cases decodeUtf8 text
  case case2 first rest hf =>
    intro h
    cases h
    have hl : first.toNat ≤ 0x7F := hf
    have hv := UInt8.toNat_toUInt32 first
    exact char_of_encoded (isValidChar_iff.mpr <| by omega) (.one <| by simp; omega) (by simp)
  case case4 first hf hr second rest hs =>
    intro h
    have ⟨hl, hp⟩ := Prod.mk.inj <| Option.some.inj h
    have hv := hp ▸ toNat_two first second
    have hs := isContinuationByte_iff.mp (by simpa using hs)
    have hr₁ : 0xC2 ≤ first.toNat := hr.left
    have hr₂ : first.toNat ≤ 0xDF := hr.right
    subst hl
    exact char_of_encoded (isValidChar_iff.mpr <| by omega) (.two (by simp; omega) (by simp; omega))
      (by simp [hv]; omega)
  case case7 first hf hr' hr second third rest hs =>
    intro h
    have ⟨hl, hp⟩ := Prod.mk.inj <| Option.some.inj h
    simp only [Bool.not_eq_true, Bool.or_eq_false_iff, Bool.not_eq_false'] at hs
    have hv := hp ▸ toNat_three first second third
    have ht := isContinuationByte_iff.mp hs.right
    have hs := (isSecondOfThree_iff hr).mp hs.left
    have hr₁ : 0xE0 ≤ first.toNat := hr.left
    have hr₂ : first.toNat ≤ 0xEF := hr.right
    subst hl
    exact char_of_encoded (isValidChar_iff.mpr <| by omega) (.three (by simp; omega) (by simp; omega))
      (by simp [hv]; omega)
  case case10 first hf hr'' hr' hr second third fourth rest hs =>
    intro h
    have ⟨hl, hp⟩ := Prod.mk.inj <| Option.some.inj h
    simp only [Bool.not_eq_true, Bool.or_eq_false_iff, Bool.not_eq_false'] at hs
    have hv := hp ▸ toNat_four first second third fourth
    have hq := isContinuationByte_iff.mp hs.right
    have ht := isContinuationByte_iff.mp hs.left.right
    have hs := (isSecondOfFour_iff hr).mp hs.left.left
    have hr₁ : 0xF0 ≤ first.toNat := hr.left
    have hr₂ : first.toNat ≤ 0xF4 := hr.right
    subst hl
    exact char_of_encoded (isValidChar_iff.mpr <| by omega) (.four (by simp; omega) (by simp; omega))
      (by simp [hv]; omega)
  all_goals nofun

-- Every encoding of a character is taken.
theorem isSome_decodeUtf8 (h : utf8EncodeChar c <+: text) : (decodeUtf8 text).isSome := by
  have he := Utf8.encoded c
  have hv := isValidChar_iff.mp c.valid
  obtain ⟨rest, hr⟩ := (utf8EncodeChar_prefix_iff he).mp h
  generalize (utf8EncodeChar c).map UInt8.toNat = bytes at he hr
  cases he
  case one h =>
    obtain ⟨first, _, ht, hf, _⟩ := List.map_eq_cons_iff.mp hr.symm
    have : first ≤ 0x7F := by rw [UInt8.le_iff_toNat_le, hf]; exact h
    simp [ht, decodeUtf8, this]
  case two h h' =>
    simp only [List.cons_append, List.nil_append] at hr
    obtain ⟨first, _, ht₁, hf, hr⟩ := List.map_eq_cons_iff.mp hr.symm
    obtain ⟨second, _, ht₂, hs, _⟩ := List.map_eq_cons_iff.mp hr
    have hl : 0xC2 ≤ first ∧ first ≤ 0xDF := by
      simp only [UInt8.le_iff_toNat_le, hf, UInt8.reduceToNat]
      omega
    have hn : ¬first ≤ 0x7F := fun h => absurd (hl.left.trans h) (by decide)
    have hc : isContinuationByte second := isContinuationByte_iff.mpr <| by omega
    simp [ht₁, ht₂, decodeUtf8, hl, hn, hc]
  case three h h' =>
    simp only [List.cons_append, List.nil_append] at hr
    obtain ⟨first, _, ht₁, hf, hr⟩ := List.map_eq_cons_iff.mp hr.symm
    obtain ⟨second, _, ht₂, hs, hr⟩ := List.map_eq_cons_iff.mp hr
    obtain ⟨third, _, ht₃, ht, _⟩ := List.map_eq_cons_iff.mp hr
    have hl : 0xE0 ≤ first ∧ first ≤ 0xEF := by
      simp only [UInt8.le_iff_toNat_le, hf, UInt8.reduceToNat]
      omega
    have hn₁ : ¬first ≤ 0x7F := fun h => absurd (hl.left.trans h) (by decide)
    have hn₂ : ¬first ≤ 0xDF := fun h => absurd (hl.left.trans h) (by decide)
    have hc₁ : isSecondOfThree first second := (isSecondOfThree_iff hl).mpr <| by omega
    have hc₂ : isContinuationByte third := isContinuationByte_iff.mpr <| by omega
    simp only [ht₁, ht₂, ht₃, decodeUtf8, hl, hn₁, hn₂, hc₁, hc₂, if_true, if_false, and_false, and_self,
      Bool.not_true, Bool.or_self, Bool.false_eq_true, Option.isSome_some]
  case four h h' =>
    simp only [List.cons_append, List.nil_append] at hr
    obtain ⟨first, _, ht₁, hf, hr⟩ := List.map_eq_cons_iff.mp hr.symm
    obtain ⟨second, _, ht₂, hs, hr⟩ := List.map_eq_cons_iff.mp hr
    obtain ⟨third, _, ht₃, ht, hr⟩ := List.map_eq_cons_iff.mp hr
    obtain ⟨fourth, _, ht₄, hq, _⟩ := List.map_eq_cons_iff.mp hr
    have hl : 0xF0 ≤ first ∧ first ≤ 0xF4 := by
      simp only [UInt8.le_iff_toNat_le, hf, UInt8.reduceToNat]
      omega
    have hn₁ : ¬first ≤ 0x7F := fun h => absurd (hl.left.trans h) (by decide)
    have hn₂ : ¬first ≤ 0xDF := fun h => absurd (hl.left.trans h) (by decide)
    have hn₃ : ¬first ≤ 0xEF := fun h => absurd (hl.left.trans h) (by decide)
    have hc₁ : isSecondOfFour first second := (isSecondOfFour_iff hl).mpr <| by omega
    have hc₂ : isContinuationByte third := isContinuationByte_iff.mpr <| by omega
    have hc₃ : isContinuationByte fourth := isContinuationByte_iff.mpr <| by omega
    simp only [ht₁, ht₂, ht₃, ht₄, decodeUtf8, hl, hn₁, hn₂, hn₃, hc₁, hc₂, hc₃, if_true, if_false,
      and_false, and_self, Bool.not_true, Bool.or_self, Bool.false_eq_true, Option.isSome_some]

-- The source decodes the sequences that UTF-8 has, and only those.
theorem decodeUtf8_eq : decodeUtf8 text = (Utf8.front? text).map fun c => (c.utf8Size, c.val) := by
  cases hf : Utf8.front? text
  case none =>
    rw [Option.map_none, Option.eq_none_iff_forall_ne_some]
    intro (length, codePoint) h
    have ⟨c, _, _, hc⟩ := char_of_decodeUtf8 h
    exact Utf8.front?_eq_none_iff.mp hf c hc
  case some c =>
    have hc := Utf8.front?_eq_some_iff.mp hf
    have ⟨(length, codePoint), h⟩ := Option.isSome_iff_exists.mp <| isSome_decodeUtf8 hc
    have ⟨d, hv, hs, hd⟩ := char_of_decodeUtf8 h
    rw [h, ← hv, ← hs, Utf8.eq_of_prefix hc hd]
    rfl

end

-- Characters that neither control a terminal nor end a line.
structure IsPrintable (c : Char) : Prop where
  control   : 0x20 ≤ c.val.toNat ∧ ¬(0x7F ≤ c.val.toNat ∧ c.val.toNat ≤ 0x9F)
  separator : c.val.toNat ≠ 0x2028 ∧ c.val.toNat ≠ 0x2029

section

variable {c : Char} {text rest : Bytes} {b : UInt8} {codePoint : UInt32}

def isVisible (b : UInt8) : Bool :=
  0x20 ≤ b && b < 0x7F

theorem spells_of_visible (h : text.all isVisible) : Utf8.Spells IsPrintable text := by
  induction text
  case nil => exact .nil
  case cons b text hi =>
    simp only [List.all_cons, isVisible, Bool.and_eq_true, decide_eq_true_eq] at h
    have ⟨⟨hl, hu⟩, ht⟩ := h
    have hl : 0x20 ≤ b.toNat := hl
    have hu : b.toNat < 0x7F := hu
    have hv : (Char.ofNat b.toNat).val.toNat = b.toNat := Utf8.toNat_ofNat (.inl <| by omega)
    have hb : Utf8.Spells IsPrintable [b] := by
      rw [← Utf8.utf8EncodeChar_of_ascii (UInt8.lt_iff_toNat_lt.mpr <| hu.trans (by decide))]
      exact .char ⟨by omega, by omega⟩
    exact hb.append (hi ht)

theorem hexValue_hexDigit (value : UInt32) : Json.hexValue (hexDigit value) = some (value.toNat % 16) := by
  have ha : ∀ n < 16, Json.hexValue (hexDigits.getD n 0) = some n := by decide
  rw [hexDigit_eq, ha _ (Nat.mod_lt _ (by decide))]

theorem isVisible_hexDigit : ∀ value : UInt32, isVisible (hexDigit value) := by
  apply hexDigit_of_digits
  decide

theorem unescape_unicodeEscape (rest : Bytes) (h : codePoint.toNat < 0xD800 ∨
    (0xE000 ≤ codePoint.toNat ∧ codePoint.toNat < 0x10000)) :
    Json.unescape (unicodeEscape codePoint ++ rest) =
      (Char.ofNat codePoint.toNat :: ·) <$> Json.unescape rest := by
  have hs (n : ℕ) (k : UInt32) (hk : k.toNat = n) (hn : n < 32) :
      (codePoint >>> k).toNat = codePoint.toNat / 2 ^ n := by
    rw [UInt32.toNat_shiftRight, hk, Nat.mod_eq_of_lt hn, Nat.shiftRight_eq_div_pow]
  have hn : Json.hexNumber [hexDigit (codePoint >>> 12), hexDigit (codePoint >>> 8),
      hexDigit (codePoint >>> 4), hexDigit codePoint] = some codePoint.toNat := by
    simp only [Json.hexNumber, hexValue_hexDigit, hs 12 12 rfl (by decide), hs 8 8 rfl (by decide),
      hs 4 4 rfl (by decide), Option.bind_eq_bind, Option.bind_some, Option.pure_def, Option.some.injEq]
    omega
  exact Json.unescape_unicode rfl hn (by omega)

theorem spells_unicodeEscape : Utf8.Spells IsPrintable (unicodeEscape codePoint) := by
  have hu : Utf8.Spells IsPrintable (ascii "\\u") := spells_of_visible (by decide)
  refine hu.append <| spells_of_visible ?_
  simp [isVisible_hexDigit]

theorem unescape_escapeByte (h : b ≤ 0x7F) :
    Json.unescape (escapeByte b ++ rest) = (Char.ofNat b.toNat :: ·) <$> Json.unescape rest := by
  have hb : b.toNat ≤ 0x7F := h
  have hv : (Char.ofNat b.toNat).val.toNat = b.toNat := Utf8.toNat_ofNat (.inl <| by omega)
  have hshort (e : UInt8) (he : e ≠ byte 'u') (hl : Json.shortEscape e = some (Char.ofNat b.toNat)) :
      Json.unescape ([byte '\\', e] ++ rest) = (Char.ofNat b.toNat :: ·) <$> Json.unescape rest :=
    Json.unescape_shortEscape hl he
  unfold escapeByte
  split_ifs with h₁ h₂ h₃ h₄ h₅ h₆ h₇ h₈
  case pos => subst h₁; exact hshort _ (by decide) (by decide)
  case pos => subst h₂; exact hshort _ (by decide) (by decide)
  case pos => subst h₃; exact hshort _ (by decide) (by decide)
  case pos => subst h₄; exact hshort _ (by decide) (by decide)
  case pos => subst h₅; exact hshort _ (by decide) (by decide)
  case pos => subst h₆; exact hshort _ (by decide) (by decide)
  case pos => subst h₇; exact hshort _ (by decide) (by decide)
  case pos =>
    have hu : b.toUInt32.toNat < 0xD800 := by rw [UInt8.toNat_toUInt32]; omega
    have hu := unescape_unicodeEscape rest (.inl hu)
    rwa [UInt8.toNat_toUInt32] at hu
  case neg =>
    have hne (d : Char) (hd : d.val.toNat < 0x80) (h : b ≠ byte d) : Char.ofNat b.toNat ≠ d := fun he => by
      refine h ?_
      rw [byte, ← he, Char.toNat, hv, UInt8.ofNat_toNat]
    have hl : 0x20 ≤ b.toNat := not_lt.mp fun hlt => h₈ (.inl hlt)
    rw [← Utf8.utf8EncodeChar_of_ascii (lt_of_le_of_lt h (by decide))]
    exact Json.unescape_char (by rwa [hv]) (hne _ (by decide) h₁) (hne _ (by decide) h₂)

theorem spells_escapeByte (h : b ≤ 0x7F) : Utf8.Spells IsPrintable (escapeByte b) := by
  have hs (e : UInt8) (he : isVisible e) : Utf8.Spells IsPrintable [byte '\\', e] :=
    spells_of_visible <| by rw [List.all_cons, List.all_cons, he]; rfl
  unfold escapeByte
  split_ifs with h₁ h₂ h₃ h₄ h₅ h₆ h₇ h₈
  case pos => exact hs _ rfl
  case pos => exact hs _ rfl
  case pos => exact hs _ rfl
  case pos => exact hs _ rfl
  case pos => exact hs _ rfl
  case pos => exact hs _ rfl
  case pos => exact hs _ rfl
  case pos => exact spells_unicodeEscape
  case neg =>
    simp only [not_or, not_lt] at h₈
    refine spells_of_visible ?_
    simp [isVisible, h₈.left, lt_of_le_of_ne h h₈.right]

theorem isEscapedCodePoint_iff : isEscapedCodePoint codePoint ↔
    (0x80 ≤ codePoint.toNat ∧ codePoint.toNat ≤ 0x9F) ∨ codePoint.toNat = 0x2028 ∨
      codePoint.toNat = 0x2029 := by
  simp [isEscapedCodePoint, UInt32.le_iff_toNat_le, ← UInt32.toNat_inj, or_assoc]

theorem isPrintable_of_not_escaped (h : 0x80 ≤ c.val.toNat) (he : ¬isEscapedCodePoint c.val) :
    IsPrintable c := by
  rw [isEscapedCodePoint_iff] at he
  exact ⟨by omega, by omega⟩

-- What is written is a literal of the value's characters, and none of them does any harm.
theorem escapeJson_spec (value : Bytes) : Json.unescape (escapeJson value) = some (Utf8.decode value) ∧
    Utf8.Spells IsPrintable (escapeJson value) := by
  fun_induction escapeJson value
  case case1 => exact ⟨by rw [Json.unescape, Utf8.decode], .nil⟩
  case case2 b rest hb hi =>
    have hd : Utf8.decode ([b] ++ rest) = Char.ofNat b.toNat :: Utf8.decode rest := by
      rw [← Utf8.utf8EncodeChar_of_ascii (lt_of_le_of_lt hb (by decide)), Utf8.decode_append]
    rw [unescape_escapeByte hb, hi.left]
    exact ⟨congrArg some hd.symm, (spells_escapeByte hb).append hi.right⟩
  case case3 b rest hb hn hi =>
    rw [decodeUtf8_eq, Option.map_eq_none_iff] at hn
    have he : ascii "\\uFFFD" = unicodeEscape 0xFFFD := by decide
    have hu : Json.unescape (unicodeEscape 0xFFFD ++ escapeJson rest) =
        (Utf8.replacement :: ·) <$> Json.unescape (escapeJson rest) :=
      unescape_unicodeEscape _ (.inr (by decide))
    rw [he, hu, hi.left, Utf8.decode_cons_of_bad hn]
    exact ⟨rfl, spells_unicodeEscape.append hi.right⟩
  case case4 b rest hb length codePoint hs hi =>
    rw [decodeUtf8_eq, Option.map_eq_some_iff] at hs
    obtain ⟨c, hf, hc⟩ := hs
    obtain ⟨hl, hv⟩ := Prod.mk.inj hc
    subst hl hv
    obtain ⟨hm, ht⟩ := Utf8.append_drop_of_front? hf
    have hle := Utf8.le_of_mem_utf8EncodeChar hm (not_le.mp hb)
    have htake : (b :: rest).take c.utf8Size = utf8EncodeChar c := by
      rw [← ht, ← length_utf8EncodeChar, List.take_left]
    rw [← ht, Utf8.decode_append, ht, htake]
    split
    case isTrue he =>
      rw [isEscapedCodePoint_iff] at he
      have hc : Char.ofNat c.val.toNat = c := Char.ofNat_toNat c
      rw [unescape_unicodeEscape _ (by omega), hi.left, hc]
      exact ⟨rfl, spells_unicodeEscape.append hi.right⟩
    case isFalse he =>
      have hne (d : Char) (hd : d.val.toNat < 0x80) : c ≠ d := fun h => by
        subst h
        omega
      rw [Json.unescape_char (by omega) (hne _ (by decide)) (hne _ (by decide)), hi.left]
      exact ⟨rfl, (Utf8.Spells.char <| isPrintable_of_not_escaped hle he).append hi.right⟩

theorem not_control_of_spells (h : Utf8.Spells IsPrintable text) : ∀ b ∈ text, 0x20 ≤ b ∧ b ≠ 0x7F := by
  intro b hb
  by_cases hl : b < 0x80
  case pos =>
    have ⟨c, hc, hv⟩ := h.exists_of_mem hb hl
    have hcontrol := hv ▸ hc.control
    refine ⟨hcontrol.left, fun he => hcontrol.right ?_⟩
    rw [he]
    decide
  case neg =>
    have hge : 0x80 ≤ b := not_lt.mp hl
    exact ⟨le_trans (by decide) hge, fun he => absurd (he ▸ hge) (by decide)⟩

theorem spells_quote (h : Utf8.Spells IsPrintable text) : Utf8.Spells IsPrintable (Json.quote text) := by
  have hq : Utf8.Spells IsPrintable [byte '"'] := spells_of_visible (by decide)
  exact (hq.append h).append hq

-- Escaping loses nothing of a valid text, and its result is always a valid literal.
theorem escapeJson_lossless (value : Bytes) :
    let text := Json.quote (escapeJson value)
    Json.literal text = some (Utf8.decode value) ∧
    (∀ chars, Json.literal (Json.quote (escapeJson (Utf8.encode chars))) = some chars) ∧
    Utf8.encode (Utf8.decode text) = text ∧
    (∀ b ∈ text, 0x20 ≤ b ∧ b ≠ 0x7F) ∧
    ∀ c ∈ Utf8.decode text, IsPrintable c := by
  have hl (value : Bytes) : Json.literal (Json.quote (escapeJson value)) = some (Utf8.decode value) := by
    rw [Json.literal_quote, (escapeJson_spec value).left]
  have hs := spells_quote (escapeJson_spec value).right
  have ⟨he, hp⟩ := Utf8.Spells.iff_decode.mp hs
  exact ⟨hl value, fun chars => by rw [hl, Utf8.decode_encode], he, not_control_of_spells hs, hp⟩

end

end Howlinux
