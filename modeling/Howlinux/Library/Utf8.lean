import Howlinux.Library.Bytes

open Bytes String

-- UTF-8: a text is a sequence of characters that are Unicode scalar values, each in its shortest form.
namespace Utf8

def encode (chars : List Char) : Bytes :=
  chars.flatMap utf8EncodeChar

-- The character a text starts with.
def front? (text : Bytes) : Option Char :=
  text.toByteArray.utf8DecodeChar? 0

def replacement : Char :=
  Char.ofNat 0xFFFD

-- Bytes that start no character are replaced one by one.
def decode : Bytes → List Char
  | [] => []
  | b :: rest =>
    match front? (b :: rest) with
    | none   => replacement :: decode rest
    | some c => c :: decode (rest.drop (c.utf8Size - 1))
termination_by text => text.length

section

variable {c d : Char} {chars : List Char} {text rest : Bytes}

theorem front?_append : front? (utf8EncodeChar c ++ rest) = some c := by
  rw [front?, List.toByteArray_append]
  exact ByteArray.utf8DecodeChar?_utf8EncodeChar_append

theorem front?_eq_some_iff : front? text = some c ↔ utf8EncodeChar c <+: text where
  mp h := by
    have he := ByteArray.eq_of_utf8DecodeChar?_eq_some h
    have hd := congrArg (·.data.toList) he
    simp only [ByteArray.data_append, List.data_toByteArray, Array.toList_append] at hd
    exact ⟨_, hd.symm⟩
  mpr h := by
    have ⟨rest, hr⟩ := h
    exact hr ▸ front?_append

theorem front?_eq_none_iff : front? text = none ↔ ∀ c, ¬utf8EncodeChar c <+: text := by
  simp only [Option.eq_none_iff_forall_not_mem, Option.mem_def, front?_eq_some_iff]

theorem eq_of_prefix (hc : utf8EncodeChar c <+: text) (hd : utf8EncodeChar d <+: text) : c = d :=
  Option.some.inj <| (front?_eq_some_iff.mpr hc).symm.trans (front?_eq_some_iff.mpr hd)

theorem decode_append : decode (utf8EncodeChar c ++ rest) = c :: decode rest := by
  have hf : front? (utf8EncodeChar c ++ rest) = some c := front?_append
  have hl := length_utf8EncodeChar c
  have hp := c.utf8Size_pos
  cases hc : utf8EncodeChar c
  case nil => simp [hc] at hl; omega
  case cons b tail =>
    rw [hc] at hf hl
    have hr : (tail ++ rest).drop (c.utf8Size - 1) = rest := by
      rw [List.drop_append_of_le_length (by simp at hl; omega)]
      simp [← hl]
    simp only [List.cons_append] at hf ⊢
    rw [decode, hf]
    exact congrArg (c :: decode ·) hr

theorem decode_cons_of_bad {b : UInt8} (h : front? (b :: rest) = none) :
    decode (b :: rest) = replacement :: decode rest := by
  rw [decode, h]

-- The bytes of the first character and the rest.
theorem append_drop_of_front? {b : UInt8} (h : front? (b :: rest) = some c) :
    b ∈ utf8EncodeChar c ∧ utf8EncodeChar c ++ rest.drop (c.utf8Size - 1) = b :: rest := by
  have ⟨tail, ht⟩ := front?_eq_some_iff.mp h
  have hl := length_utf8EncodeChar c
  have hp := c.utf8Size_pos
  cases hc : utf8EncodeChar c
  case nil => simp [hc] at hl; omega
  case cons b' bytes =>
    simp only [hc, List.cons_append, List.cons.injEq, List.length_cons] at ht hl
    have hd : rest.drop (c.utf8Size - 1) = tail := by rw [← ht.right, ← hl, Nat.add_sub_cancel, List.drop_left]
    exact ⟨ht.left ▸ List.mem_cons_self, by rw [hd, List.cons_append, ht.left, ht.right]⟩

theorem encode_append {chars chars' : List Char} : encode (chars ++ chars') = encode chars ++ encode chars' :=
  List.flatMap_append

-- Nothing is lost where there is nothing to replace.
theorem decode_encode : decode (encode chars) = chars := by
  induction chars
  case nil => simp [encode, decode]
  case cons c chars hi => rw [encode, List.flatMap_cons, decode_append, ← encode, hi]

end

-- A text of characters that all have some property.
def Spells (P : Char → Prop) (text : Bytes) : Prop :=
  ∃ chars, encode chars = text ∧ ∀ c ∈ chars, P c

def IsValid : Bytes → Prop :=
  Spells fun _ => True

namespace Spells

variable {P : Char → Prop} {text text' : Bytes} {c : Char}

theorem nil : Spells P [] :=
  ⟨[], rfl, by simp⟩

theorem append : (Spells P text) → (Spells P text') → Spells P (text ++ text')
  | ⟨chars, he, h⟩, ⟨chars', he', h'⟩ =>
    ⟨chars ++ chars', by rw [encode_append, he, he'], fun c hc =>
      (List.mem_append.mp hc).elim (h c) (h' c)⟩

theorem char (h : P c) : Spells P (utf8EncodeChar c) :=
  ⟨[c], by simp [encode], by simpa⟩

-- The characters of a text are the ones it decodes to.
theorem iff_decode : Spells P text ↔ encode (decode text) = text ∧ ∀ c ∈ decode text, P c where
  mp h := by
    have ⟨chars, he, hc⟩ := h
    rw [← he, decode_encode]
    exact ⟨rfl, hc⟩
  mpr h := ⟨_, h⟩

end Spells

-- The text with a replacement character for every byte that belongs to no character.
def repair (text : Bytes) : Bytes :=
  encode (decode text)

theorem repair_eq_iff {text text' : Bytes} : repair text = repair text' ↔ decode text = decode text' where
  mp h := by
    have := congrArg decode h
    rwa [repair, repair, decode_encode, decode_encode] at this
  mpr  := congrArg encode

theorem IsValid.repair_eq {text : Bytes} (h : IsValid text) : repair text = text :=
  (Spells.iff_decode.mp h).left

section

variable {c : Char} {b : UInt8}

theorem toNat_ofNat {n : ℕ} (h : n.isValidChar) : (Char.ofNat n).val.toNat = n := by
  simp [Char.ofNat, h, Char.ofNatAux]

theorem utf8EncodeChar_of_ascii (h : b < 0x80) : utf8EncodeChar (Char.ofNat b.toNat) = [b] := by
  have hb : b.toNat < 128 := h
  rw [utf8EncodeChar, toNat_ofNat (.inl <| by omega), if_pos (by omega), UInt8.ofNat_toNat]

theorem utf8EncodeChar_byte (h : c.val.toNat < 0x80) : utf8EncodeChar c = [byte c] := by
  have hv : (byte c).toNat = c.val.toNat := UInt8.toNat_ofNat_of_lt' (h.trans (by decide))
  rw [← utf8EncodeChar_of_ascii (UInt8.lt_iff_toNat_lt.mpr (hv ▸ h)), hv]
  exact congrArg _ (Char.ofNat_toNat c).symm

theorem decode_map_byte {chars : List Char} (h : ∀ c ∈ chars, c.val.toNat < 0x80) :
    decode (chars.map byte) = chars := by
  have he : encode chars = chars.map byte := by
    rw [encode, List.flatMap_congr fun c hc => utf8EncodeChar_byte (h c hc)]
    exact List.flatMap_pure_eq_map byte chars
  rw [← he, decode_encode]

-- The bytes of a character, as numbers, and the characters that take one, two, three or four of them.
inductive Encoded (c : Char) : List ℕ → Prop
  | one   : c.val.toNat ≤ 0x7F → Encoded c [c.val.toNat]
  | two   : 0x80 ≤ c.val.toNat → c.val.toNat ≤ 0x7FF →
    Encoded c [c.val.toNat / 64 + 0xC0, c.val.toNat % 64 + 0x80]
  | three : 0x800 ≤ c.val.toNat → c.val.toNat ≤ 0xFFFF →
    Encoded c [c.val.toNat / 4096 + 0xE0, c.val.toNat / 64 % 64 + 0x80, c.val.toNat % 64 + 0x80]
  | four  : 0x10000 ≤ c.val.toNat → c.val.toNat ≤ 0x10FFFF →
    Encoded c [c.val.toNat / 262144 + 0xF0, c.val.toNat / 4096 % 64 + 0x80, c.val.toNat / 64 % 64 + 0x80,
      c.val.toNat % 64 + 0x80]

theorem encoded (c : Char) : Encoded c ((utf8EncodeChar c).map UInt8.toNat) := by
  have hv : c.val.toNat ≤ 0x10FFFF := by
    have := c.valid
    simp only [UInt32.isValidChar, Nat.isValidChar] at this
    omega
  have ho (n : ℕ) (h : n < 256) : (UInt8.ofNat n).toNat = n := UInt8.toNat_ofNat_of_lt' h
  simp only [utf8EncodeChar]
  by_cases h₁ : c.val.toNat ≤ 0x7F
  case pos =>
    simp only [h₁, if_true, List.map_cons, List.map_nil, ho _ (by omega : c.val.toNat < 256)]
    exact .one h₁
  by_cases h₂ : c.val.toNat ≤ 0x7FF
  case pos =>
    simp (disch := omega) only [h₁, h₂, if_true, if_false, List.map_cons, List.map_nil, ho]
    rw [Nat.mod_eq_of_lt (by omega)]
    exact .two (by omega) h₂
  by_cases h₃ : c.val.toNat ≤ 0xFFFF
  case pos =>
    simp (disch := omega) only [h₁, h₂, h₃, if_true, if_false, List.map_cons, List.map_nil, ho]
    rw [Nat.mod_eq_of_lt (by omega)]
    exact .three (by omega) h₃
  case neg =>
    simp (disch := omega) only [h₁, h₂, h₃, if_false, List.map_cons, List.map_nil, ho]
    rw [Nat.mod_eq_of_lt (by omega)]
    exact .four (by omega) hv

theorem Encoded.unique {bytes bytes' : List ℕ} (h : Encoded c bytes) (h' : Encoded c bytes') :
    bytes' = bytes := by
  cases h <;> cases h' <;> first | rfl | omega

-- Only a character below 128 has a byte below 128.
theorem eq_of_mem_utf8EncodeChar (hm : b ∈ utf8EncodeChar c) (h : b < 0x80) : c.val.toNat = b.toNat := by
  have hb : b.toNat < 128 := h
  have hm := List.mem_map_of_mem (f := UInt8.toNat) hm
  have he := encoded c
  generalize (utf8EncodeChar c).map UInt8.toNat = bytes at hm he
  cases he <;> simp only [List.mem_cons, List.not_mem_nil, or_false] at hm <;> omega

theorem Spells.exists_of_mem {P : Char → Prop} {text : Bytes} (h : Spells P text) (hb : b ∈ text)
    (hl : b < 0x80) : ∃ c, P c ∧ c.val.toNat = b.toNat := by
  have ⟨chars, he, hc⟩ := h
  have ⟨c, hm, hb⟩ := List.mem_flatMap.mp (he ▸ hb)
  exact ⟨c, hc c hm, eq_of_mem_utf8EncodeChar hb hl⟩

theorem le_of_mem_utf8EncodeChar (hm : b ∈ utf8EncodeChar c) (h : 0x80 ≤ b) : 0x80 ≤ c.val.toNat := by
  have hb : 128 ≤ b.toNat := h
  have hm := List.mem_map_of_mem (f := UInt8.toNat) hm
  have he := encoded c
  generalize (utf8EncodeChar c).map UInt8.toNat = bytes at hm he
  cases he
  case one  => rwa [List.mem_singleton.mp hm] at hb
  case two  => assumption
  all_goals omega

-- A character of more than one byte has no ASCII byte.
theorem le_of_mem_of_lt_length (hm : b ∈ utf8EncodeChar c) (hl : 1 < (utf8EncodeChar c).length) : 0x80 ≤ b := by
  by_contra hb
  have hc := eq_of_mem_utf8EncodeChar hm (UInt8.not_le.mp hb)
  rw [utf8EncodeChar_byte (hc ▸ UInt8.not_le.mp hb)] at hl
  simp at hl

-- A text is cut next to an ASCII byte without cutting a character.
theorem IsValid.of_append {left right : Bytes} (h : IsValid (left ++ right))
    (ha : ∀ a ∈ left.getLast?, ∀ b ∈ right.head?, 0x80 ≤ a → b < 0x80) : IsValid left ∧ IsValid right := by
  obtain ⟨chars, he, -⟩ := h
  induction chars generalizing left
  case nil =>
    have ⟨hl, hr⟩ := List.append_eq_nil_iff.mp he.symm
    exact ⟨hl ▸ .nil, hr ▸ .nil⟩
  case cons c chars hi =>
    rw [encode, List.flatMap_cons, ← encode] at he
    have hu : IsValid (utf8EncodeChar c) := .char trivial
    have hc : IsValid (encode chars) := ⟨chars, rfl, fun _ _ => trivial⟩
    rcases List.append_eq_append_iff.mp he with ⟨left', hl, hr⟩ | ⟨tail, ht, hr⟩
    case inl =>
      have ⟨hv, hr⟩ := hi (fun a hm => ha a (by simp [hl, List.getLast?_append, Option.mem_def.mp hm])) hr
      exact ⟨hl ▸ hu.append hv, hr⟩
    case inr =>
      rcases List.eq_nil_or_concat left with hn | ⟨left', a, hl⟩
      case inl =>
        rw [hn, List.nil_append] at ht
        exact ⟨hn ▸ .nil, hr ▸ ht ▸ hu.append hc⟩
      case inr =>
        cases tail
        case nil =>
          rw [List.append_nil] at ht
          exact ⟨ht ▸ hu, hr ▸ hc⟩
        case cons b tail =>
          have hlen : 1 < (utf8EncodeChar c).length := by simp [ht, hl]; omega
          have hm : 0x80 ≤ a := le_of_mem_of_lt_length (by simp [ht, hl]) hlen
          have hb : 0x80 ≤ b := le_of_mem_of_lt_length (by simp [ht]) hlen
          exact absurd (ha a (by simp [hl]) b (by simp [hr]) hm) (UInt8.not_lt.mpr hb)

end

end Utf8
