import Howlinux.Library.Utf8

open Bytes

inductive Json
  | null
  | bool (value : Bool)
  | number (text : Bytes)
  | string (chars : List Char)
  | array (items : List Json)
  | object (members : List (List Char × Json))

namespace Json

def quote (content : Bytes) : Bytes :=
  byte '"' :: content ++ [byte '"']

def hexValue (b : UInt8) : Option ℕ :=
  if byte '0' ≤ b ∧ b ≤ byte '9' then
    some (b - byte '0').toNat
  else if byte 'A' ≤ b ∧ b ≤ byte 'F' then
    some ((b - byte 'A').toNat + 10)
  else if byte 'a' ≤ b ∧ b ≤ byte 'f' then
    some ((b - byte 'a').toNat + 10)
  else
    none

-- The number that four hexadecimal digits stand for.
def hexNumber : Bytes → Option ℕ
  | b₁ :: b₂ :: b₃ :: b₄ :: _ => do
    let d₁ ← hexValue b₁
    let d₂ ← hexValue b₂
    let d₃ ← hexValue b₃
    let d₄ ← hexValue b₄
    return ((d₁ * 16 + d₂) * 16 + d₃) * 16 + d₄
  | _ => none

def shortEscape (b : UInt8) : Option Char :=
  [('"', '"'), ('\\', '\\'), ('/', '/'), ('b', Char.ofNat 8), ('f', Char.ofNat 12), ('n', Char.ofNat 10),
    ('r', Char.ofNat 13), ('t', Char.ofNat 9)].lookup (Char.ofNat b.toNat)

-- The character of an escape sequence whose backslash has been read, and the length of the rest of
-- the sequence. A high surrogate has to be followed by the escape sequence of a low one.
def escape : Bytes → Option (Char × ℕ)
  | []        => none
  | b :: rest =>
    if b = byte 'u' then do
      let high ← hexNumber rest
      if high < 0xD800 ∨ 0xE000 ≤ high then
        return (Char.ofNat high, 5)
      else if high < 0xDC00 ∧ startsWith (rest.drop 4) (ascii "\\u") then
        let low ← hexNumber (rest.drop 6)
        if 0xDC00 ≤ low ∧ low < 0xE000 then
          return (Char.ofNat (0x10000 + (high - 0xD800) * 0x400 + (low - 0xDC00)), 11)
        else
          none
      else
        none
    else
      (shortEscape b).map (·, 1)

-- The characters that the content of a string literal stands for.
def unescape : Bytes → Option (List Char)
  | [] => some []
  | b :: rest =>
    if b = byte '\\' then
      match escape rest with
      | none        => none
      | some (c, n) => (c :: ·) <$> unescape (rest.drop n)
    else if b < 0x20 ∨ b = byte '"' then
      none
    else
      match Utf8.front? (b :: rest) with
      | none   => none
      | some c => (c :: ·) <$> unescape (rest.drop (c.utf8Size - 1))
termination_by content => content.length

-- The characters of a string literal with its quotation marks.
def literal : Bytes → Option (List Char)
  | []        => none
  | b :: rest =>
    if b = byte '"' ∧ rest.getLast? = some (byte '"') then unescape rest.dropLast else none

theorem literal_quote (content : Bytes) : literal (quote content) = unescape content := by
  simp [quote, literal]

section

variable {b : UInt8} {c : Char} {rest digits : Bytes}

open String

theorem unescape_escape {n : ℕ} (h : escape rest = some (c, n)) :
    unescape (byte '\\' :: rest) = (c :: ·) <$> unescape (rest.drop n) := by
  rw [unescape, if_pos rfl, h]

theorem unescape_shortEscape (h : shortEscape b = some c) (hu : b ≠ byte 'u') :
    unescape (byte '\\' :: b :: rest) = (c :: ·) <$> unescape rest :=
  unescape_escape (n := 1) (by rw [escape, if_neg hu, h, Option.map_some])

theorem unescape_unicode {n : ℕ} (hd : digits.length = 4) (hn : hexNumber digits = some n)
    (hc : n < 0xD800 ∨ 0xE000 ≤ n) :
    unescape (byte '\\' :: byte 'u' :: digits ++ rest) = (Char.ofNat n :: ·) <$> unescape rest := by
  have hr : hexNumber (digits ++ rest) = some n := by
    match digits, hd with
    | [_, _, _, _], _ => exact hn
  have he : escape (byte 'u' :: (digits ++ rest)) = some (Char.ofNat n, 5) := by
    simp [escape, hr, hc]
  rw [List.cons_append, List.cons_append, unescape_escape he]
  simp [hd]

-- Characters other than quotation marks, backslashes and controls stand for themselves.
theorem unescape_char (hc : 0x20 ≤ c.val.toNat) (hq : c ≠ '"') (hb : c ≠ '\\') :
    unescape (utf8EncodeChar c ++ rest) = (c :: ·) <$> unescape rest := by
  have hf : Utf8.front? (utf8EncodeChar c ++ rest) = some c := Utf8.front?_append
  have hl := length_utf8EncodeChar c
  have hm : ∀ b ∈ utf8EncodeChar c, b < 0x80 → c.val.toNat = b.toNat :=
    fun _ => Utf8.eq_of_mem_utf8EncodeChar
  cases he : utf8EncodeChar c
  case nil => have := c.utf8Size_pos; simp [he] at hl; omega
  case cons b tail =>
    simp only [he, List.cons_append, List.length_cons, List.mem_cons, forall_eq_or_imp] at hf hl hm ⊢
    have hne (d : Char) (hd : d.val.toNat < 0x80) (h : c ≠ d) : b ≠ byte d := fun hbd => by
      have hd' : b.toNat = d.val.toNat := hbd ▸ UInt8.toNat_ofNat_of_lt' (hd.trans (by decide))
      refine h <| Char.ext <| UInt32.toNat_inj.mp ?_
      rw [hm.left (UInt8.lt_iff_toNat_lt.mpr (by rw [hd']; exact hd)), hd']
    have hr : (tail ++ rest).drop (c.utf8Size - 1) = rest := by
      rw [← hl, Nat.add_sub_cancel, List.drop_left]
    have hn : ¬b < 0x20 := fun hlt => by
      have := hm.left <| hlt.trans (by decide)
      have : b.toNat < 32 := hlt
      omega
    rw [unescape, if_neg (hne '\\' (by decide) hb), if_neg (by simp [hn, hne '"' (by decide) hq]), hf]
    exact congrArg (fun rest => (c :: ·) <$> unescape rest) hr

end

def IsDigit (b : UInt8) : Prop :=
  byte '0' ≤ b ∧ b ≤ byte '9'

inductive IsInteger : Bytes → Prop
  | zero   : IsInteger [byte '0']
  | digits : IsDigit b → b ≠ byte '0' → (∀ b ∈ digits, IsDigit b) → IsInteger (b :: digits)

inductive IsFraction : Bytes → Prop
  | none   : IsFraction []
  | digits : digits ≠ [] → (∀ b ∈ digits, IsDigit b) → IsFraction (byte '.' :: digits)

inductive IsExponent : Bytes → Prop
  | none   : IsExponent []
  | digits : e ∈ ascii "eE" → sign ∈ [[], ascii "+", ascii "-"] → digits ≠ [] →
    (∀ b ∈ digits, IsDigit b) → IsExponent (e :: sign ++ digits)

inductive IsNumber : Bytes → Prop
  | intro : sign ∈ [[], ascii "-"] → IsInteger int → IsFraction frac → IsExponent exp →
    IsNumber (sign ++ int ++ frac ++ exp)

theorem decimal_eq_cons {n : ℕ} (h : 0 < n) :
    ∃ b digits, decimal n = b :: digits ∧ b ≠ byte '0' := by
  induction n using Nat.strongRecOn
  case ind n hi =>
    by_cases hn : n < 10
    case pos =>
      have : ∀ d < 10, 0 < d → byte (Nat.digitChar d) ≠ byte '0' := by decide
      exact ⟨_, [], by rw [decimal, Nat.toDigits_of_lt_base hn]; rfl, this n hn h⟩
    case neg =>
      have hd : 0 < n / 10 := by omega
      have ⟨b, digits, he, hb⟩ := hi (n / 10) (by omega) hd
      refine ⟨b, digits ++ [byte (Nat.digitChar (n % 10))], ?_, hb⟩
      rw [decimal, Nat.toDigits_of_base_le (by decide) (by omega), List.map_append, ← decimal, he]
      rfl

theorem isInteger_decimal (n : ℕ) : IsInteger (decimal n) := by
  rcases Nat.eq_zero_or_pos n with hn | hn
  case inl => exact hn ▸ .zero
  case inr =>
    have ⟨b, digits, he, hb⟩ := decimal_eq_cons hn
    have hd : ∀ d ∈ b :: digits, IsDigit d := fun d hd => digit_of_mem_decimal (he ▸ hd)
    rw [he]
    exact .digits (hd b List.mem_cons_self) hb fun d h => hd d (List.mem_cons_of_mem _ h)

theorem isNumber_decimal (n : ℕ) : IsNumber (decimal n) := by
  have : IsNumber ([] ++ decimal n ++ [] ++ []) :=
    .intro List.mem_cons_self (isInteger_decimal n) .none .none
  simpa using this

mutual

-- The texts of a value without insignificant blanks.
inductive Text : Json → Bytes → Prop
  | null   : Text null (ascii "null")
  | true   : Text (bool true) (ascii "true")
  | false  : Text (bool false) (ascii "false")
  | number : IsNumber text → Text (number text) text
  | string : unescape content = some chars → Text (string chars) (quote content)
  | array  : List.Forall₂ Text items texts → Text (array items)
    (byte '[' :: [byte ','].intercalate texts ++ [byte ']'])
  | object : List.Forall₂ Member members texts → Text (object members)
    (byte '\x7b' :: [byte ','].intercalate texts ++ [byte '\x7d'])

inductive Member : List Char × Json → Bytes → Prop
  | intro : unescape name = some chars → Text value text →
    Member (chars, value) (quote name ++ byte ':' :: text)

end

-- A member with a name.
def named (name : String) (value : Json) : List Char × Json :=
  (name.toList, value)

-- The value of the first member with a name.
def member (name : String) : Json → Option Json
  | object members => members.lookup name.toList
  | _              => none

-- A character that is written as one byte and needs no escape.
def isPlain (c : Char) : Bool :=
  0x20 ≤ c.val.toNat && c.val.toNat < 0x7F && c != '"' && c != '\\'

-- An object up to its last member, without the closing brace.
inductive Opened : List (List Char × Json) → Bytes → Prop
  | intro : texts ≠ [] → List.Forall₂ Member members texts →
    Opened members (byte '\x7b' :: [byte ','].intercalate texts)

section

variable {chars : List Char} {value : Json} {members : List (List Char × Json)}
  {m : List Char × Json} {text memberText : Bytes}

theorem lt_of_isPlain {c : Char} (h : isPlain c) : c.val.toNat < 0x80 := by
  simp only [isPlain, Bool.and_eq_true, decide_eq_true_eq] at h
  exact h.left.left.right.trans (by decide)

theorem unescape_plain (h : chars.all isPlain) : unescape (chars.map byte) = some chars := by
  induction chars
  case nil => rw [List.map_nil, unescape]
  case cons c chars hi =>
    rw [List.all_cons, Bool.and_eq_true] at h
    have hp := h.left
    simp only [isPlain, Bool.and_eq_true, decide_eq_true_eq, bne_iff_ne] at hp
    have ⟨⟨⟨hl, hu⟩, hq⟩, hb⟩ := hp
    rw [List.map_cons, ← List.singleton_append, ← Utf8.utf8EncodeChar_byte (hu.trans (by decide)),
      unescape_char hl hq hb, hi h.right]
    rfl

theorem Opened.first (h : Member m memberText) : Opened [m] (byte '\x7b' :: memberText) := by
  have : Opened [m] (byte '\x7b' :: [byte ','].intercalate [memberText]) :=
    .intro (List.cons_ne_nil _ _) (.cons h .nil)
  rwa [List.intercalate_singleton] at this

theorem Opened.snoc (h : Opened members text) (hm : Member m memberText) :
    Opened (members ++ [m]) (text ++ byte ',' :: memberText) := by
  cases h
  case intro texts hn hf =>
    have : Opened (members ++ [m]) (byte '\x7b' :: [byte ','].intercalate (texts ++ [memberText])) :=
      .intro (by simp) (List.rel_append hf (.cons hm .nil))
    rw [intercalate_concat hn] at this
    simpa using this

theorem Opened.close (h : Opened members text) : Text (object members) (text ++ [byte '\x7d']) := by
  cases h
  case intro hn hf => exact .object hf

end

end Json
