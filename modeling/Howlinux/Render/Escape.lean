import Howlinux.Library.Bytes

open Bytes

namespace Howlinux

def hexDigits : Bytes :=
  ascii "0123456789ABCDEF"

def hexDigit (value : UInt32) : UInt8 :=
  hexDigits.getD (value &&& 0x0F).toNat 0

theorem hexDigit_eq (value : UInt32) : hexDigit value = hexDigits.getD (value.toNat % 16) 0 :=
  congrArg (hexDigits.getD · 0) (Nat.and_two_pow_sub_one_eq_mod _ 4)

-- What holds of the sixteen digits holds of the digit of any value.
theorem hexDigit_of_digits {p : UInt8 → Bool} (h : ∀ n < 16, p (hexDigits.getD n 0)) (value : UInt32) :
    p (hexDigit value) :=
  hexDigit_eq value ▸ h _ (Nat.mod_lt _ (Nat.succ_pos 15))

def humanSafeByte (b : UInt8) : Bytes :=
  if b = 8 then
    ascii "\\b"
  else if b = 12 then
    ascii "\\f"
  else if b = byte '\n' then
    ascii "\\n"
  else if b = byte '\r' then
    ascii "\\r"
  else if b = byte '\t' then
    ascii "\\t"
  else if b < 0x20 ∨ b = 0x7F then
    ascii "\\x" ++ [hexDigit (b >>> 4).toUInt32, hexDigit b.toUInt32]
  else
    [b]

def humanSafe (value : Bytes) : Bytes :=
  value.flatMap humanSafeByte

def isContinuationByte (b : UInt8) : Bool :=
  0x80 ≤ b && b ≤ 0xBF

def isSecondOfThree (first second : UInt8) : Bool :=
  (first == 0xE0 && 0xA0 ≤ second && second ≤ 0xBF) ||
  (first == 0xED && 0x80 ≤ second && second ≤ 0x9F) ||
  ((0xE1 ≤ first && first ≤ 0xEC) && isContinuationByte second) ||
  ((0xEE ≤ first && first ≤ 0xEF) && isContinuationByte second)

def isSecondOfFour (first second : UInt8) : Bool :=
  (first == 0xF0 && 0x90 ≤ second && second ≤ 0xBF) ||
  (first == 0xF4 && 0x80 ≤ second && second ≤ 0x8F) ||
  ((0xF1 ≤ first && first ≤ 0xF3) && isContinuationByte second)

-- The length and the code point of the sequence that a text starts with.
def decodeUtf8 : Bytes → Option (ℕ × UInt32)
  | [] => none
  | first :: rest =>
    if first ≤ 0x7F then
      some (1, first.toUInt32)
    else if 0xC2 ≤ first ∧ first ≤ 0xDF then
      match rest with
      | second :: _ =>
        if !isContinuationByte second then none else
          some (2, (first &&& 0x1F).toUInt32 <<< 6 ||| (second &&& 0x3F).toUInt32)
      | _ => none
    else if 0xE0 ≤ first ∧ first ≤ 0xEF then
      match rest with
      | second :: third :: _ =>
        if !isSecondOfThree first second || !isContinuationByte third then none else
          some (3, (first &&& 0x0F).toUInt32 <<< 12 ||| (second &&& 0x3F).toUInt32 <<< 6 |||
            (third &&& 0x3F).toUInt32)
      | _ => none
    else if 0xF0 ≤ first ∧ first ≤ 0xF4 then
      match rest with
      | second :: third :: fourth :: _ =>
        if !isSecondOfFour first second || !isContinuationByte third || !isContinuationByte fourth then
          none
        else
          some (4, (first &&& 0x07).toUInt32 <<< 18 ||| (second &&& 0x3F).toUInt32 <<< 12 |||
            (third &&& 0x3F).toUInt32 <<< 6 ||| (fourth &&& 0x3F).toUInt32)
      | _ => none
    else
      none

def unicodeEscape (codePoint : UInt32) : Bytes :=
  ascii "\\u" ++ [hexDigit (codePoint >>> 12), hexDigit (codePoint >>> 8), hexDigit (codePoint >>> 4),
    hexDigit codePoint]

def escapeByte (b : UInt8) : Bytes :=
  if b = byte '"' then
    ascii "\\\""
  else if b = byte '\\' then
    ascii "\\\\"
  else if b = 8 then
    ascii "\\b"
  else if b = 12 then
    ascii "\\f"
  else if b = byte '\n' then
    ascii "\\n"
  else if b = byte '\r' then
    ascii "\\r"
  else if b = byte '\t' then
    ascii "\\t"
  else if b < 0x20 ∨ b = 0x7F then
    unicodeEscape b.toUInt32
  else
    [b]

-- C1 controls and the two separators are escaped although JSON allows them.
def isEscapedCodePoint (codePoint : UInt32) : Bool :=
  (0x80 ≤ codePoint && codePoint ≤ 0x9F) || codePoint == 0x2028 || codePoint == 0x2029

def escapeJson : Bytes → Bytes
  | [] => []
  | b :: rest =>
    if b ≤ 0x7F then
      escapeByte b ++ escapeJson rest
    else
      match decodeUtf8 (b :: rest) with
      | none => ascii "\\uFFFD" ++ escapeJson rest
      | some (length, codePoint) =>
        (if isEscapedCodePoint codePoint then unicodeEscape codePoint else (b :: rest).take length) ++
          escapeJson (rest.drop (length - 1))
termination_by value => value.length

end Howlinux
