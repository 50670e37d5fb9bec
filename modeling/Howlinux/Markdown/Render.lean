import Howlinux.Knowledge.Entry
import Howlinux.Query.Tokenizer
import Howlinux.Render.Escape

open Bytes

namespace Howlinux

def isBlank (b : UInt8) : Bool :=
  b == byte ' ' || b == byte '\t' || b == byte '\r'

def trim (text : Bytes) : Bytes :=
  (text.dropWhile isBlank).rdropWhile isBlank

def literalByte (ch : UInt8) : Bytes :=
  if (ch < 32 && ch != byte '\t' && ch != byte '\n') || ch == 127 then
    ascii "\\x" ++ [hexDigit (ch >>> 4).toUInt32, hexDigit ch.toUInt32]
  else
    [ch]

-- Preserve text layout and escape ASCII terminal controls from content.
def literal (text : Bytes) : Bytes :=
  text.flatMap literalByte

-- The parameters of a terminal's select-graphic-rendition sequence.
def style (parameters : String) : Bytes :=
  27 :: byte '[' :: ascii parameters ++ [byte 'm']

def styled (text : Bytes) (parameters : String) (color : Bool) : Bytes :=
  (if color then style parameters else []) ++ literal text ++ (if color then style "0" else [])

def whitespace (ch : UInt8) : Bool :=
  isSpace ch

def isAlphanumeric (ch : UInt8) : Bool :=
  isAsciiLetter ch || isAsciiDigit ch

-- Each kind of span that starts at a position answers what it prints and where it ends.
section

variable (text : Bytes) (color : Bool) (pos : ℕ)

def escapedSpan : Option (Bytes × ℕ) :=
  match text.drop pos with
  | b :: ch :: _ =>
    if b = byte '\\' ∧ ch ∈ ascii "\\`*_\x7b\x7d[]()#+-.!>" then some (literal [ch], pos + 2) else none
  | _ => none

def touchesBacktick (start stop : ℕ) : Bool :=
  (0 < start && text[start - 1]? == some (byte '`')) || text[stop]? == some (byte '`')

-- The next run of exactly `count + 1` backticks.
def closingBackticks (count start : ℕ) : Option ℕ :=
  match _h : find text (List.replicate (count + 1) (byte '`')) start with
  | none      => none
  | some stop =>
    if touchesBacktick text stop (stop + (count + 1)) then
      closingBackticks count (stop + (count + 1))
    else
      some stop
termination_by text.length + 1 - start
decreasing_by
  have hl := List.mem_range.mp <| List.mem_of_find?_eq_some _h
  have hs := (find_eq_some _h).left
  omega

def codeSpan : Option (Bytes × ℕ) :=
  match (text.drop pos).takeWhile (· == byte '`') with
  | []             => none
  | _ :: backticks =>
    let start := pos + (backticks.length + 1)
    match closingBackticks text backticks.length start with
    | none      => some (literal (byte '`' :: backticks), start)
    | some stop =>
      let code := ((text.take stop).drop start).map fun ch => if ch == byte '\n' then byte ' ' else ch
      some (styled code "36" color, stop + (backticks.length + 1))

-- The offset of the parenthesis that closes the last one of `depth`.
def closingParenthesis (depth : ℕ) : Bytes → Option ℕ
  | []        => none
  | b :: rest =>
    if b = byte '(' then
      (closingParenthesis (depth + 1) rest).map (· + 1)
    else if b = byte ')' then
      if depth = 1 then some 0 else (closingParenthesis (depth - 1) rest).map (· + 1)
    else
      (closingParenthesis depth rest).map (· + 1)

def linkSpan : Option (Bytes × ℕ) :=
  if text[pos]? = some (byte '[') then do
    let labelEnd ← find text (ascii "](") (pos + 1)
    let offset   ← closingParenthesis 1 (text.drop (labelEnd + 2))
    let label    := (text.take labelEnd).drop (pos + 1)
    let url      := (text.drop (labelEnd + 2)).take offset
    return (styled label "4" color ++
      (if url = label then [] else ascii " (" ++ literal url ++ ascii ")"), labelEnd + 2 + offset + 1)
  else
    none

def isEmphasisMarker (ch : UInt8) : Bool :=
  ch == byte '*' || ch == byte '_'

def emphasisCount (marker : UInt8) : ℕ :=
  if text[pos + 1]? = some marker then 2 else 1

def emphasisSpan : Option (Bytes × ℕ) := do
  let marker ← text[pos]?
  let count := emphasisCount text pos marker
  let start := pos + count
  let boundary := pos == 0 || !(text[pos - 1]?.any isAlphanumeric)
  if isEmphasisMarker marker ∧ boundary ∧ text[start]?.any (!whitespace ·) then do
    let stop ← find text ((text.drop pos).take count) start
    if start < stop ∧ text[stop - 1]?.any (!whitespace ·) ∧ !(text[stop + count]?.any isAlphanumeric) then
      return (styled ((text.take stop).drop start) (if count = 2 then "1" else "3") color, stop + count)
    else
      none
  else
    none

def inlineSpan : Bytes × ℕ :=
  (escapedSpan text pos <|> codeSpan text color pos <|> linkSpan text color pos <|>
    emphasisSpan text color pos).getD (literal (text[pos]?.toList), pos + 1)

end

section

variable {text output : Bytes} {color : Bool} {pos next : ℕ}

theorem lt_of_escapedSpan (h : escapedSpan text pos = some (output, next)) : pos < next := by
  unfold escapedSpan at h
  split at h
  case h_1 =>
    split at h
    case isTrue  => cases h; omega
    case isFalse => contradiction
  case h_2 => contradiction

theorem le_of_closingBackticks {count start stop : ℕ} (h : closingBackticks text count start = some stop) :
    start ≤ stop := by
  fun_induction closingBackticks text count start
  case case1 => contradiction
  case case2 hf _ hi => have := (find_eq_some hf).left; have := hi h; omega
  case case3 hf _    => cases h; exact (find_eq_some hf).left

theorem lt_of_codeSpan (h : codeSpan text color pos = some (output, next)) : pos < next := by
  unfold codeSpan at h
  split at h
  case h_1 => contradiction
  case h_2 =>
    dsimp only at h
    split at h
    case h_1      => cases h; omega
    case h_2 hc   => have := le_of_closingBackticks hc; cases h; omega

theorem lt_of_linkSpan (h : linkSpan text color pos = some (output, next)) : pos < next := by
  unfold linkSpan at h
  split at h
  case isTrue =>
    have ⟨labelEnd, hf, h⟩ := Option.bind_eq_some_iff.mp h
    have ⟨offset, _, h⟩ := Option.bind_eq_some_iff.mp h
    have := (find_eq_some hf).left
    cases h
    omega
  case isFalse => contradiction

theorem lt_of_emphasisSpan (h : emphasisSpan text color pos = some (output, next)) : pos < next := by
  have ⟨marker, _, h⟩ := Option.bind_eq_some_iff.mp h
  dsimp only at h
  split at h
  case isTrue =>
    have ⟨stop, hf, h⟩ := Option.bind_eq_some_iff.mp h
    have := (find_eq_some hf).left
    split at h
    case isTrue hs => cases h; omega
    case isFalse   => contradiction
  case isFalse => contradiction

-- Every span takes up at least one byte.
theorem lt_inlineSpan : pos < (inlineSpan text color pos).2 := by
  unfold inlineSpan
  cases he : escapedSpan text pos
  case some => exact lt_of_escapedSpan he
  cases hc : codeSpan text color pos
  case some => exact lt_of_codeSpan hc
  cases hl : linkSpan text color pos
  case some => exact lt_of_linkSpan hl
  cases hm : emphasisSpan text color pos
  case some => exact lt_of_emphasisSpan hm
  exact Nat.lt_succ_self pos

end

def inlineFrom (text : Bytes) (color : Bool) (pos : ℕ) : Bytes :=
  if pos < text.length then
    (inlineSpan text color pos).1 ++ inlineFrom text color (inlineSpan text color pos).2
  else
    []
termination_by text.length - pos
decreasing_by
  have : pos < (inlineSpan text color pos).2 := lt_inlineSpan
  omega

def inlineText (text : Bytes) (color : Bool) : Bytes :=
  inlineFrom text color 0

-- An open code fence of the renderer.
structure Fence where
  marker : UInt8
  length : ℕ
  indent : ℕ
  deriving DecidableEq, Repr

structure MarkdownState where
  fence     : Option Fence := none
  paragraph : Bytes := []
  deriving DecidableEq, Repr

-- What a line is for the fences: inside of one, its end, the start of one, or any other line.
inductive FenceLine
  | closing
  | code
  | opening (fence : Fence)
  | text
  deriving DecidableEq, Repr

section

variable (line : Bytes)

-- The number of spaces before a line's first other byte.
def indentation : Option ℕ :=
  if line.all (· == byte ' ') then none else some (line.takeWhile (· == byte ' ')).length

def isFenceByte (b : UInt8) : Bool :=
  b == byte '`' || b == byte '~'

-- The marker of the run that a body starts with, its length and what follows it.
def bodyRun (body : Bytes) : Option (UInt8 × ℕ × Bytes) :=
  match body with
  | []         => none
  | marker :: _ =>
    let run := body.takeWhile (· == marker)
    if isFenceByte marker then some (marker, run.length, body.drop run.length) else none

def fenceCandidate : Option (UInt8 × ℕ × Bytes) :=
  (bodyRun (trim line)).filter fun (_, run, _) => (indentation line).any (· ≤ 3) && 3 ≤ run

def fenceLine (fence : Option Fence) : FenceLine :=
  match fence, fenceCandidate line with
  | some fence, some (marker, run, rest) =>
    if marker = fence.marker ∧ fence.length ≤ run ∧ (trim rest).isEmpty then .closing else .code
  | some _, none => .code
  | none, some (marker, run, rest) =>
    if marker ≠ byte '`' ∨ byte '`' ∉ rest then
      .opening { marker, length := run, indent := (indentation line).getD 0 }
    else
      .text
  | none, none => .text

variable (color : Bool)

def flushParagraph (paragraph : Bytes) : Bytes :=
  if paragraph.isEmpty then [] else inlineText paragraph color ++ [byte '\n']

-- Remove only the opening fence's indentation; code stays literal.
def fencedCode (indent : ℕ) : Bytes :=
  let removed := min indent (line.takeWhile (· == byte ' ')).length
  ascii "    " ++ styled (line.drop removed) "36" color ++ [byte '\n']

def headingTitle (text : Bytes) : Bytes :=
  let title  := trim text
  let hashes := title.rtakeWhile (· == byte '#')
  let kept   := title.rdropWhile (· == byte '#')
  if !hashes.isEmpty && kept.getLast?.any whitespace then trim kept.dropLast else title

def heading (level : ℕ) (title : Bytes) : Bytes :=
  (if color then style "1;36" else []) ++ inlineText title false ++ (if color then style "0" else []) ++
    [byte '\n'] ++
    if color then [] else
      List.replicate title.length (if level = 1 then byte '=' else byte '-') ++ [byte '\n']

def renderText (paragraph : Bytes) : Bytes × Bytes :=
  let body  := trim line
  let level := (body.takeWhile (· == byte '#')).length
  if ((indentation line).all (4 ≤ ·) || startsWith line [byte '\t']) && !body.isEmpty then
    (flushParagraph color paragraph ++ styled line "36" color ++ [byte '\n'], [])
  else if 1 ≤ level ∧ level ≤ 6 ∧ body[level]?.all whitespace then
    (flushParagraph color paragraph ++ heading color level (headingTitle (body.drop level)), [])
  else if startsWith body (ascii "> ") ∨ body = ascii ">" then
    (flushParagraph color paragraph ++ ascii "  | " ++ inlineText (body.drop 2) color ++ [byte '\n'], [])
  else if startsWith body (ascii "- ") ∨ startsWith body (ascii "* ") ∨ startsWith body (ascii "+ ") then
    (flushParagraph color paragraph ++ List.replicate ((indentation line).getD 0) (byte ' ') ++
      ascii "  - " ++ inlineText (body.drop 2) color ++ [byte '\n'], [])
  else if body.isEmpty then
    (flushParagraph color paragraph ++ [byte '\n'], [])
  else
    ([], if paragraph.isEmpty then line else paragraph ++ byte '\n' :: line)

def renderLine (state : MarkdownState) : Bytes × MarkdownState :=
  match fenceLine line state.fence with
  | .closing       => ([], { state with fence := none })
  | .code          => (fencedCode line color ((state.fence.map (·.indent)).getD 0), state)
  | .opening fence => (flushParagraph color state.paragraph, { fence, paragraph := [] })
  | .text          =>
    let (output, paragraph) := renderText line color state.paragraph
    (output, { state with paragraph })

end

def renderLines (color : Bool) (state : MarkdownState) : List Bytes → Bytes × MarkdownState
  | []           => ([], state)
  | line :: rest =>
    let (output, next) := renderLine (chompReturn line) color state
    let (later, last)  := renderLines color next rest
    (output ++ later, last)

def renderMarkdown (markdown : Bytes) (color : Bool) : Bytes :=
  let (output, state) := renderLines color {} (lines markdown)
  output ++ flushParagraph color state.paragraph

end Howlinux
