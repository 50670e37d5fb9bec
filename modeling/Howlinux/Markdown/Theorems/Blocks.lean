import Howlinux.Markdown.Theorems.CodeBlocks
import Howlinux.Markdown.Theorems.Spans

open Bytes List

namespace Howlinux

-- A line that starts with a run of fence markers, which less than four spaces are before.
structure IsFenceLine (line : Bytes) (marker : UInt8) (count : ℕ) (info : Bytes) : Prop where
  blanks   : ∃ blanks, blanks.all isBlank ∧ line = blanks ++ replicate count marker ++ info
  spaces   : ¬ascii "    " <+: line
  isMarker : marker = byte '`' ∨ marker = byte '~'
  count_ge : 3 ≤ count
  info     : info.head? ≠ some marker

-- The marker of a fence, and how many of them open it.
def OpensFence (line : Bytes) (fence : UInt8 × ℕ) : Prop :=
  ∃ info, IsFenceLine line fence.1 fence.2 info ∧ (fence.1 = byte '`' → byte '`' ∉ info)

def ClosesFence (line : Bytes) (fence : UInt8 × ℕ) : Prop :=
  ∃ count info, IsFenceLine line fence.1 count info ∧ fence.2 ≤ count ∧ info.all isBlank

-- A line of code outside of fences.
def IsIndented (line : Bytes) : Prop :=
  (ascii "    " <+: line ∨ [byte '\t'] <+: line) ∧ ¬line.all isBlank

-- What is behind the title of a heading: blanks, or hashes of their own.
inductive ClosesHeading : Bytes → Prop
  | blanks {blanks : Bytes} : blanks.all isBlank → ClosesHeading blanks
  | hashes {gap blanks : Bytes} {count : ℕ} : gap ≠ [] → gap.all isSpace → blanks.all isBlank →
    ClosesHeading (gap ++ replicate count (byte '#') ++ blanks)

-- The markup before and behind the inline text of a heading, a quote or an item of a list.
inductive Marks : Bytes → Bytes → Bytes → Prop
  | heading {blanks gap title closing : Bytes} {level : ℕ} : blanks.all isBlank → gap.all isBlank →
    1 ≤ level → level ≤ 6 → (gap ++ title ++ closing).head?.all isSpace → ClosesHeading closing →
    Marks (blanks ++ replicate level (byte '#') ++ gap) title closing
  | quote {blanks text trail : Bytes} : blanks.all isBlank → trail.all isBlank →
    Marks (blanks ++ ascii "> ") text trail
  | emptyQuote {blanks trail : Bytes} : blanks.all isBlank → trail.all isBlank →
    Marks (blanks ++ ascii ">") [] trail
  | item {blanks text trail : Bytes} {bullet : UInt8} : blanks.all isBlank → trail.all isBlank →
    bullet ∈ ascii "-*+" → ¬text.all isBlank → Marks (blanks ++ [bullet, byte ' ']) text trail

-- A line outside of fences that is part of a paragraph.
structure IsParagraph (line : Bytes) : Prop where
  visible : ¬line.all isBlank
  fence   : ∀ fence, ¬OpensFence line fence
  code    : ¬IsIndented line
  markup  : ∀ lead text trail, Marks lead text trail → line ≠ lead ++ text ++ trail

-- A part of the content: the opening line of a fence, a line of code or layout, or inline text.
inductive Part
  | opening (line : Bytes)
  | verbatim (line : Bytes)
  | inline (lead : Bytes) (spans : List Span) (trail : Bytes)

def Part.source : Part → Bytes
  | opening line             => line ++ [byte '\n']
  | verbatim line            => line ++ [byte '\n']
  | inline lead spans trail  => lead ++ spans.flatMap Span.source ++ trail ++ [byte '\n']

-- The parts that lines are read as, in an open fence or outside of one.
inductive Reads : Option (UInt8 × ℕ) → List Bytes → List Part → Prop
  | nil {fence : Option (UInt8 × ℕ)} : Reads fence [] []
  | opening {fence : UInt8 × ℕ} {line : Bytes} {rest : List Bytes} {parts : List Part} :
    OpensFence line fence → Reads (some fence) rest parts → Reads none (line :: rest) (.opening line :: parts)
  | closing {fence : UInt8 × ℕ} {line : Bytes} {rest : List Bytes} {parts : List Part} :
    ClosesFence line fence → Reads none rest parts → Reads (some fence) (line :: rest) (.verbatim line :: parts)
  | code {fence : UInt8 × ℕ} {line : Bytes} {rest : List Bytes} {parts : List Part} :
    ¬ClosesFence line fence → Reads (some fence) rest parts →
    Reads (some fence) (line :: rest) (.verbatim line :: parts)
  | indented {line : Bytes} {rest : List Bytes} {parts : List Part} :
    (∀ fence, ¬OpensFence line fence) → IsIndented line → Reads none rest parts →
    Reads none (line :: rest) (.verbatim line :: parts)
  | blank {line : Bytes} {rest : List Bytes} {parts : List Part} :
    line.all isBlank → Reads none rest parts → Reads none (line :: rest) (.verbatim line :: parts)
  | marked {lead text trail : Bytes} {spans : List Span} {rest : List Bytes} {parts : List Part} :
    ¬IsIndented (lead ++ text ++ trail) → Marks lead text trail → SpansFrom text 0 spans →
    Reads none rest parts → Reads none ((lead ++ text ++ trail) :: rest) (.inline lead spans trail :: parts)
  -- A paragraph goes on as long as it can.
  | paragraph {held rest : List Bytes} {spans : List Span} {parts : List Part} :
    held ≠ [] → (∀ line ∈ held, IsParagraph line) → (∀ line ∈ rest.head?, ¬IsParagraph line) →
    SpansFrom ([byte '\n'].intercalate held) 0 spans → Reads none rest parts →
    Reads none (held ++ rest) (.inline [] spans [] :: parts)

section

variable {line text blanks info : Bytes} {marker : UInt8} {count : ℕ} {shape : FenceShape} {fence : Fence}

theorem trim_append (hb : blanks.all isBlank) (ht : ∀ b ∈ text.head?, isBlank b = false) :
    trim (blanks ++ text) = text.rdropWhile isBlank := by
  rw [trim, dropWhile_append_of_stop (by simpa using hb) ht]

theorem all_isBlank_append {blanks' : Bytes} (h : blanks.all isBlank) (h' : blanks'.all isBlank) :
    (blanks ++ blanks').all isBlank := by
  rw [all_append, h, h']
  rfl

theorem ClosesHeading.append {closing : Bytes} (h : ClosesHeading closing) (hb : blanks.all isBlank) :
    ClosesHeading (closing ++ blanks) := by
  cases h
  case blanks hc         => exact .blanks <| all_isBlank_append hc hb
  case hashes hn hg hb'  => exact append_assoc .. ▸ .hashes hn hg (all_isBlank_append hb' hb)

def StartsHeading (body : Bytes) : Prop :=
  let level := (body.takeWhile (· == byte '#')).length
  1 ≤ level ∧ level ≤ 6 ∧ body[level]?.all whitespace

def StartsQuote (body : Bytes) : Prop :=
  startsWith body (ascii "> ") ∨ body = ascii ">"

def StartsItem (body : Bytes) : Prop :=
  startsWith body (ascii "- ") ∨ startsWith body (ascii "* ") ∨ startsWith body (ascii "+ ")

theorem Marks.starts {lead trail : Bytes} (h : Marks lead text trail) :
    let body := trim (lead ++ text ++ trail)
    StartsHeading body ∨ StartsQuote body ∨ StartsItem body := by
  cases h
  case heading blanks gap level hb hg h1 h6 hc hs =>
    refine .inl ?_
    have hh : isBlank (byte '#') = false := rfl
    have ht : trim (blanks ++ replicate level (byte '#') ++ gap ++ text ++ trail) =
        replicate level (byte '#') ++ (gap ++ text ++ trail).rdropWhile isBlank := by
      have hr : blanks ++ replicate level (byte '#') ++ gap ++ text ++ trail =
          blanks ++ (replicate level (byte '#') ++ (gap ++ text ++ trail)) := by simp
      rw [hr, trim_append hb, rdropWhile_append_of_stop fun b hb => eq_of_mem_replicate hb ▸ hh]
      obtain ⟨n, rfl⟩ := Nat.exists_eq_add_one_of_ne_zero (by omega : level ≠ 0)
      simpa [replicate_succ] using hh
    rw [ht]
    generalize gap ++ text ++ trail = rest at hs
    have hrest : ∀ b ∈ (rest.rdropWhile isBlank).head?, isSpace b := by
      intro b hb
      obtain ⟨r, hr⟩ := exists_rdropWhile_append isBlank rest
      have hh : rest.head? = some b := by
        rw [← hr, head?_append, Option.mem_def.mp hb]
        rfl
      rw [hh] at hs
      exact hs
    have hstop : ∀ b ∈ (rest.rdropWhile isBlank).head?, (b == byte '#') = false := fun b hb => by
      have := hrest b hb
      refine beq_eq_false_iff_ne.mpr fun he => ?_
      rw [he] at this
      contradiction
    have hl : (replicate level (byte '#') ++ rest.rdropWhile isBlank).takeWhile (· == byte '#') =
        replicate level (byte '#') := takeWhile_append_of_stop (by simp) hstop
    unfold StartsHeading
    simp only [hl, length_replicate]
    refine ⟨h1, h6, ?_⟩
    rw [getElem?_append_right (by simp), length_replicate, Nat.sub_self, ← head?_eq_getElem?]
    cases hd : (rest.rdropWhile isBlank).head?
    case none => rfl
    case some b => exact hrest b hd
  case quote blanks hb ht =>
    refine .inr <| .inl ?_
    have hr : blanks ++ ascii "> " ++ text ++ trail = blanks ++ ([byte '>'] ++ byte ' ' :: (text ++ trail)) := by
      simp [ascii]
    rw [hr, trim_append hb (by simp [isBlank, byte]), rdropWhile_append_of_stop (by simp [isBlank, byte])]
    by_cases hn : ∀ b ∈ byte ' ' :: (text ++ trail), isBlank b
    case pos => exact .inr <| by rw [rdropWhile_eq_nil_iff.mpr hn]; rfl
    case neg =>
      refine .inl ?_
      have hv : ∃ b ∈ text ++ trail, isBlank b = false := by
        simp only [not_forall, Bool.not_eq_true] at hn
        obtain ⟨b, hm, hb⟩ := hn
        refine ⟨b, (mem_cons.mp hm).resolve_left fun he => ?_, hb⟩
        simp [he, isBlank] at hb
      have hx :
          ([byte ' '] ++ (text ++ trail)).rdropWhile isBlank = [byte ' '] ++ (text ++ trail).rdropWhile isBlank :=
        rdropWhile_append_of_mem hv
      rw [singleton_append] at hx
      rw [hx]
      rfl
  case emptyQuote blanks hb ht =>
    refine .inr <| .inl <| .inr ?_
    have hr : blanks ++ ascii ">" ++ [] ++ trail = blanks ++ ([byte '>'] ++ trail) := by simp [ascii]
    rw [hr, trim_append hb (by simp [isBlank, byte]), rdropWhile_append_of_stop (by simp [isBlank, byte]),
      rdropWhile_eq_nil_iff.mpr (all_eq_true.mp ht)]
    rfl
  case item blanks bullet hb hm hn ht =>
    refine .inr <| .inr ?_
    have hbl : ∀ b ∈ ascii "-*+", isBlank b = false := by decide +kernel
    have hr : blanks ++ [bullet, byte ' '] ++ text ++ trail = blanks ++ ([bullet, byte ' '] ++ (text ++ trail)) := by
      simp
    obtain ⟨b, hbt, hbb⟩ : ∃ b ∈ text, isBlank b = false := by simpa using hn
    rw [hr, trim_append hb (by simpa using hbl bullet hm),
      rdropWhile_append_of_mem ⟨b, mem_append_left _ hbt, hbb⟩]
    have hp : [bullet, byte ' '] <+: [bullet, byte ' '] ++ (text ++ trail).rdropWhile isBlank := prefix_append _ _
    have hc : bullet = byte '-' ∨ bullet = byte '*' ∨ bullet = byte '+' := by simpa [ascii] using hm
    unfold StartsItem startsWith
    simp only [ isPrefixOf_iff_prefix]
    rcases hc with rfl | rfl | rfl
    case inl     => exact .inl hp
    case inr.inl => exact .inr <| .inl hp
    case inr.inr => exact .inr <| .inr hp

end

end Howlinux
