import Howlinux.Markdown.Theorems.Fences

open Bytes List

namespace Howlinux

-- A fenced code block: its opening line, lines of code that do not close it, and its closing line.
structure CodeBlock where
  marker        : UInt8
  length        : ℕ
  spaces        : ℕ
  info          : Bytes
  code          : List Bytes
  closingLength : ℕ
  closingSpaces : ℕ
  isFence       : isFenceByte marker
  length_ge     : 3 ≤ length
  spaces_le     : spaces ≤ 3
  info_head     : info.head? ≠ some marker
  info_line     : byte '\n' ∉ info
  info_backtick : marker = byte '`' → byte '`' ∉ info
  code_line     : ∀ line ∈ code, byte '\n' ∉ line ∧ byte '\r' ∉ line
  code_open     : ∀ line ∈ code, ∀ count, length ≤ count → trim line ≠ replicate count marker
  closing_ge    : length ≤ closingLength
  closing_le    : closingSpaces ≤ 3

namespace CodeBlock

variable (block : CodeBlock)

def opening : Bytes :=
  replicate block.spaces (byte ' ') ++ replicate block.length block.marker ++ block.info

def closing : Bytes :=
  replicate block.closingSpaces (byte ' ') ++ replicate block.closingLength block.marker

-- The line feed after the closing line is left out.
def text : Bytes :=
  block.opening ++ byte '\n' :: (block.code.flatMap (· ++ [byte '\n']) ++ block.closing)

-- Code is indented, without the spaces of the opening line, and never taken for Markdown.
def rendered : Bytes :=
  block.code.flatMap fun line =>
    ascii "    " ++ literal (line.drop <| min block.spaces (line.takeWhile (· == byte ' ')).length) ++ [byte '\n']

end CodeBlock

section

variable {marker : UInt8} {spaces length : ℕ} {info line body : Bytes} {shape : FenceShape}

theorem bodyRun_replicate (hm : isFenceByte marker) (hl : 0 < length) (hi : info.head? ≠ some marker) :
    bodyRun (replicate length marker ++ info) = some (marker, length, info) := by
  have hr : ∀ b ∈ replicate length marker, (b == marker) = true := by simp
  have hs : ∀ b ∈ info.head?, (b == marker) = false := by
    intro b hb
    exact beq_eq_false_iff_ne.mpr fun he => hi (he ▸ hb)
  have ht := takeWhile_append_of_stop hr hs
  have hd := dropWhile_append_of_stop hr hs
  obtain ⟨n, rfl⟩ := Nat.exists_eq_add_of_lt hl
  rw [zero_add, replicate_succ, cons_append] at ht hd ⊢
  rw [bodyRun_cons, if_pos hm, ht, hd, length_cons, length_replicate]

theorem fenceShape_replicate (hm : isFenceByte marker) (hl : 0 < length) (hi : info.head? ≠ some marker) :
    fenceShape (replicate spaces (byte ' ') ++ replicate length marker ++ info) =
      some { spaces, blanks := [], marker, length, info } := by
  have hb : isBlank marker = false := not_isBlank_of_isFenceByte hm
  have hh : (replicate length marker ++ info).head? = some marker := by
    obtain ⟨n, rfl⟩ := Nat.exists_eq_add_of_lt hl
    simp [replicate_succ]
  have hr : ∀ b ∈ replicate spaces (byte ' '), (b == byte ' ') = true := by simp
  have hs : ∀ b ∈ (replicate length marker ++ info).head?, (b == byte ' ') = false := by
    intro b hm
    rw [hh] at hm
    cases hm
    refine beq_eq_false_iff_ne.mpr fun he => ?_
    simp [he, isBlank] at hb
  have hs' : ∀ b ∈ (replicate length marker ++ info).head?, isBlank b = false := by
    intro b hm
    rw [hh] at hm
    cases hm
    exact hb
  have ht := @takeWhile_append_of_stop _ isBlank [] _ (by simp) hs'
  have hd := @dropWhile_append_of_stop _ isBlank [] _ (by simp) hs'
  rw [nil_append] at ht hd
  rw [append_assoc, fenceShape, takeWhile_append_of_stop hr hs, dropWhile_append_of_stop hr hs, ht, hd,
    bodyRun_replicate hm hl hi, length_replicate]
  rfl

theorem trim_of_fenceShape (hs : fenceShape line = some shape) (hi : shape.info.all isBlank) :
    trim line = replicate shape.length shape.marker := by
  have ⟨(marker, length, info), hb, he⟩ := Option.map_eq_some_iff.mp hs
  subst he
  have ⟨hm, hb⟩ := eq_of_bodyRun hb
  have hn : isBlank marker = false := not_isBlank_of_isFenceByte hm
  rw [trim, ← dropWhile_dropWhile_of_imp (p := isBlank) (q := (· == byte ' ')) (by simp +contextual [isBlank]), hb,
    rdropWhile_append_of_stop (by simp [hn]), rdropWhile_eq_nil_iff.mpr (by simpa using hi), append_nil]

end

section

variable {color : Bool} {state : MarkdownState} {before rest : List Bytes}

theorem renderLines_append : renderLines color state (before ++ rest) =
    let (output, next) := renderLines color state before
    let (later, last)  := renderLines color next rest
    (output ++ later, last) := by
  induction before generalizing state
  case nil               => rfl
  case cons line rest hi => simp only [cons_append, renderLines, hi, append_assoc]

theorem renderLines_of_fixed {f : Bytes → Bytes}
    (h : ∀ line ∈ rest, renderLine (chompReturn line) color state = (f line, state)) :
    renderLines color state rest = (rest.flatMap f, state) := by
  induction rest
  case nil => rfl
  case cons line rest hi =>
    have ⟨hl, hr⟩ := forall_mem_cons.mp h
    simp only [renderLines, hl, hi hr, flatMap_cons]

theorem lines_flatMap {text : Bytes} (h : ∀ line ∈ rest, byte '\n' ∉ line) :
    lines (rest.flatMap (· ++ [byte '\n']) ++ text) = rest ++ lines text := by
  induction rest
  case nil => rfl
  case cons line rest hi =>
    have ⟨hl, hr⟩ := forall_mem_cons.mp h
    rw [flatMap_cons, append_assoc, append_assoc, singleton_append, lines_cons hl, hi hr, cons_append]

theorem chompReturn_append {text text' : Bytes} (h : text' ≠ []) :
    chompReturn (text ++ text') = text ++ chompReturn text' := by
  unfold chompReturn
  rw [getLast?_append_of_ne_nil _ h, dropLast_append_of_ne_nil h]
  split <;> rfl

theorem chompReturn_prefix {text : Bytes} : chompReturn text <+: text := by
  unfold chompReturn
  split
  case isTrue  => exact dropLast_prefix text
  case isFalse => exact prefix_rfl

theorem chompReturn_of_notMem {text : Bytes} (h : byte '\r' ∉ text) : chompReturn text = text := by
  refine if_neg fun hl => h ?_
  exact mem_of_mem_getLast? (eq_of_beq hl)

end

namespace CodeBlock

variable {block : CodeBlock} {color : Bool} {state : MarkdownState} {line rest : Bytes}

def fence (block : CodeBlock) : Fence where
  marker := block.marker
  length := block.length
  indent := block.spaces

theorem notMem_replicates (count count' : ℕ) (b : UInt8) (hb : isFenceByte b = false) (hs : b ≠ byte ' ') :
    b ∉ replicate count (byte ' ') ++ replicate count' block.marker := by
  intro hm
  rcases mem_append.mp hm with hm | hm
  · exact hs (eq_of_mem_replicate hm)
  · have := eq_of_mem_replicate hm ▸ block.isFence
    simp [hb] at this

theorem chompReturn_opening : ∃ info, info <+: block.info ∧ chompReturn block.opening =
    replicate block.spaces (byte ' ') ++ replicate block.length block.marker ++ info := by
  by_cases hi : block.info = []
  case pos =>
    refine ⟨[], nil_prefix, ?_⟩
    rw [opening, hi, append_nil]
    exact chompReturn_of_notMem <| notMem_replicates _ _ _ (by decide) (by decide)
  case neg => exact ⟨_, chompReturn_prefix, chompReturn_append hi⟩

theorem renderLine_opening (hf : state.fence = none) : renderLine (chompReturn block.opening) color state =
    (flushParagraph color state.paragraph, { fence := block.fence, paragraph := [] }) := by
  have ⟨info, hp, hc⟩ := @chompReturn_opening block
  have ⟨tail, ht⟩ := hp
  have hh : info.head? ≠ some block.marker := fun he => block.info_head (by rw [← ht, head?_append, he]; rfl)
  have hl : 0 < block.length := by have := block.length_ge; omega
  have hs := @fenceShape_replicate _ block.spaces _ _ block.isFence hl hh
  have hr : block.marker = byte '`' → byte '`' ∉ info := fun hm hb => block.info_backtick hm (hp.subset hb)
  have hk : fenceLine (chompReturn block.opening) none = .opening block.fence := by
    rw [hc, fenceLine_none hs ⟨block.spaces_le, block.length_ge⟩, indentation_of_fenceShape hs]
    exact if_pos hr
  rw [renderLine, hf, hk]

theorem renderLine_code (h : line ∈ block.code) :
    renderLine (chompReturn line) color { fence := block.fence } =
      (fencedCode line color block.spaces, { fence := block.fence }) := by
  have hk : fenceLine line (some block.fence) = .code := by
    by_cases hf : ∃ shape ∈ fenceShape line, shape.IsFence
    case pos =>
      have ⟨shape, hs, hf⟩ := hf
      rw [fenceLine_some hs hf]
      refine if_neg fun ⟨hm, hl, hi⟩ => block.code_open line h shape.length hl ?_
      rw [trim_of_fenceShape hs hi, hm]
      rfl
    case neg => exact (not_fence 0 fun shape hs hf' => hf ⟨shape, hs, hf'⟩).right _
  rw [chompReturn_of_notMem (block.code_line line h).right, renderLine, hk]
  rfl

theorem renderLine_closing : renderLine (chompReturn block.closing) color { fence := block.fence } = ([], {}) := by
  have hl := block.length_ge.trans block.closing_ge
  have hs := @fenceShape_replicate _ block.closingSpaces block.closingLength [] block.isFence (by omega) (by simp)
  rw [append_nil] at hs
  rw [closing, chompReturn_of_notMem <| notMem_replicates _ _ _ (by decide) (by decide), renderLine,
    fenceLine_some hs ⟨block.closing_le, hl⟩, if_pos ⟨rfl, block.closing_ge, rfl⟩]

theorem lines_text : lines (block.text ++ rest) = block.opening :: (block.code ++ lines (block.closing ++ rest)) := by
  have ho : byte '\n' ∉ block.opening := fun hm =>
    (mem_append.mp hm).elim (notMem_replicates _ _ _ (by decide) (by decide)) block.info_line
  rw [text, append_assoc, cons_append, lines_cons ho, append_assoc,
    lines_flatMap fun line hm => (block.code_line line hm).left]

theorem renderLines_text (hf : state.fence = none) (lines : List Bytes) :
    renderLines false state (block.opening :: (block.code ++ block.closing :: lines)) =
      (flushParagraph false state.paragraph ++ (block.rendered ++ (renderLines false {} lines).1),
        (renderLines false {} lines).2) := by
  have hr : (block.code.flatMap fun line => fencedCode line false block.spaces) = block.rendered := by
    simp [fencedCode, styled, rendered]
  rw [renderLines, renderLine_opening hf]
  simp only []
  rw [renderLines_append, renderLines_of_fixed fun line hm => renderLine_code hm, hr]
  simp only []
  rw [renderLines, renderLine_closing]
  rfl

end CodeBlock

-- A code block is rendered on its own, and so is what is around it.
theorem code_block_isolated (block : CodeBlock) (before rest : Bytes) (ht : Terminated before)
    (hf : (renderLines false {} (lines before)).2.fence = none) :
    renderMarkdown (before ++ block.text ++ byte '\n' :: rest) false =
      renderMarkdown before false ++ block.rendered ++ renderMarkdown rest false ∧
    renderMarkdown (before ++ block.text) false = renderMarkdown before false ++ block.rendered := by
  have hc : byte '\n' ∉ block.closing := block.notMem_replicates _ _ _ (by decide) (by decide)
  have hn : block.closing ≠ [] := fun he => by
    have hl := congrArg List.length he
    have hge := block.length_ge.trans block.closing_ge
    simp only [CodeBlock.closing, length_append, length_replicate, length_nil] at hl
    omega
  have hl : lines (block.closing ++ byte '\n' :: rest) = block.closing :: lines rest := lines_cons hc
  have hl' : lines (block.closing ++ []) = [block.closing] := by
    rw [append_nil]
    exact lines_of_notMem hc hn
  have ha := @CodeBlock.renderLines_text block _ hf
  constructor
  case left =>
    rw [renderMarkdown, append_assoc, lines_append ht, CodeBlock.lines_text, hl, renderLines_append]
    simp only [ha]
    simp [renderMarkdown]
  case right =>
    rw [renderMarkdown, lines_append ht, ← append_nil block.text, CodeBlock.lines_text, hl', renderLines_append]
    simp only [ha]
    simp [renderMarkdown, renderLines, flushParagraph]

-- Commands whose comment would be a heading outside of the block.
def CodeBlock.tilde : CodeBlock where
  marker        := byte '~'
  length        := 3
  spaces        := 0
  info          := ascii "sh"
  code          := [ascii "# say hello", ascii "echo hello"]
  closingLength := 3
  closingSpaces := 0
  isFence       := by decide
  length_ge     := le_rfl
  spaces_le     := by decide
  info_head     := by decide
  info_line     := by decide
  info_backtick := by decide
  code_line     := by decide +kernel
  code_open     := by
    have hc : ∀ line ∈ [ascii "# say hello", ascii "echo hello"], byte 'h' ∈ trim line := by decide +kernel
    intro line hm count _ he
    have hb := eq_of_mem_replicate (he ▸ hc line hm)
    revert hb
    decide
  closing_ge    := le_rfl
  closing_le    := by decide

theorem code_block_isolated_tilde :
    renderMarkdown (ascii "# Greeting\n" ++ CodeBlock.tilde.text ++ byte '\n' :: ascii "Done") false =
      renderMarkdown (ascii "# Greeting\n") false ++ CodeBlock.tilde.rendered ++ renderMarkdown (ascii "Done") false :=
  (code_block_isolated .tilde _ _ (by simp [Terminated, ascii, byte]) (by decide +kernel)).left

end Howlinux
