import Howlinux.Knowledge.Theorems.Rewriting
import Howlinux.Library.LineEndings
import Howlinux.Markdown.Theorems.CodeBlocks
import Howlinux.Markdown.Theorems.Links
import Howlinux.Render.Text

open Bytes

namespace Howlinux

section

variable {text line tail : Bytes}

-- The text with a carriage return in front of every line feed.
def crlf (text : Bytes) : Bytes :=
  text.flatMap fun b => if b = byte '\n' then ascii "\r\n" else [b]

theorem crlf_of_notMem (h : byte '\n' ∉ text) : crlf text = text := by
  induction text
  case nil => rfl
  case cons b text hi =>
    rw [List.mem_cons, not_or] at h
    rw [crlf, List.flatMap_cons, if_neg (Ne.symm h.left), ← crlf, hi h.right]
    rfl

theorem crlf_line (h : byte '\n' ∉ line) :
    crlf (line ++ byte '\n' :: tail) = (line ++ [byte '\r']) ++ byte '\n' :: crlf tail := by
  have hl := crlf_of_notMem h
  unfold crlf at hl ⊢
  rw [List.flatMap_append, hl, List.flatMap_cons, if_pos rfl, List.append_assoc]
  rfl

theorem chompReturn_concat (line : Bytes) : chompReturn (line ++ [byte '\r']) = line := by
  simp [chompReturn]

theorem sameLines_crlf (h : byte '\r' ∉ text) : SameLines text (crlf text) := by
  induction hl : text.length using Nat.strong_induction_on generalizing text
  case h n hi =>
    by_cases hm : byte '\n' ∈ text
    case neg => exact (crlf_of_notMem hm).symm ▸ ⟨rfl, .rfl⟩
    case pos =>
      obtain ⟨line, tail, rfl, hd⟩ := List.eq_append_cons_of_mem hm
      have hr : byte '\n' ∉ line ++ [byte '\r'] := by simp +decide [hd]
      have hh : byte '\r' ∉ line ∧ byte '\r' ∉ tail := by simp_all
      have ht := hi tail.length (by simp [← hl]; omega) hh.right rfl
      rw [crlf_line hd]
      constructor
      case lines =>
        rw [chompedLines, chompedLines, lines_cons hd, lines_cons hr, List.map_cons, List.map_cons,
          chompReturn_concat, chompReturn_of_notMem hh.left]
        exact congrArg (line :: ·) ht.lines
      case terminated =>
        have hs : line ++ byte '\n' :: tail = (line ++ [byte '\n']) ++ tail := by simp
        have hs' : (line ++ [byte '\r']) ++ byte '\n' :: crlf tail = (line ++ ascii "\r\n") ++ crlf tail := by
          simp [ascii]
        by_cases hn : tail = []
        case pos =>
          rw [hn, terminated_append_iff _ (by simp), terminated_append_iff _ (by simp)]
          rfl
        case neg =>
          have hn' := mt ht.eq_nil_iff.mpr hn
          rw [hs, hs', terminated_append_iff _ hn, terminated_append_iff _ hn', ht.terminated]

end

section

variable {text text' : Bytes} {source source' : List Bytes}

theorem hasNonWhitespace_chompReturn (line : Bytes) :
    hasNonWhitespace (chompReturn line) = hasNonWhitespace line := by
  unfold chompReturn
  split
  case isFalse => rfl
  case isTrue h =>
    have hl := List.dropLast_append_getLast? (byte '\r') (by simpa using h)
    nth_rewrite 2 [← hl]
    simp +decide [hasNonWhitespace]

theorem hasNonWhitespace_eq_any (text : Bytes) : hasNonWhitespace text = (lines text).any hasNonWhitespace := by
  induction hl : text.length using Nat.strong_induction_on generalizing text
  case h n hi =>
    by_cases hm : byte '\n' ∈ text
    case pos =>
      obtain ⟨line, tail, rfl, hd⟩ := List.eq_append_cons_of_mem hm
      have hs : isSpace (byte '\n') = true := by decide
      rw [lines_cons hd, List.any_cons, ← hi tail.length (by simp [← hl]; omega) tail rfl]
      simp [hasNonWhitespace, hs]
    case neg =>
      by_cases hn : text = []
      case pos => simp [hn, lines, hasNonWhitespace]
      case neg => simp [lines_of_notMem hm hn]

theorem any_hasNonWhitespace_lines (text : Bytes) :
    hasNonWhitespace text = (chompedLines text).any hasNonWhitespace := by
  rw [hasNonWhitespace_eq_any, chompedLines, List.any_map]
  exact congrArg (lines text).any <| funext fun line => (hasNonWhitespace_chompReturn line).symm

theorem keepsBlank_sameLines : KeepsBlank SameLines := fun text text' h => by
  rw [any_hasNonWhitespace_lines, any_hasNonWhitespace_lines, h.lines]

theorem renderLines_congr (color : Bool) (state : MarkdownState)
    (h : source.map chompReturn = source'.map chompReturn) :
    renderLines color state source = renderLines color state source' := by
  induction source generalizing state source'
  case nil =>
    rw [List.map_nil, eq_comm, List.map_eq_nil_iff] at h
    rw [h]
  case cons line source hi =>
    cases source'
    case nil => simp at h
    case cons line' source' =>
      rw [List.map_cons, List.map_cons, List.cons.injEq] at h
      simp only [renderLines, h.left, hi _ h.right]

theorem renderMarkdown_of_sameLines (h : SameLines text text') : renderMarkdown text = renderMarkdown text' := by
  funext color
  rw [renderMarkdown, renderMarkdown, renderLines_congr color {} h.lines]

end

-- The rest of a text after an empty line that it may start with.
def dropEmptyLine (rest : Bytes) : Bytes :=
  if startsWith rest (ascii "\r\n") then
    rest.drop 2
  else if startsWith rest (ascii "\n") then
    rest.drop 1
  else
    rest

section

variable {rest rest' line tail : Bytes}

theorem dropEmptyLine_of_notMem (h : byte '\n' ∉ rest) : dropEmptyLine rest = rest := by
  have hp (start : Bytes) (hs : byte '\n' ∈ start) : startsWith rest start = false := by
    rw [Bool.eq_false_iff, startsWith, ne_eq, List.isPrefixOf_iff_prefix]
    exact fun hp => h <| hp.subset hs
  simp [dropEmptyLine, hp _ (show byte '\n' ∈ ascii "\r\n" by decide), hp _ (show byte '\n' ∈ ascii "\n" by decide)]

theorem dropEmptyLine_append (h : byte '\n' ∉ line) : dropEmptyLine (line ++ byte '\n' :: tail) =
    if chompReturn line = [] then tail else line ++ byte '\n' :: tail := by
  have hn : byte '\r' ≠ byte '\n' := by decide
  unfold dropEmptyLine
  simp only [chompReturn_eq_nil_iff]
  rcases line with _ | ⟨b, _ | ⟨c, line⟩⟩
  case nil => simp [startsWith, ascii, hn]
  case cons.nil =>
    simp only [List.mem_singleton] at h
    by_cases hb : b = byte '\r'
    case pos => simp [startsWith, ascii, hb]
    case neg => simp [startsWith, ascii, hb, Ne.symm hb, h]
  case cons.cons =>
    simp only [List.mem_cons, not_or] at h
    simp [startsWith, ascii, h.left, h.right.left]

theorem sameLines_dropEmptyLine (h : SameLines rest rest') :
    SameLines (dropEmptyLine rest) (dropEmptyLine rest') := by
  by_cases hm : byte '\n' ∈ rest
  case neg => rwa [dropEmptyLine_of_notMem hm, dropEmptyLine_of_notMem (mt h.mem_newline.mpr hm)]
  case pos =>
    have ⟨hc, ht⟩ := h.cons
    obtain ⟨line, tail, rfl, hd⟩   := List.eq_append_cons_of_mem hm
    obtain ⟨line', tail', rfl, hd'⟩ := List.eq_append_cons_of_mem <| h.mem_newline.mp hm
    rw [firstLine_append hd, firstLine_append hd'] at hc
    rw [afterLine_append hd, afterLine_append hd'] at ht
    rw [dropEmptyLine_append hd, dropEmptyLine_append hd', hc]
    split
    case isTrue  => exact ht
    case isFalse => exact h

end

section

variable {entry : KnowledgeEntry} {content : Bytes}

theorem Renderer.untitledContent_eq (entry : KnowledgeEntry) : untitledContent entry =
    if chompReturn (firstLine entry.content) = ascii "# " ++ entry.title then
      dropEmptyLine (afterLine entry.content)
    else
      entry.content :=
  rfl

theorem sameLines_untitledContent (h : SameLines entry.content content) :
    SameLines (Renderer.untitledContent entry) (Renderer.untitledContent { entry with content }) := by
  have ⟨hc, ht⟩ := h.cons
  rw [Renderer.untitledContent_eq, Renderer.untitledContent_eq, hc]
  dsimp only
  split
  case isTrue  => exact sameLines_dropEmptyLine ht
  case isFalse => exact h

end

section

variable {targets : LinkTargets} {root : Bytes} {entry entry' : KnowledgeEntry}

-- The lint of a text names the entry, and looks at no other content of it.
theorem lintMarkdownLinks_content (entry : KnowledgeEntry) (content : Bytes) (lineNumber : ℕ) (text : Bytes) :
    lintMarkdownLinks targets root { entry with content } lineNumber text =
      lintMarkdownLinks targets root entry lineNumber text := by
  fun_induction lintMarkdownLinks targets root entry lineNumber text
  case case1 h =>
    rw [lintMarkdownLinks, h]
  case case2 h h' =>
    rw [lintMarkdownLinks, h]
    dsimp only
    rw [h']
    rfl
  case case3 h _ _ h' hi =>
    rw [lintMarkdownLinks_of_cut h h', hi]
    rfl

theorem lintLines_congr (openFence : Option OpenFence) (lineNumber : ℕ) {source source' : List Bytes}
    (h : source.map chompReturn = source'.map chompReturn) (content : Bytes) :
    lintLines targets root entry openFence lineNumber source =
      lintLines targets root { entry with content } openFence lineNumber source' := by
  induction source generalizing openFence lineNumber source'
  case nil =>
    rw [List.map_nil, eq_comm, List.map_eq_nil_iff] at h
    rw [h]
    rfl
  case cons line source hi =>
    cases source'
    case nil => simp at h
    case cons line' source' =>
      rw [List.map_cons, List.map_cons, List.cons.injEq] at h
      simp only [lintLines, h.left, hi _ _ h.right, lintMarkdownLinks_content]

theorem lintMarkdown_rewrites (h : entry.Rewrites SameLines entry') :
    lintMarkdown targets root entry = lintMarkdown targets root entry' := by
  obtain ⟨h⟩ := h
  exact lintLines_congr none 0 h.lines _

end

end Howlinux
