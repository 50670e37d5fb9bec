import Howlinux.Render.Text

open Bytes

namespace Howlinux

-- A byte that does not control the terminal.
def isSafeByte (b : UInt8) : Bool :=
  b == byte '\n' || b == byte '\t' || (0x20 ≤ b && b != 0x7F)

def IsSafe (output : Bytes) : Prop :=
  output.all isSafeByte

instance (output : Bytes) : Decidable (IsSafe output) :=
  inferInstanceAs (Decidable (output.all isSafeByte))

namespace IsSafe

variable {output output' : Bytes}

@[simp]
theorem nil : IsSafe [] :=
  rfl

@[simp]
theorem append_iff : IsSafe (output ++ output') ↔ IsSafe output ∧ IsSafe output' := by
  simp [IsSafe]

theorem append (h : IsSafe output) (h' : IsSafe output') : IsSafe (output ++ output') :=
  append_iff.mpr ⟨h, h'⟩

theorem flatMap {α : Type*} {l : List α} {f : α → Bytes} (h : ∀ a ∈ l, IsSafe (f a)) :
    IsSafe (l.flatMap f) := by
  refine List.all_eq_true.mpr fun b hb => ?_
  have ⟨a, ha, hb⟩ := List.mem_flatMap.mp hb
  exact List.all_eq_true.mp (h a ha) b hb

theorem intercalate {separator : Bytes} {parts : List Bytes} (hs : IsSafe separator)
    (h : ∀ part ∈ parts, IsSafe part) : IsSafe (separator.intercalate parts) := by
  induction parts
  case nil => exact nil
  case cons part parts hi =>
    simp only [List.mem_cons, forall_eq_or_imp] at h
    cases parts
    case nil  => simpa using h.left
    case cons =>
      rw [List.intercalate_cons_cons]
      exact (h.left.append hs).append (hi h.right)

@[simp]
theorem row_iff {label : String} : IsSafe (row label output) ↔ IsSafe (ascii label) ∧ IsSafe output := by
  have hn : IsSafe [byte '\n'] := rfl
  rw [row, append_iff, append_iff, and_iff_left hn]

@[simp]
theorem text_iff {line : String} : IsSafe (text line) ↔ IsSafe (ascii line) := by
  rw [text, row_iff, and_iff_left nil]

theorem ite {p : Prop} [Decidable p] (h : p → IsSafe output) (h' : ¬p → IsSafe output') :
    IsSafe (if p then output else output') := by
  split
  case isTrue hp  => exact h hp
  case isFalse hp => exact h' hp

end IsSafe

section

variable {value : Bytes} {b : UInt8}

theorem isSafeByte_hexDigit : ∀ value : UInt32, isSafeByte (hexDigit value) := by
  apply hexDigit_of_digits
  decide

theorem isSafe_hexEscape (b : UInt8) :
    IsSafe (ascii "\\x" ++ [hexDigit (b >>> 4).toUInt32, hexDigit b.toUInt32]) :=
  .append rfl <| by simp [IsSafe, isSafeByte_hexDigit]

@[simp]
theorem isSafe_humanSafe : IsSafe (humanSafe value) := by
  refine .flatMap fun b _ => ?_
  unfold humanSafeByte
  refine .ite (fun _ => rfl) fun _ => .ite (fun _ => rfl) fun _ => .ite (fun _ => rfl) fun _ =>
    .ite (fun _ => rfl) fun _ => .ite (fun _ => rfl) fun _ => .ite (fun _ => isSafe_hexEscape b) fun h => ?_
  simp only [not_or, not_lt] at h
  simp [IsSafe, isSafeByte, h.left, h.right]

@[simp]
theorem isSafe_literal : IsSafe (literal value) := by
  refine .flatMap fun b _ => .ite (fun _ => isSafe_hexEscape b) fun h => ?_
  simp [IsSafe, isSafeByte] at h ⊢
  grind

@[simp]
theorem isSafe_decimal {n : ℕ} : IsSafe (decimal n) := by
  refine List.all_eq_true.mpr fun b hb => ?_
  have ⟨hl, hu⟩ := digit_of_mem_decimal hb
  have hs : 0x20 ≤ b := le_trans (by decide) hl
  have hd : b ≠ 0x7F := fun h => absurd (h ▸ hu) (by decide)
  simp [isSafeByte, hs, hd]

theorem isSafe_replicate {n : ℕ} (h : isSafeByte b) : IsSafe (List.replicate n b) := by
  simp [IsSafe, h]

end

-- Without colors, Markdown prints nothing but safe bytes.
section

variable {text output paragraph line : Bytes} {parameters : String} {pos next : ℕ}

@[simp]
theorem isSafe_styled : IsSafe (styled text parameters false) := by
  simp [styled]

theorem isSafe_escapedSpan (h : escapedSpan text pos = some (output, next)) : IsSafe output := by
  unfold escapedSpan at h
  split at h
  case h_1 =>
    split at h
    case isTrue  => cases h; exact isSafe_literal
    case isFalse => contradiction
  case h_2 => contradiction

theorem isSafe_codeSpan (h : codeSpan text false pos = some (output, next)) : IsSafe output := by
  unfold codeSpan at h
  split at h
  case h_1 => contradiction
  case h_2 =>
    dsimp only at h
    split at h
    case h_1 => cases h; exact isSafe_literal
    case h_2 => cases h; exact isSafe_styled

theorem isSafe_linkSpan (h : linkSpan text false pos = some (output, next)) : IsSafe output := by
  unfold linkSpan at h
  split at h
  case isTrue =>
    have ⟨labelEnd, _, h⟩ := Option.bind_eq_some_iff.mp h
    have ⟨offset, _, h⟩ := Option.bind_eq_some_iff.mp h
    cases h
    exact .append isSafe_styled <| .ite (fun _ => .nil) fun _ => .append (.append rfl isSafe_literal) rfl
  case isFalse => contradiction

theorem isSafe_emphasisSpan (h : emphasisSpan text false pos = some (output, next)) : IsSafe output := by
  have ⟨marker, _, h⟩ := Option.bind_eq_some_iff.mp h
  dsimp only at h
  split at h
  case isTrue =>
    have ⟨stop, _, h⟩ := Option.bind_eq_some_iff.mp h
    split at h
    case isTrue  => cases h; exact isSafe_styled
    case isFalse => contradiction
  case isFalse => contradiction

theorem isSafe_inlineSpan : IsSafe (inlineSpan text false pos).1 := by
  unfold inlineSpan
  cases he : escapedSpan text pos
  case some => exact isSafe_escapedSpan he
  cases hc : codeSpan text false pos
  case some => exact isSafe_codeSpan hc
  cases hl : linkSpan text false pos
  case some => exact isSafe_linkSpan hl
  cases hm : emphasisSpan text false pos
  case some => exact isSafe_emphasisSpan hm
  exact isSafe_literal

@[simp]
theorem isSafe_inlineText : IsSafe (inlineText text false) := by
  have go (pos : ℕ) : IsSafe (inlineFrom text false pos) := by
    fun_induction inlineFrom text false pos
    case case1 hi => exact .append isSafe_inlineSpan hi
    case case2    => exact .nil
  exact go 0

@[simp]
theorem isSafe_flushParagraph : IsSafe (flushParagraph false paragraph) :=
  .ite (fun _ => .nil) fun _ => .append isSafe_inlineText rfl

theorem isSafe_heading {level : ℕ} {title : Bytes} : IsSafe (heading false level title) := by
  have hu : isSafeByte (if level = 1 then byte '=' else byte '-') := by split <;> rfl
  have hh : heading false level title = inlineText title false ++ [byte '\n'] ++
      (List.replicate title.length (if level = 1 then byte '=' else byte '-') ++ [byte '\n']) := by
    simp [heading]
  rw [hh]
  exact .append (.append isSafe_inlineText rfl) (.append (isSafe_replicate hu) rfl)

theorem isSafe_renderText : IsSafe (renderText line false paragraph).1 := by
  have hn : IsSafe [byte '\n'] := rfl
  have hr {n : ℕ} : IsSafe (List.replicate n (byte ' ')) := isSafe_replicate rfl
  have hq : IsSafe (ascii "  | ") := rfl
  have hb : IsSafe (ascii "  - ") := rfl
  unfold renderText
  dsimp only
  split_ifs <;> simp [isSafe_heading, hn, hr, hq, hb]

theorem isSafe_renderLine {state : MarkdownState} : IsSafe (renderLine line false state).1 := by
  have hn : IsSafe [byte '\n'] := rfl
  have hi : IsSafe (ascii "    ") := rfl
  unfold renderLine
  split
  case h_1 => exact .nil
  case h_2 => simp [fencedCode, hn, hi]
  case h_3 => exact isSafe_flushParagraph
  case h_4 => exact isSafe_renderText

theorem isSafe_renderLines {state : MarkdownState} {input : List Bytes} :
    IsSafe (renderLines false state input).1 := by
  induction input generalizing state
  case nil               => exact .nil
  case cons line rest hi => exact .append isSafe_renderLine hi

@[simp]
theorem isSafe_renderMarkdown : IsSafe (renderMarkdown text false) :=
  .append isSafe_renderLines isSafe_flushParagraph

end

-- Every text the renderer writes keeps to safe bytes, whatever its values are.
namespace Renderer

open IsSafe

variable {values : List Bytes} {emptyLabel : String} {query id : Bytes}

theorem isSafe_joinedHuman (h : IsSafe (ascii emptyLabel)) : IsSafe (joinedHuman values emptyLabel) := by
  refine ite (fun _ => h) fun _ => intercalate rfl fun part hp => ?_
  have ⟨value, _, he⟩ := List.mem_map.mp hp
  exact he ▸ isSafe_humanSafe

@[simp]
theorem isSafe_yesNo {value : Bool} : IsSafe (yesNo value) := by
  cases value <;> rfl

@[simp]
theorem isSafe_queryTypeName {type : QueryType} : IsSafe (queryTypeName type) := by
  cases type <;> rfl

@[simp]
theorem isSafe_severityName {severity : DiagnosticSeverity} : IsSafe (severityName severity) := by
  cases severity <;> rfl

@[simp]
theorem isSafe_validationStatus {knowledgeReport : KnowledgeLoadReport} {conceptReport : ConceptLoadReport}
    {lintReport : KnowledgeLintReport} :
    IsSafe (validationStatus knowledgeReport conceptReport lintReport) := by
  unfold validationStatus
  split_ifs <;> rfl

@[simp]
theorem isSafe_relatedLabel {knowledge : KnowledgeBase} : IsSafe (relatedLabel id knowledge) := by
  unfold relatedLabel
  split
  case h_1 => exact isSafe_humanSafe
  case h_2 => exact ite (fun _ => isSafe_humanSafe) fun _ => by simp +decide

@[simp]
theorem isSafe_noMatch : IsSafe (noMatch query) := by
  simp +decide [noMatch]

theorem isSafe_entryRelated {entry : KnowledgeEntry} {knowledge : KnowledgeBase} :
    IsSafe (entryRelated entry knowledge) := by
  refine ite (fun _ => .nil) fun _ => .append (by simp +decide) <| .flatMap fun _ _ => ?_
  simp +decide

theorem isSafe_entry (entry : KnowledgeEntry) (knowledge : KnowledgeBase) :
    IsSafe (Renderer.entry entry knowledge false false) := by
  have hh : IsSafe (entryHeader entry false) := by simp +decide [entryHeader]
  exact .append (.append (.append hh isSafe_renderMarkdown) <| ite (fun _ => rfl) fun _ => .nil)
    isSafe_entryRelated

theorem isSafe_list (knowledge : KnowledgeBase) : IsSafe (list knowledge) := by
  refine .append (by simp +decide) <| ite (fun _ => by simp +decide) fun _ => .flatMap fun entry _ => ?_
  have hc : IsSafe (if entry.category.isEmpty then [] else
      ascii " [" ++ humanSafe entry.category ++ ascii "]") := ite (fun _ => .nil) fun _ => by simp +decide
  simp +decide only [row_iff, append_iff, isSafe_humanSafe, hc]

theorem isSafe_writeHumanDiagnostic {scope : String} {diagnostic : Diagnostic} (h : IsSafe (ascii scope)) :
    IsSafe (writeHumanDiagnostic scope diagnostic) := by
  have hp : IsSafe (if diagnostic.path.isEmpty then [] else ascii " " ++ humanSafe diagnostic.path) :=
    ite (fun _ => .nil) fun _ => by simp +decide
  have hi : IsSafe (if diagnostic.entryId.isEmpty then [] else
      ascii " (ID: " ++ humanSafe diagnostic.entryId ++ ascii ")") := ite (fun _ => .nil) fun _ => by simp +decide
  simp +decide only [writeHumanDiagnostic, row_iff, append_iff, isSafe_humanSafe, isSafe_severityName, h, hp, hi]

theorem isSafe_knowledgeRows {report : KnowledgeLoadReport} : IsSafe (knowledgeRows report) := by
  simp +decide [knowledgeRows]

theorem isSafe_conceptRows {report : ConceptLoadReport} : IsSafe (conceptRows report) := by
  simp +decide [conceptRows]

theorem isSafe_lintRows {report : KnowledgeLintReport} : IsSafe (lintRows report) := by
  simp +decide [lintRows]

theorem isSafe_validation (knowledgeReport : KnowledgeLoadReport) (conceptReport : ConceptLoadReport)
    (lintReport : KnowledgeLintReport) :
    IsSafe (validation knowledgeReport conceptReport lintReport) := by
  have hd (scope : String) (hs : IsSafe (ascii scope)) (diagnostics : List Diagnostic) :
      IsSafe (diagnostics.flatMap (writeHumanDiagnostic scope)) :=
    .flatMap fun _ _ => isSafe_writeHumanDiagnostic hs
  have he : IsSafe (if knowledgeReport.rootAvailable ∧ knowledgeReport.loadedEntries = 0 then
      text "Note: the Knowledge directory contains no valid entries." else []) :=
    ite (fun _ => by simp +decide) fun _ => .nil
  refine .append (.append (.append (.append (.append ?_ he) ?_) (hd "knowledge" rfl _))
    (hd "concepts" rfl _)) (hd "lint" rfl _)
  case refine_1 => simp +decide [isSafe_knowledgeRows, isSafe_conceptRows, isSafe_lintRows]
  case refine_2 => simp +decide

section

variable {K : Type} [Add K] {numerics : Numerics K}
  (hn : ∀ value, numerics.isFinite value → IsSafe (numerics.fixed value))

include hn

omit [Add K] in
theorem isSafe_humanNumber {value : K} : IsSafe (humanNumber numerics value) :=
  ite (hn value) fun _ => rfl

theorem isSafe_writeHumanBreakdown {breakdown : ScoreBreakdown K} :
    IsSafe (writeHumanBreakdown numerics breakdown) := by
  have hb {value : K} : IsSafe (humanNumber numerics value) := isSafe_humanNumber hn
  simp +decide [writeHumanBreakdown, hb]

theorem isSafe_explainResult {result : SearchResult K} {index : ℕ} :
    IsSafe (explainResult numerics result index) := by
  have hj : IsSafe (joinedHuman result.matchReasons "none") := isSafe_joinedHuman rfl
  simp +decide [explainResult, isSafe_humanNumber hn, isSafe_writeHumanBreakdown hn, hj]

theorem isSafe_explain (response : SearchResponse K) (limit : ℕ) :
    IsSafe (explain numerics response limit) := by
  have hj (values : List Bytes) : IsSafe (joinedHuman values "none") := isSafe_joinedHuman rfl
  refine .append (by simp +decide [hj]) <| ite (fun _ => by simp +decide) fun _ => ?_
  exact .append (by simp +decide) <| .flatMap fun _ _ => isSafe_explainResult hn

omit [Add K] in
theorem isSafe_suggestion {result : SearchResult K} {index : ℕ} :
    IsSafe (suggestion numerics result index) := by
  have hj : IsSafe (joinedHuman result.matchReasons "candidate match") := isSafe_joinedHuman rfl
  have hf : IsSafe (if result.fuzzyUsed then ascii " (fuzzy used)" else []) :=
    ite (fun _ => rfl) fun _ => .nil
  simp +decide [suggestion, isSafe_humanNumber hn, hj, hf]

theorem isSafe_suggestions (response : SearchResponse K) (limit : ℕ) (explainRequested : Bool) :
    IsSafe (suggestions numerics response limit explainRequested) := by
  refine .append (ite (fun _ => isSafe_noMatch) fun _ => ?_) <| ite (fun _ => ?_) fun _ => .nil
  case refine_1 => exact .append (by simp +decide) <| .flatMap fun _ _ => isSafe_suggestion hn
  case refine_2 => exact .append (by simp +decide) (isSafe_explain hn response limit)

end

end Renderer

end Howlinux
