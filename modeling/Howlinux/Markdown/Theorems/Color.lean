import Howlinux.Markdown.Theorems.Spans
import Howlinux.Render.Theorems.Text

open Bytes List

namespace Howlinux

-- The parameters that the renderer selects a style with.
def styles : List String :=
  ["36", "4", "1", "3", "1;36"]

-- A line of the plain output in place of a heading's style.
def underline (level : ℕ) (title : Bytes) : Bytes :=
  replicate title.length (if level = 1 then byte '=' else byte '-') ++ [byte '\n']

-- A stretch of the output without terminal controls of its own, in a single style if any.
inductive Run
  | plain (output : Bytes) (isSafe : IsSafe output)
  | styled (parameters : String) (output : Bytes) (isStyle : parameters ∈ styles) (isSafe : IsSafe output)
  | heading (level : ℕ) (title output : Bytes) (isSafe : IsSafe output)

def Run.render (color : Bool) : Run → Bytes
  | plain output _               => output
  | styled parameters output ..  => if color then style parameters ++ output ++ style "0" else output
  | heading level title output _ =>
    if color then
      style "1;36" ++ output ++ style "0" ++ [byte '\n']
    else
      output ++ [byte '\n'] ++ underline level title

-- What is printed in color and without is the same runs.
def Presents (output : Bool → Bytes) : Prop :=
  ∃ runs : List Run, ∀ color, output color = runs.flatMap (Run.render color)

namespace Presents

variable {text : Bytes} {output output' : Bool → Bytes}

theorem nil : Presents fun _ => [] :=
  ⟨[], fun _ => rfl⟩

theorem append (h : Presents output) (h' : Presents output') :
    Presents fun color => output color ++ output' color := by
  have ⟨runs, hr⟩ := h
  have ⟨runs', hr'⟩ := h'
  exact ⟨runs ++ runs', fun color => by rw [flatMap_append, ← hr, ← hr']⟩

theorem flatMap {α : Type*} {items : List α} {print : α → Bool → Bytes} (h : ∀ item, Presents (print item)) :
    Presents fun color => items.flatMap (print · color) := by
  induction items
  case nil             => exact nil
  case cons item _ hi  => exact (h item).append hi

theorem run (run : Run) : Presents run.render :=
  ⟨[run], fun _ => (flatMap_singleton _ _).symm⟩

theorem plain (h : IsSafe text) : Presents fun _ => text :=
  run (.plain text h)

theorem styled {parameters : String} (h : parameters ∈ styles) : Presents (styled text parameters) := by
  have hr : Howlinux.styled text parameters =
      (Run.render · (.styled parameters (literal text) h isSafe_literal)) := by
    funext color
    cases color <;> simp [Howlinux.styled, Run.render]
  exact hr ▸ run _

end Presents

section

variable {text line paragraph title : Bytes} {state : MarkdownState} {level : ℕ}

theorem presents_span (span : Span) : Presents span.render := by
  cases span
  case plain      => exact .plain isSafe_literal
  case escaped ch => exact .plain (@isSafe_literal [ch])
  case code       => exact .styled (by decide)
  case emphasis   => exact .styled (by split <;> decide)
  case link label url =>
    refine .append (.styled (by decide)) (.plain ?_)
    exact .ite (fun _ => .nil) fun _ => .append (.append rfl isSafe_literal) rfl

theorem presents_inlineText : Presents (inlineText text) := by
  have ⟨spans, _, _, hr⟩ := exists_spans text
  have hi : inlineText text = fun color => spans.flatMap (Span.render color) := funext hr
  exact hi ▸ .flatMap presents_span

theorem presents_flushParagraph : Presents (flushParagraph · paragraph) := by
  unfold flushParagraph
  split
  case isTrue  => exact .nil
  case isFalse => exact .append presents_inlineText (.plain rfl)

theorem presents_heading : Presents (heading · level title) := by
  have hr : (heading · level title) = (Run.render · (.heading level title _ (@isSafe_inlineText title))) := by
    funext color
    cases color <;> simp [heading, Run.render, underline]
  exact hr ▸ .run _

theorem presents_fencedCode {indent : ℕ} : Presents (fencedCode line · indent) :=
  .append (.append (.plain rfl) (.styled (by decide))) (.plain rfl)

theorem presents_renderText : Presents fun color => (renderText line color paragraph).1 := by
  have hn : IsSafe [byte '\n'] := rfl
  unfold renderText
  dsimp only
  split_ifs
  case pos => exact .append (.append presents_flushParagraph (.styled (by decide))) (.plain hn)
  case pos => exact .append presents_flushParagraph presents_heading
  case pos => exact .append (.append (.append presents_flushParagraph (.plain rfl)) presents_inlineText) (.plain hn)
  case pos =>
    have hs : IsSafe (replicate ((indentation line).getD 0) (byte ' ')) := isSafe_replicate rfl
    have hp := (@presents_flushParagraph paragraph).append (.plain hs)
    exact .append (.append (.append hp (.plain rfl)) presents_inlineText) (.plain hn)
  case pos => exact .append presents_flushParagraph (.plain hn)
  all_goals exact .nil

theorem presents_renderLine : Presents fun color => (renderLine line color state).1 := by
  unfold renderLine
  split
  case h_1 => exact .nil
  case h_2 => exact presents_fencedCode
  case h_3 => exact presents_flushParagraph
  case h_4 => exact presents_renderText

-- What the next lines are read with does not depend on the color.
theorem renderLine_state {color : Bool} : (renderLine line color state).2 = (renderLine line false state).2 := by
  have ht : (renderText line color state.paragraph).2 = (renderText line false state.paragraph).2 := by
    unfold renderText
    dsimp only
    split_ifs <;> rfl
  unfold renderLine
  split
  case h_4 => simp only [ht]
  all_goals rfl

theorem renderLines_state {color : Bool} {input : List Bytes} :
    (renderLines color state input).2 = (renderLines false state input).2 := by
  induction input generalizing state
  case nil => rfl
  case cons line rest hi =>
    simp only [renderLines]
    rw [hi, renderLine_state]

theorem presents_renderLines {input : List Bytes} : Presents fun color => (renderLines color state input).1 := by
  induction input generalizing state
  case nil => exact .nil
  case cons line rest hi =>
    simp only [renderLines]
    have hs {color : Bool} := @renderLine_state (chompReturn line) state color
    simp only [hs]
    exact .append presents_renderLine hi

end

-- Color only adds styles, each of them reset where its text ends, and drops the underlines of headings.
theorem color_is_presentation (markdown : Bytes) :
    IsSafe (renderMarkdown markdown false) ∧
    ∃ runs : List Run, renderMarkdown markdown false = runs.flatMap (Run.render false) ∧
      renderMarkdown markdown true = runs.flatMap (Run.render true) := by
  have hs {color : Bool} := @renderLines_state {} color (lines markdown)
  have hm : renderMarkdown markdown = fun color => (renderLines color {} (lines markdown)).1 ++
      flushParagraph color (renderLines false {} (lines markdown)).2.paragraph := by
    funext color
    rw [← @hs color]
    rfl
  have hp : Presents (renderMarkdown markdown) := hm ▸ presents_renderLines.append presents_flushParagraph
  have ⟨runs, hr⟩ := hp
  exact ⟨isSafe_renderMarkdown, runs, hr false, hr true⟩

end Howlinux
