import Howlinux.App.Main
import Howlinux.App.Theorems.Presentation
import Howlinux.Markdown.Theorems.Color
import Howlinux.Render.Theorems.Text

open Bytes

namespace Howlinux

theorem presents_renderMarkdown (markdown : Bytes) : Presents (renderMarkdown markdown) := by
  have hs {color : Bool} := @renderLines_state {} color (lines markdown)
  have hm : renderMarkdown markdown = fun color => (renderLines color {} (lines markdown)).1 ++
      flushParagraph color (renderLines false {} (lines markdown)).2.paragraph := by
    funext color
    rw [← @hs color]
    rfl
  exact hm ▸ presents_renderLines.append presents_flushParagraph

theorem Renderer.presents_entry (entry : KnowledgeEntry) (knowledge : KnowledgeBase) :
    Presents (Renderer.entry entry knowledge false) := by
  have ht : IsSafe (row "" (humanSafe entry.title)) := by simp +decide
  have hi : IsSafe (row "ID: " (humanSafe entry.id) ++ text "") := by simp +decide
  have hr : "1;36" ∈ styles := by decide
  have hh : Presents (entryHeader entry) := by
    have : entryHeader entry = fun color => (Run.styled "1;36" _ hr ht).render color ++
        (row "ID: " (humanSafe entry.id) ++ text "") := by
      funext color
      cases color <;> simp [entryHeader, Run.render]
    exact this ▸ (Presents.run _).append (.plain hi)
  have hn : IsSafe (if entry.content.isEmpty then [byte '\n'] else []) := .ite (fun _ => rfl) fun _ => .nil
  have he : Renderer.entry entry knowledge false = fun color => entryHeader entry color ++
      renderMarkdown (untitledContent entry) color ++ (if entry.content.isEmpty then [byte '\n'] else []) ++
      entryRelated entry knowledge := by
    funext color
    simp [Renderer.entry]
  exact he ▸ ((hh.append (presents_renderMarkdown _)).append (.plain hn)).append (.plain isSafe_entryRelated)

-- Output that shows its styles between two texts that are the same on every terminal.
def PresentsWithin (output : Bool → Bytes) (runs : List Run) : Prop :=
  ∃ front back, ∀ color, output color = front ++ runs.flatMap (Run.render color) ++ back

theorem presentsWithin_const (output : Bytes) : PresentsWithin (fun _ => output) [] :=
  ⟨output, [], fun _ => by simp⟩

section

variable {K : Type} [Field K] [LinearOrder K] {numerics : Numerics K} {presentation : Presentation}
  {command : CliCommand} {answer : Answer K}

-- Only an entry that was found or ranked first is shown in colors.
def Answer.ShowsEntry : Answer K → Prop
  | found _ _    => True
  | ranked _ _ _ => True
  | _            => False

theorem Answer.exists_runs (numerics : Numerics K) (presentation : Presentation) (command : CliCommand)
    (answer : Answer K) : ∃ runs, PresentsWithin (answer.output numerics presentation · command) runs ∧
      (runs ≠ [] → presentation.json = false ∧ presentation.raw = false ∧ answer.exitCode = kSuccess ∧
        answer.ShowsEntry) := by
  have hconst {output : Bool → Bytes} {P : Prop} (h : ∀ color, output color = output false) :
      ∃ runs, PresentsWithin output runs ∧ (runs ≠ [] → P) := by
    refine ⟨[], ?_, fun hn => absurd rfl hn⟩
    rw [show output = fun _ => output false from funext h]
    exact presentsWithin_const _
  have hentry (entry : KnowledgeEntry) (knowledge : KnowledgeBase) (back : Bytes) (hr : presentation.raw = false) :
      ∃ runs, PresentsWithin (fun color => Renderer.entry entry knowledge presentation.raw color ++ back) runs := by
    obtain ⟨runs, h⟩ := Renderer.presents_entry entry knowledge
    exact ⟨runs, [], back, fun color => by simp only [hr, h, List.nil_append]⟩
  unfold output
  cases hj : presentation.json
  case true  => exact hconst fun _ => rfl
  case false =>
    simp only [Bool.false_eq_true, if_false]
    cases hr : presentation.raw
    case true =>
      have hraw (entry : KnowledgeEntry) (knowledge : KnowledgeBase) (color : Bool) :
          Renderer.entry entry knowledge presentation.raw color =
            Renderer.entry entry knowledge presentation.raw false := by
        rw [hr]
        rfl
      refine hconst fun color => ?_
      unfold text
      cases answer
      case found  => exact hraw ..
      case ranked =>
        dsimp only
        split
        case h_1 => rw [hraw]
        all_goals rfl
      all_goals rfl
    case false =>
      unfold text
      cases answer
      case found knowledge entry =>
        obtain ⟨runs, h⟩ := hentry entry knowledge [] hr
        simp only [List.append_nil] at h
        exact ⟨runs, h, fun _ => ⟨trivial, rfl, rfl, trivial⟩⟩
      case ranked knowledge query ranking =>
        dsimp only
        split
        case h_1 selected hs _ =>
          obtain ⟨runs, h⟩ := hentry selected.entry knowledge _ hr
          refine ⟨runs, h, fun _ => ⟨trivial, rfl, ?_, trivial⟩⟩
          simp [exitCode, hs]
        all_goals exact hconst fun _ => rfl
      all_goals exact hconst fun _ => rfl

end

section

variable {K : Type} [Field K] [LinearOrder K] {environment : Environment K} {options : CliOptions}

theorem Environment.command_of_showsEntry (hc : options.command ≠ .help ∧ options.command ≠ .version)
    (h : (environment.answer options.question).ShowsEntry) : options.command = .search ∨ options.command = .show := by
  have hq : options.question.command = options.command := rfl
  unfold answer commandAnswer at h
  rw [hq] at h
  dsimp only at h
  split at h
  case isTrue => contradiction
  case isFalse =>
    split at h
    case isTrue => contradiction
    case isFalse =>
      cases hcommand : options.command <;> simp only [hcommand] at h
      case search   => exact .inl rfl
      case «show»   => exact .inr rfl
      case help     => exact absurd hcommand hc.left
      case version  => exact absurd hcommand hc.right
      all_goals contradiction

-- What a run prints on terminals with and without colors.
theorem Environment.exists_runs_runApplication (environment : Environment K) (arguments : List Bytes) :
    ∃ exitCode error runs, (∃ front back, ∀ color, (environment.withColor color).runApplication arguments =
        { output := front ++ runs.flatMap (Run.render color) ++ back, error, exitCode }) ∧
      (runs ≠ [] → exitCode = kSuccess ∧ ∃ options, parseCommandLine arguments = .ok options ∧
        (options.command = .search ∨ options.command = .show) ∧ options.json = false ∧ options.raw = false) := by
  obtain ⟨outcome, ho⟩ | ⟨options, hp, hc, ho⟩ := runApplication_cases K arguments
  case inl =>
    exact ⟨outcome.exitCode, outcome.error, [], ⟨outcome.output, [], fun color => by
      rw [ho, List.flatMap_nil, List.append_nil, List.append_nil]⟩, fun hn => absurd rfl hn⟩
  case inr =>
    obtain ⟨runs, ⟨front, back, hout⟩, hs⟩ := Answer.exists_runs environment.numerics options.presentation
      options.command (environment.answer options.question)
    refine ⟨(environment.answer options.question).exitCode, environment.errors options.question, runs,
      ⟨front, back, fun color => ?_⟩, fun hn => ?_⟩
    case refine_1 =>
      rw [ho, runOptions_eq, ← hout color]
      rfl
    case refine_2 =>
      obtain ⟨hj, hr, he, hshows⟩ := hs hn
      exact ⟨he, options, hp, command_of_showsEntry hc hshows, hj, hr⟩

end

namespace Process

section

variable {K : Type}

-- The process on another terminal, or with other variables that say what the terminal can show.
def inTerminal (noColor term : Option Bytes) (isatty : Bool) (process : Process K) : Process K :=
  { process with
    getenv name :=
      if name = ascii "NO_COLOR" then noColor else if name = ascii "TERM" then term else process.getenv name
    isatty }

end

end Process

-- The terminal has a part in nothing but the style of a shown entry.
theorem main_color_is_presentation {K : Type} [Field K] [LinearOrder K] (process : Process K) :
    ∃ exitCode error front back, ∃ runs : List Run,
      (∀ noColor term isatty, (process.inTerminal noColor term isatty).main = {
        output := front ++ runs.flatMap (Run.render <| !noColor.any (!·.isEmpty) && isatty &&
          term.any fun term => !term.isEmpty && term != ascii "dumb") ++ back
        error, exitCode }) ∧
      (runs ≠ [] → exitCode = kSuccess ∧ ∃ options, parseCommandLine process.arguments = .ok options ∧
        (options.command = .search ∨ options.command = .show) ∧ options.json = false ∧ options.raw = false) := by
  have henv (noColor term : Option Bytes) (isatty : Bool) (executablePath currentDirectory : Bytes) :
      (process.inTerminal noColor term isatty).environment executablePath currentDirectory =
        (process.environment executablePath currentDirectory).withColor (!noColor.any (!·.isEmpty) && isatty &&
          term.any fun term => !term.isEmpty && term != ascii "dumb") := by
    have hh : ascii "HOWLINUX_KNOWLEDGE" ≠ ascii "NO_COLOR" ∧ ascii "HOWLINUX_KNOWLEDGE" ≠ ascii "TERM" := by decide
    have ht : ascii "TERM" ≠ ascii "NO_COLOR" := by decide
    simp only [Process.environment, Process.inTerminal, Environment.withColor, hh.left, hh.right, if_false]
    congr 1
    simp only [terminalColorEnabled, if_true, ht, if_false]
    cases term
    case none      => simp
    case some term =>
      simp only [Option.any_some, bne]
      generalize noColor.any (!·.isEmpty) = declined
      generalize term.isEmpty = empty
      generalize (term == ascii "dumb") = dumb
      cases declined <;> cases empty <;> cases dumb <;> simp
  unfold Process.main
  cases hcwd : process.currentPath
  case ok currentDirectory =>
    obtain ⟨exitCode, error, runs, ⟨front, back, hout⟩, hs⟩ :=
      (process.environment process.executablePath currentDirectory).exists_runs_runApplication process.arguments
    refine ⟨exitCode, error, front, back, runs, fun noColor term isatty => ?_, hs⟩
    rw [← hout, ← henv]
    simp only [Process.inTerminal, hcwd]
    rfl
  case error message =>
    have hcwd (noColor term : Option Bytes) (isatty : Bool) :
        (process.inTerminal noColor term isatty).currentPath = .error message := hcwd
    cases hp : parseCommandLine process.arguments
    case error parseError =>
      have hp (noColor term : Option Bytes) (isatty : Bool) :
          parseCommandLine (process.inTerminal noColor term isatty).arguments = .error parseError := hp
      refine ⟨kConfigurationError, row "Configuration error: cannot determine current directory: " message, [], [],
        [],
        fun noColor term isatty => ?_, fun hn => absurd rfl hn⟩
      simp [hcwd, hp]
    case ok options =>
      have hp' (noColor term : Option Bytes) (isatty : Bool) :
          parseCommandLine (process.inTerminal noColor term isatty).arguments = .ok options := hp
      cases hi : options.command == .help || options.command == .version
      case false =>
        refine ⟨kConfigurationError, row "Configuration error: cannot determine current directory: " message, [], [],
          [], fun noColor term isatty => ?_, fun hn => absurd rfl hn⟩
        simp [hcwd, hp', hi]
      case true =>
        obtain ⟨exitCode, error, runs, ⟨front, back, hout⟩, hs⟩ :=
          (process.environment process.programName (ascii ".")).exists_runs_runApplication process.arguments
        refine ⟨exitCode, error, front, back, runs, fun noColor term isatty => ?_, hp ▸ hs⟩
        rw [← hout, ← henv]
        simp only [hcwd, hp', hi, if_true]
        rfl

end Howlinux
