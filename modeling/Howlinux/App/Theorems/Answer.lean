import Howlinux.App.Answer
import Howlinux.App.Theorems.Decision
import Howlinux.App.Theorems.Json

open Bytes

namespace Howlinux

section

variable {K : Type} (environment : Environment K) (options : CliOptions)

-- Loading looks at nothing but the question.
@[simp]
theorem Environment.knowledgePath_question :
    environment.knowledgePath options.question.options = environment.knowledgePath options := rfl

@[simp]
theorem Environment.loadKnowledge_question :
    environment.loadKnowledge options.question.options = environment.loadKnowledge options := rfl

@[simp]
theorem Environment.loadConcepts_question :
    environment.loadConcepts options.question.options = environment.loadConcepts options := rfl

end

variable {K : Type} [Field K] [LinearOrder K] (environment : Environment K) (knowledge : KnowledgeBase)
  (concepts : ConceptDictionary) (options : CliOptions)

theorem SearchEngine.respond_eq (engine : SearchEngine K) (text : Bytes) (presentation : Presentation) :
    let query := engine.queryProcessor.process text
    engine.respond text presentation.limit = (Answer.response presentation query (engine.ranking query),
      ({} : ResultPolicy K).decide (engine.ranking query)) := by
  intro query
  have hl : max presentation.limit 2 ≠ 0 := by omega
  refine Prod.ext ?_ (engine.respond_decision text presentation.limit)
  rw [respond, engine.search_eq text hl]
  rfl

namespace Environment

-- Every command prints the answer to its question, and nothing else.
theorem runSearch_eq : environment.runSearch knowledge concepts options =
    let engine := environment.engine knowledge concepts
    let query  := engine.queryProcessor.process options.query
    let answer := Answer.ranked knowledge query (engine.ranking query)
    { output   := answer.output environment.numerics options.presentation environment.terminalColorEnabled
        options.command
      exitCode := answer.exitCode } := by
  have hr := (environment.engine knowledge concepts).respond_eq options.query options.presentation
  rw [runSearch, show options.limit = options.presentation.limit from rfl, hr]
  dsimp only [Answer.output, Answer.exitCode, Answer.json, Answer.text, searchText]
  rfl

theorem runCommand_eq : environment.runCommand knowledge concepts options =
    let answer := environment.commandAnswer knowledge concepts options.question
    { output   := answer.output environment.numerics options.presentation environment.terminalColorEnabled
        options.command
      exitCode := answer.exitCode } := by
  have hc : options.question.command = options.command := rfl
  have hi : options.question.entryId = options.entryId := rfl
  have hs := environment.runSearch_eq knowledge concepts options
  unfold runCommand commandAnswer
  rw [hc, hi]
  cases options.command
  case validate => rfl
  case list     => rfl
  case «show»   =>
    rw [runShow]
    cases knowledge.findById options.entryId <;> rfl
  all_goals exact hs

theorem knowledgeUnavailable_output : (knowledgeUnavailable knowledge options).output =
    (Answer.unavailable knowledge.report : Answer K).output environment.numerics options.presentation
      environment.terminalColorEnabled options.command := by
  unfold knowledgeUnavailable Answer.output Answer.json Answer.text
  dsimp only [CliOptions.presentation]
  by_cases hj : options.json <;> simp [hj]

theorem conceptsUnusable_output : (conceptsUnusable knowledge concepts options).output =
    (Answer.unusable knowledge.report concepts.report : Answer K).output environment.numerics
      options.presentation environment.terminalColorEnabled options.command := by
  unfold conceptsUnusable Answer.output Answer.json Answer.text
  dsimp only [CliOptions.presentation]
  by_cases hj : options.json <;> simp [hj]

theorem runOptions_eq : environment.runOptions options =
    let answer := environment.answer options.question
    { output   := answer.output environment.numerics options.presentation environment.terminalColorEnabled
        options.command
      error    := environment.errors options.question
      exitCode := answer.exitCode } := by
  unfold runOptions answer errors
  rw [loadKnowledge_question, loadConcepts_question]
  dsimp only
  cases (environment.loadKnowledge options).report.rootAvailable
  case false => exact congrArg (Outcome.mk · _ _) <| environment.knowledgeUnavailable_output _ options
  case true  =>
    cases (environment.loadConcepts options).report.usable
    case false => exact congrArg (Outcome.mk · _ _) <| environment.conceptsUnusable_output _ _ options
    case true  =>
      simp only [Bool.not_true, Bool.false_eq_true, if_false, runCommand_eq]
      rfl

end Environment

end Howlinux
