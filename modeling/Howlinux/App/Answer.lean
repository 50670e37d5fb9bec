import Howlinux.App.Application

open Bytes

namespace Howlinux

-- What a run is asked, apart from the way in which the answer is to be printed.
structure Question where
  command               : CliCommand
  knowledgePath         : Bytes
  knowledgePathExplicit : Bool
  query                 : Bytes
  entryId               : Bytes
  deriving DecidableEq, Repr

structure Presentation where
  limit   : ℕ
  explain : Bool
  json    : Bool
  raw     : Bool
  deriving DecidableEq, Repr

namespace CliOptions

variable (options : CliOptions)

def question : Question where
  command               := options.command
  knowledgePath         := options.knowledgePath
  knowledgePathExplicit := options.knowledgePathExplicit
  query                 := options.query
  entryId               := options.entryId

def presentation : Presentation where
  limit   := options.limit
  explain := options.explain
  json    := options.json
  raw     := options.raw

end CliOptions

-- The question on its own, in the default presentation.
def Question.options (question : Question) : CliOptions where
  command               := question.command
  knowledgePath         := question.knowledgePath
  knowledgePathExplicit := question.knowledgePathExplicit
  query                 := question.query
  entryId               := question.entryId

-- What a run finds out, before anything of it is printed.
inductive Answer (K : Type)
  | unavailable (report : KnowledgeLoadReport)
  | unusable (knowledgeReport : KnowledgeLoadReport) (conceptReport : ConceptLoadReport)
  | validated (knowledgeReport : KnowledgeLoadReport) (conceptReport : ConceptLoadReport)
    (lintReport : KnowledgeLintReport)
  | listed (knowledge : KnowledgeBase)
  | found (knowledge : KnowledgeBase) (entry : KnowledgeEntry)
  | unknown (id : Bytes)
  | ranked (knowledge : KnowledgeBase) (query : QueryContext) (ranking : List (SearchResult K))

namespace Answer

section

variable {K : Type} [Sub K] [LT K] [DecidableLT K] [LE K] [DecidableLE K] [OfScientific K]

def exitCode : Answer K → ℕ
  | unavailable _ | unusable _ _ => kConfigurationError
  | validated knowledgeReport conceptReport lintReport =>
    if knowledgeReport.hasIssues || conceptReport.hasIssues || lintReport.hasIssues then
      kNoConfidentResult else kSuccess
  | listed _ | found _ _ => kSuccess
  | unknown _ => kNoConfidentResult
  | ranked _ _ ranking =>
    if (({} : ResultPolicy K).decide ranking).status = .confident then kSuccess else kNoConfidentResult

end

section

variable {K : Type} [Zero K] [Add K] [Sub K] [LT K] [DecidableLT K] [LE K] [DecidableLE K] [DecidableEq K]
  [OfScientific K] (numerics : Numerics K) (presentation : Presentation)

-- The part of a ranking that is printed, which the policy decides on as well.
def response (query : QueryContext) (ranking : List (SearchResult K)) : SearchResponse K where
  query   := query
  results := ranking.take (max presentation.limit 2)

def json (command : CliCommand) : Answer K → Bytes
  | unavailable report =>
    if command = .validate then
      Renderer.validationJson report {} {}
    else
      renderConfigurationErrorJson "knowledge_unavailable" report.diagnostics
  | unusable knowledgeReport conceptReport =>
    if command = .validate then
      Renderer.validationJson knowledgeReport conceptReport {}
    else
      renderConfigurationErrorJson "concepts_invalid" conceptReport.diagnostics
  | validated knowledgeReport conceptReport lintReport =>
    Renderer.validationJson knowledgeReport conceptReport lintReport
  | listed knowledge => Renderer.listJson knowledge
  | found _ entry => Renderer.entryJson entry
  | unknown id =>
    ascii "\x7b\"status\":\"not_found\",\"id\":\"" ++ escapeJson id ++ ascii "\"\x7d\n"
  | ranked _ query ranking =>
    Renderer.searchJson numerics (response presentation query ranking) (({} : ResultPolicy K).decide ranking)
      presentation.limit presentation.explain

def text (color : Bool) (command : CliCommand) : Answer K → Bytes
  | unavailable _ => []
  | unusable knowledgeReport conceptReport =>
    if command = .validate then Renderer.validation knowledgeReport conceptReport {} else []
  | validated knowledgeReport conceptReport lintReport =>
    Renderer.validation knowledgeReport conceptReport lintReport
  | listed knowledge => Renderer.list knowledge
  | found knowledge entry => Renderer.entry entry knowledge presentation.raw color
  | unknown id => ascii "No knowledge entry with ID '" ++ id ++ ascii "'.\n"
  | ranked knowledge query ranking =>
    let response := response presentation query ranking
    let decision := ({} : ResultPolicy K).decide ranking
    match decision.status, decision.selected with
    | .confident, some selected =>
      Renderer.entry selected.entry knowledge presentation.raw color ++
        if presentation.explain then Renderer.explain numerics response presentation.limit else []
    | .confident, none => []
    | .uncertain, _    => Renderer.suggestions numerics response presentation.limit presentation.explain
    | .noMatch, _      => Renderer.noMatch query.original

def output (color : Bool) (command : CliCommand) (answer : Answer K) : Bytes :=
  if presentation.json then
    answer.json numerics presentation command
  else
    answer.text numerics presentation color command

end

end Answer

namespace Environment

section

variable {K : Type} (environment : Environment K) (question : Question)

-- What a run prints as errors.
def errors : Bytes :=
  let knowledge := environment.loadKnowledge question.options
  if !knowledge.report.rootAvailable then
    emitDiagnostics knowledge.report.diagnostics
  else
    environment.loadErrors knowledge (environment.loadConcepts question.options) question.options

end

variable {K : Type} [Zero K] [Add K] [Sub K] [Mul K] [Div K] [Min K] [LT K] [DecidableLT K] [LE K]
  [DecidableLE K] [DecidableEq K] [NatCast K] [OfScientific K] (environment : Environment K)
  (knowledge : KnowledgeBase) (concepts : ConceptDictionary) (question : Question)

-- The answer to a question whose knowledge base and concepts have been loaded.
def commandAnswer : Answer K :=
  match question.command with
  | .validate =>
    .validated knowledge.report concepts.report (knowledge.lint environment.targets environment.order concepts)
  | .list     => .listed knowledge
  | .show     =>
    match knowledge.findById question.entryId with
    | none       => .unknown question.entryId
    | some entry => .found knowledge entry
  | _         =>
    let engine := environment.engine knowledge concepts
    let query  := engine.queryProcessor.process question.query
    .ranked knowledge query (engine.ranking query)

def answer : Answer K :=
  let knowledge := environment.loadKnowledge question.options
  let concepts  := environment.loadConcepts question.options
  if !knowledge.report.rootAvailable then
    .unavailable knowledge.report
  else if !concepts.report.usable then
    .unusable knowledge.report concepts.report
  else
    environment.commandAnswer knowledge concepts question

end Environment

end Howlinux
