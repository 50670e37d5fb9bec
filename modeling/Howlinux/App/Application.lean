import Howlinux.App.Cli
import Howlinux.Knowledge.Theorems.Layout
import Howlinux.Render.Json

open Bytes

namespace Howlinux

-- What a run leaves behind.
structure Outcome where
  output   : Bytes := []
  error    : Bytes := []
  exitCode : ℕ := 0
  deriving DecidableEq, Repr

def kSuccess : ℕ := 0

def kNoConfidentResult : ℕ := 1

def kInvalidArguments : ℕ := 2

def kConfigurationError : ℕ := 3

-- What a run finds around it: the answers of the file system, the YAML parser and the terminal, the
-- order of hash containers and the arithmetic of the machine.
structure Environment (K : Type) where
  executablePath       : Bytes
  currentDirectory     : Bytes
  howlinuxKnowledge    : Option Bytes
  paths                : Paths
  knowledgeRoot        : Bytes → KnowledgeRoot
  conceptsFile         : Bytes → ConceptsFile
  parse                : Bytes → YamlOutcome
  targets              : LinkTargets
  terminalColorEnabled : Bool
  order                : HashOrder Bytes
  numerics             : Numerics K

def emitDiagnostics (diagnostics : List Diagnostic) : Bytes :=
  diagnostics.flatMap fun diagnostic => row "" (formatDiagnostic diagnostic)

def errorDiagnosticJson (diagnostic : Diagnostic) : Bytes :=
  ascii "\x7b\"severity\":\"" ++ ascii (if diagnostic.severity = .error then "error" else "warning") ++
  ascii "\",\"path\":\"" ++ escapeJson diagnostic.path ++
  ascii "\",\"entry_id\":\"" ++ escapeJson diagnostic.entryId ++
  ascii "\",\"message\":\"" ++ escapeJson diagnostic.message ++
  ascii "\"\x7d"

def renderConfigurationErrorJson (errorCode : String) (diagnostics : List Diagnostic) : Bytes :=
  ascii "\x7b\"status\":\"error\",\"error\":\"" ++ escapeJson (ascii errorCode) ++
  ascii "\",\"diagnostics\":" ++ writeJsonArray (diagnostics.map errorDiagnosticJson) ++
  ascii "\x7d\n"

namespace Environment

section

variable {K : Type} (environment : Environment K) (options : CliOptions)

def knowledgePath : Bytes :=
  resolveKnowledgePath environment.paths environment.currentDirectory environment.howlinuxKnowledge options
    environment.executablePath

def loadKnowledge : KnowledgeBase :=
  let path := environment.knowledgePath options
  KnowledgeBase.load environment.parse path (environment.knowledgeRoot <| lexicallyNormal path) default

def loadConcepts : ConceptDictionary :=
  let path := slash (environment.knowledgePath options) (ascii "concepts.yaml")
  ConceptDictionary.load environment.order path (environment.conceptsFile path) default

end

section

variable {K : Type} (environment : Environment K) (knowledge : KnowledgeBase)
  (concepts : ConceptDictionary) (options : CliOptions)

def knowledgeUnavailable : Outcome where
  output   :=
    if options.command = .validate ∧ options.json then
      Renderer.validationJson knowledge.report {} {}
    else if options.json then
      renderConfigurationErrorJson "knowledge_unavailable" knowledge.report.diagnostics
    else
      []
  error    := emitDiagnostics knowledge.report.diagnostics
  exitCode := kConfigurationError

def conceptsUnusable : Outcome where
  output   :=
    if options.command = .validate then
      if options.json then
        Renderer.validationJson knowledge.report concepts.report {}
      else
        Renderer.validation knowledge.report concepts.report {}
    else if options.json then
      renderConfigurationErrorJson "concepts_invalid" concepts.report.diagnostics
    else
      []
  exitCode := kConfigurationError

def runValidate : Outcome :=
  let lintReport := knowledge.lint environment.targets environment.order concepts
  { output   :=
      if options.json then
        Renderer.validationJson knowledge.report concepts.report lintReport
      else
        Renderer.validation knowledge.report concepts.report lintReport
    exitCode :=
      if knowledge.report.hasIssues || concepts.report.hasIssues || lintReport.hasIssues then
        kNoConfidentResult else kSuccess }

def runList : Outcome where
  output   := if options.json then Renderer.listJson knowledge else Renderer.list knowledge
  exitCode := kSuccess

def runShow : Outcome :=
  match knowledge.findById options.entryId with
  | none =>
    { output   :=
        if options.json then
          ascii "\x7b\"status\":\"not_found\",\"id\":\"" ++ escapeJson options.entryId ++ ascii "\"\x7d\n"
        else
          ascii "No knowledge entry with ID '" ++ options.entryId ++ ascii "'.\n"
      exitCode := kNoConfidentResult }
  | some entry =>
    { output   :=
        if options.json then
          Renderer.entryJson entry
        else
          Renderer.entry entry knowledge options.raw environment.terminalColorEnabled
      exitCode := kSuccess }

end

variable {K : Type} [Zero K] [Add K] [Sub K] [Mul K] [Div K] [Min K] [LT K] [DecidableLT K] [LE K]
  [DecidableLE K] [DecidableEq K] [NatCast K] [OfScientific K] (environment : Environment K)
  (knowledge : KnowledgeBase) (concepts : ConceptDictionary) (options : CliOptions)

def engine : SearchEngine K where
  knowledge := knowledge
  concepts  := concepts
  numerics  := environment.numerics
  order     := environment.order

-- The text of a search. A confident decision always has a selection.
def searchText (response : SearchResponse K) (decision : PolicyDecision K) : Bytes :=
  match decision.status, decision.selected with
  | .confident, some selected =>
    Renderer.entry selected.entry knowledge options.raw environment.terminalColorEnabled ++
      if options.explain then Renderer.explain environment.numerics response options.limit else []
  | .confident, none => []
  | .uncertain, _    =>
    Renderer.suggestions environment.numerics response options.limit options.explain
  | .noMatch, _      => Renderer.noMatch options.query

def runSearch : Outcome :=
  let (response, decision) := (environment.engine knowledge concepts).respond options.query options.limit
  { output   :=
      if options.json then
        Renderer.searchJson environment.numerics response decision options.limit options.explain
      else
        environment.searchText knowledge options response decision
    exitCode := if decision.status = .confident then kSuccess else kNoConfidentResult }

-- A command that needs the knowledge base, once it has been loaded.
def runCommand : Outcome :=
  match options.command with
  | .validate => environment.runValidate knowledge concepts options
  | .list     => runList knowledge options
  | .show     => environment.runShow knowledge options
  | _         => environment.runSearch knowledge concepts options

-- The diagnostics of a load, and the warning about an empty one. `validate` reports them itself.
def loadErrors : Bytes :=
  if options.command = .validate then
    []
  else
    emitDiagnostics knowledge.report.diagnostics ++ emitDiagnostics concepts.report.diagnostics ++
      if concepts.report.usable ∧ knowledge.entries.isEmpty then
        row "Warning: the knowledge directory contains no valid entries: "
          (environment.knowledgePath options)
      else
        []

def runOptions : Outcome :=
  let knowledge := environment.loadKnowledge options
  let concepts  := environment.loadConcepts options
  if !knowledge.report.rootAvailable then
    knowledgeUnavailable knowledge options
  else
    let outcome := if !concepts.report.usable then
      conceptsUnusable knowledge concepts options else environment.runCommand knowledge concepts options
    { outcome with error := environment.loadErrors knowledge concepts options }

def runApplication (arguments : List Bytes) : Outcome :=
  match parseCommandLine arguments with
  | .error error => {
      error    := row "Error: " error ++ text "Try 'howlinux --help' for usage."
      exitCode := kInvalidArguments }
  | .ok options =>
    match options.command with
    | .help    => { output := printHelp, exitCode := kSuccess }
    | .version => { output := row "howlinux " kVersion, exitCode := kSuccess }
    | _        => environment.runOptions options

theorem output_runOptions : (environment.runOptions options).output =
    if !(environment.loadKnowledge options).report.rootAvailable then
      (knowledgeUnavailable (environment.loadKnowledge options) options).output
    else if !(environment.loadConcepts options).report.usable then
      (conceptsUnusable (environment.loadKnowledge options) (environment.loadConcepts options) options).output
    else
      (environment.runCommand (environment.loadKnowledge options) (environment.loadConcepts options)
        options).output := by
  unfold runOptions
  dsimp only
  split
  case isTrue  => rfl
  case isFalse => exact apply_ite Outcome.output ..

theorem exitCode_runOptions : (environment.runOptions options).exitCode =
    if !(environment.loadKnowledge options).report.rootAvailable then
      kConfigurationError
    else if !(environment.loadConcepts options).report.usable then
      kConfigurationError
    else
      (environment.runCommand (environment.loadKnowledge options) (environment.loadConcepts options)
        options).exitCode := by
  unfold runOptions
  dsimp only
  split
  case isTrue  => rfl
  case isFalse => exact apply_ite Outcome.exitCode ..

end Environment

theorem wellFormed_emptyDirectory : (Directory.mk .missing .missing none [] none).WellFormed :=
  .intro (by simp [Directory.children]) (by simp [Directory.children])
    (by simp [Directory.subdirectories, Directory.openError, Directory.children])

-- A machine whose knowledge base has no entries, and no concepts.
def Environment.bare : Environment ℚ where
  executablePath       := ascii "/usr/bin/howlinux"
  currentDirectory     := ascii "/home"
  howlinuxKnowledge    := none
  paths                := { weaklyCanonical := some, isDirectory _ := true }
  knowledgeRoot _      := .tree ⟨_, wellFormed_emptyDirectory⟩
  conceptsFile _       := .missing
  parse _              := .yamlException []
  targets              := { isPresent _ := false, weaklyCanonical := some }
  terminalColorEnabled := false
  order                := .sorted
  numerics             := .rational

-- A machine whose knowledge base has two entries in two categories, each of them related to the other one.
def Stocked.environment : Environment ℚ :=
  { Environment.bare with
    knowledgeRoot := fun _ => .tree <| catalog.tree write
    parse         := parse }

end Howlinux
