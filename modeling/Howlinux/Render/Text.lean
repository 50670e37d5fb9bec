import Howlinux.Knowledge.Lint
import Howlinux.Markdown.Render
import Howlinux.Search.Engine

open Bytes

namespace Howlinux

def relatedLabel (id : Bytes) (knowledge : KnowledgeBase) : Bytes :=
  match knowledge.findById id with
  | none         => humanSafe id
  | some related =>
    if related.title.isEmpty then humanSafe id else
      humanSafe related.title ++ ascii " (" ++ humanSafe related.id ++ ascii ")"

def joinedHuman (values : List Bytes) (emptyLabel : String) : Bytes :=
  if values.isEmpty then ascii emptyLabel else (ascii ", ").intercalate (values.map humanSafe)

def statusName : ResultStatus → Bytes
  | .confident => ascii "confident"
  | .uncertain => ascii "uncertain"
  | .noMatch   => ascii "no_match"

def severityName : DiagnosticSeverity → Bytes
  | .warning => ascii "warning"
  | .error   => ascii "error"

def yesNo (value : Bool) : Bytes :=
  ascii <| if value then "yes" else "no"

def hasValidationIssues (knowledgeReport : KnowledgeLoadReport) (conceptReport : ConceptLoadReport)
    (lintReport : KnowledgeLintReport) : Bool :=
  !knowledgeReport.rootAvailable || knowledgeReport.skippedEntries != 0 ||
    !knowledgeReport.diagnostics.isEmpty || !conceptReport.usable || !conceptReport.diagnostics.isEmpty ||
    lintReport.hasIssues

def validationStatus (knowledgeReport : KnowledgeLoadReport) (conceptReport : ConceptLoadReport)
    (lintReport : KnowledgeLintReport) : Bytes :=
  ascii <| if !knowledgeReport.rootAvailable then "error" else
    if hasValidationIssues knowledgeReport conceptReport lintReport then "invalid" else "valid"

def sortedBefore (left right : KnowledgeEntry) : Bool :=
  if left.id ≠ right.id then
    left.id < right.id
  else if left.title ≠ right.title then
    left.title < right.title
  else if left.category ≠ right.category then
    left.category < right.category
  else
    left.sourceDirectory < right.sourceDirectory

def sortedEntries (knowledge : KnowledgeBase) : List KnowledgeEntry :=
  knowledge.entries.sortBy sortedBefore

def limitedResults {K : Type} (response : SearchResponse K) (limit : ℕ) : List (SearchResult K) :=
  response.results.take <| if limit = 0 then response.results.length else min limit response.results.length

-- A label, a value and the end of the line.
def row (label : String) (value : Bytes) : Bytes :=
  ascii label ++ value ++ [byte '\n']

def text (line : String) : Bytes :=
  row line []

namespace Renderer

section

variable (value : KnowledgeEntry) (knowledge : KnowledgeBase) (raw color : Bool)

-- The content without a heading that repeats the title, and without the empty line after it.
def untitledContent : Bytes :=
  let firstLine := value.content.takeWhile (· != byte '\n')
  let rest      := value.content.drop (firstLine.length + 1)
  if chompReturn firstLine = ascii "# " ++ value.title then
    if startsWith rest (ascii "\r\n") then
      rest.drop 2
    else if startsWith rest (ascii "\n") then
      rest.drop 1
    else
      rest
  else
    value.content

def entryHeader (color : Bool) : Bytes :=
  (if color then style "1;36" else []) ++ row "" (humanSafe value.title) ++
    (if color then style "0" else []) ++ row "ID: " (humanSafe value.id) ++ text ""

def entryRelated : Bytes :=
  if value.related.isEmpty then [] else
    text "" ++ text "Related:" ++ value.related.flatMap fun relatedId =>
      row "  - " (relatedLabel relatedId knowledge)

-- `color` tells whether the terminal shows colors.
def entry : Bytes :=
  let color   := !raw && color
  let content := if raw then value.content else renderMarkdown (untitledContent value) color
  let newline := value.content.isEmpty || (raw && value.content.getLast? != some (byte '\n'))
  entryHeader value color ++ content ++ (if newline then [byte '\n'] else []) ++ entryRelated value knowledge

end

def noMatch (query : Bytes) : Bytes :=
  row "No local knowledge match found for: " (humanSafe query) ++
    text "Example: howlinux \"rename a folder\""

def list (knowledge : KnowledgeBase) : Bytes :=
  let entries := sortedEntries knowledge
  row "Knowledge entries: " (decimal entries.length) ++
    if entries.isEmpty then
      text "No knowledge entries are loaded."
    else
      entries.flatMap fun entry =>
        row "  - " (humanSafe entry.title ++ ascii " (ID: " ++ humanSafe entry.id ++ ascii ")" ++
          if entry.category.isEmpty then [] else ascii " [" ++ humanSafe entry.category ++ ascii "]")

def writeHumanDiagnostic (scope : String) (diagnostic : Diagnostic) : Bytes :=
  row "  [" (severityName diagnostic.severity ++ ascii "] " ++ ascii scope ++
    (if diagnostic.path.isEmpty then [] else ascii " " ++ humanSafe diagnostic.path) ++
    (if diagnostic.entryId.isEmpty then [] else
      ascii " (ID: " ++ humanSafe diagnostic.entryId ++ ascii ")") ++
    ascii ": " ++ humanSafe diagnostic.message)

def knowledgeRows (report : KnowledgeLoadReport) : Bytes :=
  text "Knowledge:" ++
  row "  Root available: " (yesNo report.rootAvailable) ++
  row "  Discovered entries: " (decimal report.discoveredEntries) ++
  row "  Loaded entries: " (decimal report.loadedEntries) ++
  row "  Skipped entries: " (decimal report.skippedEntries)

def conceptRows (report : ConceptLoadReport) : Bytes :=
  text "Concepts:" ++
  row "  File present: " (yesNo report.filePresent) ++
  row "  Usable: " (yesNo report.usable) ++
  row "  Loaded concepts: " (decimal report.conceptsLoaded)

def lintRows (report : KnowledgeLintReport) : Bytes :=
  text "Lint:" ++
  row "  Performed: " (yesNo report.performed) ++
  row "  Entries checked: " (decimal report.entriesChecked) ++
  row "  Aliases checked: " (decimal report.aliasesChecked) ++
  row "  Keywords checked: " (decimal report.keywordsChecked) ++
  row "  Concepts checked: " (decimal report.conceptsChecked)

def validation (knowledgeReport : KnowledgeLoadReport) (conceptReport : ConceptLoadReport)
    (lintReport : KnowledgeLintReport) : Bytes :=
  row "Validation status: " (validationStatus knowledgeReport conceptReport lintReport) ++
  knowledgeRows knowledgeReport ++ conceptRows conceptReport ++ lintRows lintReport ++
  (if knowledgeReport.rootAvailable ∧ knowledgeReport.loadedEntries = 0 then
    text "Note: the Knowledge directory contains no valid entries." else []) ++
  row "Diagnostics: " (decimal (knowledgeReport.diagnostics.length + conceptReport.diagnostics.length +
    lintReport.diagnostics.length)) ++
  knowledgeReport.diagnostics.flatMap (writeHumanDiagnostic "knowledge") ++
  conceptReport.diagnostics.flatMap (writeHumanDiagnostic "concepts") ++
  lintReport.diagnostics.flatMap (writeHumanDiagnostic "lint")

section

variable {K : Type} [Add K] (numerics : Numerics K)

def humanNumber (value : K) : Bytes :=
  if numerics.isFinite value then numerics.fixed value else ascii "n/a"

def writeHumanBreakdown (breakdown : ScoreBreakdown K) : Bytes :=
  row "    exact_alias: " (humanNumber numerics breakdown.exactAlias) ++
  row "    phrase: " (humanNumber numerics breakdown.phrase) ++
  row "    command: " (humanNumber numerics breakdown.command) ++
  row "    keywords: " (humanNumber numerics breakdown.keywords) ++
  row "    concepts: " (humanNumber numerics breakdown.concepts) ++
  row "    intent: " (humanNumber numerics breakdown.intent) ++
  row "    title: " (humanNumber numerics breakdown.title) ++
  row "    token_idf: " (humanNumber numerics breakdown.tokenIdf) ++
  row "    fuzzy: " (humanNumber numerics breakdown.fuzzy) ++
  row "    total: " (humanNumber numerics breakdown.total)

def explainResult (result : SearchResult K) (index : ℕ) : Bytes :=
  row "  " (decimal (index + 1) ++ ascii ". " ++ humanSafe result.entry.title ++ ascii " (" ++
    humanSafe result.entry.id ++ ascii ")") ++
  row "    score: " (humanNumber numerics result.score) ++
  row "    match_reasons: " (joinedHuman result.matchReasons "none") ++
  row "    fuzzy_used: " (yesNo result.fuzzyUsed) ++
  text "    breakdown:" ++
  writeHumanBreakdown numerics result.breakdown

def explain (response : SearchResponse K) (limit : ℕ) : Bytes :=
  let results := limitedResults response limit
  text "Ranking explanation" ++
  row "  Query: " (humanSafe response.query.original) ++
  row "  Query type: " (queryTypeName response.query.type) ++
  row "  Normalized: " (humanSafe response.query.normalizedQuery) ++
  row "  Concepts: " (joinedHuman response.query.concepts "none") ++
  row "  Tokens: " (joinedHuman response.query.tokens "none") ++
  if results.isEmpty then
    text "  Results: none"
  else
    text "  Results:" ++ results.zipIdx.flatMap fun (result, index) => explainResult numerics result index

def suggestion (result : SearchResult K) (index : ℕ) : Bytes :=
  row "  " (decimal (index + 1) ++ ascii ". " ++ humanSafe result.entry.title) ++
  row "     ID: " (humanSafe result.entry.id) ++
  row "     Score: " (humanNumber numerics result.score) ++
  row "     Match: " (joinedHuman result.matchReasons "candidate match" ++
    if result.fuzzyUsed then ascii " (fuzzy used)" else [])

def suggestions (response : SearchResponse K) (limit : ℕ) (explainRequested : Bool) : Bytes :=
  let results := limitedResults response limit
  (if results.isEmpty then
    noMatch response.query.original
  else
    row "No confident local match for: " (humanSafe response.query.original) ++ text "" ++
    text "Suggestions:" ++ results.zipIdx.flatMap fun (result, index) => suggestion numerics result index) ++
  if explainRequested then text "" ++ explain numerics response limit else []

end

end Renderer

end Howlinux
