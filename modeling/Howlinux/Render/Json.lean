import Howlinux.Render.Text

open Bytes

namespace Howlinux

def writeJsonString (value : Bytes) : Bytes :=
  ascii "\"" ++ escapeJson value ++ ascii "\""

-- The commas are written in front of every item but the first.
def writeJsonArray (items : List Bytes) : Bytes :=
  ascii "[" ++ (ascii ",").intercalate items ++ ascii "]"

def writeJsonStringArray (values : List Bytes) : Bytes :=
  writeJsonArray (values.map writeJsonString)

def trueOrFalse (value : Bool) : Bytes :=
  ascii <| if value then "true" else "false"

def writeJsonEntryValue (entry : KnowledgeEntry) : Bytes :=
  ascii "\x7b" ++
  ascii "\"id\":" ++ writeJsonString entry.id ++
  ascii ",\"title\":" ++ writeJsonString entry.title ++
  ascii ",\"type\":" ++ writeJsonString entry.type ++
  ascii ",\"command\":" ++ writeJsonString entry.command ++
  ascii ",\"aliases\":" ++ writeJsonStringArray entry.aliases ++
  ascii ",\"keywords\":" ++ writeJsonStringArray entry.keywords ++
  ascii ",\"related\":" ++ writeJsonStringArray entry.related ++
  ascii ",\"intent\":" ++ writeJsonStringArray entry.intents ++
  ascii ",\"difficulty\":" ++ writeJsonString entry.difficulty ++
  ascii ",\"platforms\":" ++ writeJsonStringArray entry.platforms ++
  ascii ",\"tags\":" ++ writeJsonStringArray entry.tags ++
  ascii ",\"examples\":" ++ writeJsonStringArray entry.examples ++
  ascii ",\"category\":" ++ writeJsonString entry.category ++
  ascii ",\"content\":" ++ writeJsonString entry.content ++
  ascii "\x7d"

def writeJsonEntrySummary (entry : KnowledgeEntry) : Bytes :=
  ascii "\x7b" ++
  ascii "\"id\":" ++ writeJsonString entry.id ++
  ascii ",\"title\":" ++ writeJsonString entry.title ++
  ascii ",\"type\":" ++ writeJsonString entry.type ++
  ascii ",\"command\":" ++ writeJsonString entry.command ++
  ascii ",\"category\":" ++ writeJsonString entry.category ++
  ascii "\x7d"

def writeJsonDiagnostic (scope : String) (diagnostic : Diagnostic) : Bytes :=
  ascii "\x7b" ++
  ascii "\"scope\":" ++ writeJsonString (ascii scope) ++
  ascii ",\"severity\":" ++ writeJsonString (severityName diagnostic.severity) ++
  ascii ",\"path\":" ++ writeJsonString diagnostic.path ++
  ascii ",\"entry_id\":" ++ writeJsonString diagnostic.entryId ++
  ascii ",\"message\":" ++ writeJsonString diagnostic.message ++
  ascii "\x7d"

section

variable {K : Type} [Zero K] [Add K] [DecidableEq K] (numerics : Numerics K)

def writeJsonNumber (value : K) : Bytes :=
  if !numerics.isFinite value then
    ascii "null"
  else if value = 0 then
    ascii "0"
  else
    numerics.general value

def writeJsonBreakdown (breakdown : ScoreBreakdown K) : Bytes :=
  ascii "\x7b" ++
  ascii "\"exact_alias\":" ++ writeJsonNumber numerics breakdown.exactAlias ++
  ascii ",\"phrase\":" ++ writeJsonNumber numerics breakdown.phrase ++
  ascii ",\"command\":" ++ writeJsonNumber numerics breakdown.command ++
  ascii ",\"keywords\":" ++ writeJsonNumber numerics breakdown.keywords ++
  ascii ",\"concepts\":" ++ writeJsonNumber numerics breakdown.concepts ++
  ascii ",\"intent\":" ++ writeJsonNumber numerics breakdown.intent ++
  ascii ",\"title\":" ++ writeJsonNumber numerics breakdown.title ++
  ascii ",\"token_idf\":" ++ writeJsonNumber numerics breakdown.tokenIdf ++
  ascii ",\"fuzzy\":" ++ writeJsonNumber numerics breakdown.fuzzy ++
  ascii ",\"total\":" ++ writeJsonNumber numerics breakdown.total ++
  ascii "\x7d"

def writeJsonSearchResult (result : SearchResult K) (explain : Bool) : Bytes :=
  ascii "\x7b" ++
  ascii "\"id\":" ++ writeJsonString result.entry.id ++
  ascii ",\"title\":" ++ writeJsonString result.entry.title ++
  ascii ",\"score\":" ++ writeJsonNumber numerics result.score ++
  ascii ",\"fuzzy_used\":" ++ trueOrFalse result.fuzzyUsed ++
  ascii ",\"match_reasons\":" ++ writeJsonStringArray result.matchReasons ++
  (if explain then ascii ",\"breakdown\":" ++ writeJsonBreakdown numerics result.breakdown else []) ++
  ascii "\x7d"

end

namespace Renderer

-- The first result stands in for a selection that is missing.
def selectedResult {K : Type} (results : List (SearchResult K)) (decision : PolicyDecision K) :
    Option (SearchResult K) :=
  match decision.status, decision.selected with
  | .confident, none => results.head?
  | _, selected      => selected

def selectedEntry {K : Type} (results : List (SearchResult K)) (decision : PolicyDecision K) : Bytes :=
  match decision.status, selectedResult results decision with
  | .confident, some selected => writeJsonEntryValue selected.entry
  | _, _                      => ascii "null"

def searchJson {K : Type} [Zero K] [Add K] [DecidableEq K] (numerics : Numerics K)
    (response : SearchResponse K) (decision : PolicyDecision K) (limit : ℕ) (explainRequested : Bool) :
    Bytes :=
  let results := limitedResults response limit
  ascii "\x7b" ++
  ascii "\"status\":" ++ writeJsonString (statusName decision.status) ++
  ascii ",\"query\":" ++ writeJsonString response.query.original ++
  ascii ",\"query_type\":" ++ writeJsonString (queryTypeName response.query.type) ++
  ascii ",\"concepts\":" ++ writeJsonStringArray response.query.concepts ++
  ascii ",\"results\":" ++
    writeJsonArray (results.map (writeJsonSearchResult numerics · explainRequested)) ++
  ascii ",\"entry\":" ++ selectedEntry results decision ++
  ascii "\x7d\n"

def entryJson (value : KnowledgeEntry) : Bytes :=
  ascii "\x7b\"status\":\"ok\",\"entry\":" ++ writeJsonEntryValue value ++
  ascii "\x7d\n"

def listJson (knowledge : KnowledgeBase) : Bytes :=
  let entries := sortedEntries knowledge
  ascii "\x7b\"status\":\"ok\",\"count\":" ++ decimal entries.length ++
  ascii ",\"entries\":" ++ writeJsonArray (entries.map writeJsonEntrySummary) ++
  ascii "\x7d\n"

def knowledgeJson (report : KnowledgeLoadReport) : Bytes :=
  ascii "\x7b" ++
  ascii "\"root_available\":" ++ trueOrFalse report.rootAvailable ++
  ascii ",\"discovered_entries\":" ++ decimal report.discoveredEntries ++
  ascii ",\"loaded_entries\":" ++ decimal report.loadedEntries ++
  ascii ",\"skipped_entries\":" ++ decimal report.skippedEntries ++
  ascii ",\"empty\":" ++ trueOrFalse (report.loadedEntries == 0) ++
  ascii "\x7d"

def conceptsJson (report : ConceptLoadReport) : Bytes :=
  ascii "\x7b" ++
  ascii "\"file_present\":" ++ trueOrFalse report.filePresent ++
  ascii ",\"usable\":" ++ trueOrFalse report.usable ++
  ascii ",\"concepts_loaded\":" ++ decimal report.conceptsLoaded ++
  ascii "\x7d"

def lintJson (report : KnowledgeLintReport) : Bytes :=
  ascii "\x7b" ++
  ascii "\"performed\":" ++ trueOrFalse report.performed ++
  ascii ",\"entries_checked\":" ++ decimal report.entriesChecked ++
  ascii ",\"aliases_checked\":" ++ decimal report.aliasesChecked ++
  ascii ",\"keywords_checked\":" ++ decimal report.keywordsChecked ++
  ascii ",\"concepts_checked\":" ++ decimal report.conceptsChecked ++
  ascii "\x7d"

-- The diagnostics of all reports, with the scopes they are written under.
def scopedDiagnostics (knowledgeReport : KnowledgeLoadReport) (conceptReport : ConceptLoadReport)
    (lintReport : KnowledgeLintReport) : List (String × Diagnostic) :=
  knowledgeReport.diagnostics.map ("knowledge", ·) ++ conceptReport.diagnostics.map ("concepts", ·) ++
    lintReport.diagnostics.map ("lint", ·)

def validationJson (knowledgeReport : KnowledgeLoadReport) (conceptReport : ConceptLoadReport)
    (lintReport : KnowledgeLintReport) : Bytes :=
  ascii "\x7b" ++
  ascii "\"status\":" ++
    writeJsonString (validationStatus knowledgeReport conceptReport lintReport) ++
  ascii ",\"knowledge\":" ++ knowledgeJson knowledgeReport ++
  ascii ",\"concepts\":" ++ conceptsJson conceptReport ++
  ascii ",\"lint\":" ++ lintJson lintReport ++
  ascii ",\"diagnostics\":" ++ writeJsonArray
    ((scopedDiagnostics knowledgeReport conceptReport lintReport).map fun (scope, diagnostic) =>
      writeJsonDiagnostic scope diagnostic) ++
  ascii "\x7d\n"

end Renderer

end Howlinux
