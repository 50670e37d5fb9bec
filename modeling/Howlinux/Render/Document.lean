import Howlinux.Library.Json
import Howlinux.Render.Json

open Bytes
open Json (named)

namespace Howlinux

-- The values that the JSON texts of the renderer stand for.
namespace Document

def string (value : Bytes) : Json :=
  .string (Utf8.decode value)

def strings (values : List Bytes) : Json :=
  .array (values.map string)

def natural (n : ℕ) : Json :=
  .number (decimal n)

def entry (value : KnowledgeEntry) : Json :=
  .object [
    named "id"         (string value.id),
    named "title"      (string value.title),
    named "type"       (string value.type),
    named "command"    (string value.command),
    named "aliases"    (strings value.aliases),
    named "keywords"   (strings value.keywords),
    named "related"    (strings value.related),
    named "intent"     (strings value.intents),
    named "difficulty" (string value.difficulty),
    named "platforms"  (strings value.platforms),
    named "tags"       (strings value.tags),
    named "examples"   (strings value.examples),
    named "category"   (string value.category),
    named "content"    (string value.content)]

def summary (entry : KnowledgeEntry) : Json :=
  .object [
    named "id"       (string entry.id),
    named "title"    (string entry.title),
    named "type"     (string entry.type),
    named "command"  (string entry.command),
    named "category" (string entry.category)]

def diagnostic (scope : String) (diagnostic : Diagnostic) : Json :=
  .object [
    named "scope"    (string <| ascii scope),
    named "severity" (string <| severityName diagnostic.severity),
    named "path"     (string diagnostic.path),
    named "entry_id" (string diagnostic.entryId),
    named "message"  (string diagnostic.message)]

section

variable {K : Type} [Zero K] [Add K] [DecidableEq K] (numerics : Numerics K)

-- Numbers that are not finite are lost.
def number (value : K) : Json :=
  if !numerics.isFinite value then .null else if value = 0 then natural 0 else .number (numerics.general value)

def breakdown (value : ScoreBreakdown K) : Json :=
  .object [
    named "exact_alias" (number numerics value.exactAlias),
    named "phrase"      (number numerics value.phrase),
    named "command"     (number numerics value.command),
    named "keywords"    (number numerics value.keywords),
    named "concepts"    (number numerics value.concepts),
    named "intent"      (number numerics value.intent),
    named "title"       (number numerics value.title),
    named "token_idf"   (number numerics value.tokenIdf),
    named "fuzzy"       (number numerics value.fuzzy),
    named "total"       (number numerics value.total)]

def result (explain : Bool) (value : SearchResult K) : Json :=
  .object <| [
    named "id"            (string value.entry.id),
    named "title"         (string value.entry.title),
    named "score"         (number numerics value.score),
    named "fuzzy_used"    (.bool value.fuzzyUsed),
    named "match_reasons" (strings value.matchReasons)] ++
    if explain then [named "breakdown" (breakdown numerics value.breakdown)] else []

def selected (results : List (SearchResult K)) (decision : PolicyDecision K) : Json :=
  match decision.status, Renderer.selectedResult results decision with
  | .confident, some selected => entry selected.entry
  | _, _                      => .null

def search (response : SearchResponse K) (decision : PolicyDecision K) (limit : ℕ) (explain : Bool) : Json :=
  let results := limitedResults response limit
  .object [
    named "status"     (string <| statusName decision.status),
    named "query"      (string response.query.original),
    named "query_type" (string <| queryTypeName response.query.type),
    named "concepts"   (strings response.query.concepts),
    named "results"    (.array <| results.map (result numerics explain)),
    named "entry"      (selected results decision)]

end

def shown (value : KnowledgeEntry) : Json :=
  .object [
    named "status" (string <| ascii "ok"),
    named "entry"  (entry value)]

def notFound (id : Bytes) : Json :=
  .object [
    named "status" (string <| ascii "not_found"),
    named "id"     (string id)]

def list (knowledge : KnowledgeBase) : Json :=
  let entries := sortedEntries knowledge
  .object [
    named "status"  (string <| ascii "ok"),
    named "count"   (natural entries.length),
    named "entries" (.array <| entries.map summary)]

def knowledge (report : KnowledgeLoadReport) : Json :=
  .object [
    named "root_available"     (.bool report.rootAvailable),
    named "discovered_entries" (natural report.discoveredEntries),
    named "loaded_entries"     (natural report.loadedEntries),
    named "skipped_entries"    (natural report.skippedEntries),
    named "empty"              (.bool <| report.loadedEntries == 0)]

def concepts (report : ConceptLoadReport) : Json :=
  .object [
    named "file_present"    (.bool report.filePresent),
    named "usable"          (.bool report.usable),
    named "concepts_loaded" (natural report.conceptsLoaded)]

def lint (report : KnowledgeLintReport) : Json :=
  .object [
    named "performed"        (.bool report.performed),
    named "entries_checked"  (natural report.entriesChecked),
    named "aliases_checked"  (natural report.aliasesChecked),
    named "keywords_checked" (natural report.keywordsChecked),
    named "concepts_checked" (natural report.conceptsChecked)]

def validation (knowledgeReport : KnowledgeLoadReport) (conceptReport : ConceptLoadReport)
    (lintReport : KnowledgeLintReport) : Json :=
  .object [
    named "status"      (string <| validationStatus knowledgeReport conceptReport lintReport),
    named "knowledge"   (knowledge knowledgeReport),
    named "concepts"    (concepts conceptReport),
    named "lint"        (lint lintReport),
    named "diagnostics" (.array <| (Renderer.scopedDiagnostics knowledgeReport conceptReport lintReport).map
      fun (scope, value) => diagnostic scope value)]

def errorDiagnostic (diagnostic : Diagnostic) : Json :=
  .object [
    named "severity" (string <| severityName diagnostic.severity),
    named "path"     (string diagnostic.path),
    named "entry_id" (string diagnostic.entryId),
    named "message"  (string diagnostic.message)]

def configurationError (errorCode : String) (diagnostics : List Diagnostic) : Json :=
  .object [
    named "status"      (string <| ascii "error"),
    named "error"       (string <| ascii errorCode),
    named "diagnostics" (.array <| diagnostics.map errorDiagnostic)]

end Document

end Howlinux
