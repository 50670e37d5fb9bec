import Howlinux.Search.Distance
import Howlinux.Concepts.Dictionary
import Howlinux.Knowledge.Base

open Bytes

namespace Howlinux

structure KnowledgeLintReport where
  performed       : Bool := false
  entriesChecked  : ℕ := 0
  aliasesChecked  : ℕ := 0
  keywordsChecked : ℕ := 0
  conceptsChecked : ℕ := 0
  diagnostics     : List Diagnostic := []
  deriving DecidableEq, Repr

def KnowledgeLintReport.hasIssues (report : KnowledgeLintReport) : Bool :=
  !report.diagnostics.isEmpty

-- What the file system answers about the target of a link: whether it exists, and the canonical form of a
-- path. `none` stands for an error.
structure LinkTargets where
  isPresent       : Bytes → Bool
  weaklyCanonical : Bytes → Option Bytes

def addLintDiagnostic (path entryId message : Bytes) : Diagnostic :=
  addDiagnostic path entryId message

def trimmed (value : Bytes) : Bytes :=
  (value.dropWhile isSpace).rdropWhile isSpace

def normalizedSearchPhrase (value : Bytes) : Bytes :=
  joinTokens (tokenize value true false)

def aliasesAreOverlySimilar (left right : Bytes) : Bool :=
  if left = right ∨ left.length < 8 ∨ right.length < 8 then
    false
  else
    let leftTokens  := tokenize left true false
    let rightTokens := tokenize right true false
    if leftTokens.length < 2 ∨ leftTokens.length ≠ rightTokens.length then
      false
    else
      max left.length right.length - min left.length right.length ≤ 1 &&
        damerauLevenshteinDistance left right 1 ≤ 1

def pathEscapesRoot (targets : LinkTargets) (path root : Bytes) : Bool :=
  match targets.weaklyCanonical path, targets.weaklyCanonical root with
  | some resolved, some resolvedRoot => (lexicallyRelative resolved resolvedRoot).head? == some (ascii "..")
  | _, _                             => false

def isAngleWrapped (target : Bytes) : Bool :=
  2 ≤ target.length && target.head? == some (byte '<') && target.getLast? == some (byte '>')

-- The destination of a link, without its angle brackets or its title.
def linkTarget (text : Bytes) : Bytes :=
  let target := trimmed text
  if isAngleWrapped target then
    target.tail.dropLast
  else
    target.takeWhile fun b => b != byte ' ' && b != byte '\t'

def isForeignTarget (target : Bytes) : Bool :=
  target.head? == some (byte '#') || (find target (ascii "://")).isSome ||
    startsWith target (ascii "mailto:")

section

variable (targets : LinkTargets) (root : Bytes) (entry : KnowledgeEntry)

def contentPath : Bytes :=
  slash entry.sourceDirectory contentFilename

def linkDiagnostic (message : String) (lineNumber : ℕ) (suffix : Bytes) : Diagnostic :=
  addLintDiagnostic (contentPath entry) entry.id <|
    ascii message ++ ascii " on line " ++ decimal lineNumber ++ suffix

def quotedTarget (target : Bytes) : Bytes :=
  ascii ": '" ++ target ++ ascii "'"

-- The content lies in the source directory, which relative targets start from.
def lintTarget (lineNumber : ℕ) (target : Bytes) : List Diagnostic :=
  if target.isEmpty then
    [linkDiagnostic entry "empty Markdown link target" lineNumber []]
  else if isForeignTarget target then
    []
  else if target.head? == some (byte '/') then
    [linkDiagnostic entry "absolute Markdown link target" lineNumber (quotedTarget target)]
  else
    let file := target.takeWhile fun b => b != byte '#' && b != byte '?'
    let resolved := slash entry.sourceDirectory file
    if file.isEmpty then
      []
    else if pathEscapesRoot targets resolved root then
      [linkDiagnostic entry "Markdown link escapes the knowledge root" lineNumber (quotedTarget file)]
    else if !targets.isPresent resolved then
      [linkDiagnostic entry "Markdown link target does not exist" lineNumber (quotedTarget file)]
    else
      []

def lintMarkdownLinks (lineNumber : ℕ) (text : Bytes) : List Diagnostic :=
  match _hl : cut text (ascii "](") with
  | none => []
  | some (_, link) =>
    match _ht : cut link (ascii ")") with
    | none => [linkDiagnostic entry "unterminated Markdown link" lineNumber []]
    | some (target, rest) =>
      lintTarget targets root entry lineNumber (linkTarget target) ++ lintMarkdownLinks lineNumber rest
termination_by text.length
decreasing_by
  have hn : ascii "](" ≠ [] := by decide
  have hm : ascii ")" ≠ [] := by decide
  exact (length_cut_lt hm _ht).trans (length_cut_lt hn _hl)

end

structure OpenFence where
  marker : UInt8
  length : ℕ
  line   : ℕ
  deriving DecidableEq, Repr

def isFenceMarker (b : UInt8) : Bool :=
  b == byte '`' || b == byte '~'

-- The run of markers that starts a line after at most three blanks, and what follows it.
def fenceRun (line : Bytes) : Option (UInt8 × ℕ × Bytes) :=
  let offset := min 4 (line.takeWhile (· == byte ' ')).length
  match line.drop offset with
  | []          => none
  | marker :: _ =>
    let run := (line.drop offset).takeWhile (· == marker)
    if offset ≤ 3 ∧ isFenceMarker marker ∧ 3 ≤ run.length then
      some (marker, run.length, line.drop (offset + run.length))
    else
      none

-- The fence that is open after a line, and whether the line opened or closed it.
def lintFence (openFence : Option OpenFence) (lineNumber : ℕ) (line : Bytes) :
    Option OpenFence × Bool :=
  match fenceRun line, openFence with
  | none, openFence => (openFence, false)
  | some (marker, length, _), none => (some { marker, length, line := lineNumber }, true)
  | some (marker, length, rest), some fence =>
    if fence.marker = marker ∧ fence.length ≤ length ∧ (trimmed rest).isEmpty then
      (none, true)
    else
      (some fence, false)

-- Links are checked on the lines outside of fences.
def checksLinks (next : Option OpenFence × Bool) : Bool :=
  next.1.isNone && !next.2

section

variable (targets : LinkTargets) (root : Bytes) (entry : KnowledgeEntry)

-- The last line number and the fence that is open there belong to the lines read so far.
def lintLines (openFence : Option OpenFence) (lineNumber : ℕ) : List Bytes → List Diagnostic
  | [] =>
    match openFence with
    | none       => []
    | some fence => [addLintDiagnostic (contentPath entry) entry.id <|
        ascii "unclosed Markdown code fence opened on line " ++ decimal fence.line]
  | source :: rest =>
    let line := chompReturn source
    let next := lintFence openFence (lineNumber + 1) line
    let links := if checksLinks next then
      lintMarkdownLinks targets root entry (lineNumber + 1) line else []
    links ++ lintLines next.1 (lineNumber + 1) rest

def lintMarkdown : List Diagnostic :=
  lintLines targets root entry none 0 (lines entry.content)

end

def metadataPath (entry : KnowledgeEntry) : Bytes :=
  slash entry.sourceDirectory metadataFilename

-- What checking the aliases of one entry leaves behind.
structure AliasLint where
  diagnostics              : List Diagnostic
  normalizedAliases        : List (Bytes × Bytes)
  aliasesByNormalizedValue : Finmap fun _ : Bytes => Bytes

def AliasLint.report (lint : AliasLint) (diagnostics : List Diagnostic) : AliasLint where
  diagnostics              := diagnostics ++ lint.diagnostics
  normalizedAliases        := lint.normalizedAliases
  aliasesByNormalizedValue := lint.aliasesByNormalizedValue

def AliasLint.keep (lint : AliasLint) (phrase normalized : Bytes) : AliasLint where
  diagnostics              := lint.diagnostics
  normalizedAliases        := (phrase, normalized) :: lint.normalizedAliases
  aliasesByNormalizedValue := lint.aliasesByNormalizedValue

def duplicateAliasMessage (normalized : Bytes) : Bytes :=
  ascii "duplicate alias after search normalization: '" ++ normalized ++ ascii "'"

def aliasCollisionMessage (normalized source : Bytes) : Bytes :=
  ascii "alias '" ++ normalized ++ ascii "' duplicates an alias from entry '" ++ source ++ ascii "'"

-- The collision of an alias with one of another entry.
def aliasCollision (entry : KnowledgeEntry) (normalized : Bytes) (source : Option Bytes) :
    List Diagnostic :=
  match source with
  | none        => []
  | some source =>
    if source = entry.id then [] else
      [addLintDiagnostic (metadataPath entry) entry.id (aliasCollisionMessage normalized source)]

def lintAliases (entry : KnowledgeEntry) (localAliases : Finset Bytes)
    (aliasesByNormalizedValue : Finmap fun _ : Bytes => Bytes) : List Bytes → AliasLint
  | [] => ⟨[], [], aliasesByNormalizedValue⟩
  | phrase :: rest =>
    let normalized := normalizedSearchPhrase phrase
    if normalized.isEmpty then
      (lintAliases entry localAliases aliasesByNormalizedValue rest).report [
        addLintDiagnostic (metadataPath entry) entry.id <|
          ascii "alias '" ++ phrase ++ ascii "' is empty after search normalization"]
    else if normalized ∈ localAliases then
      (lintAliases entry localAliases aliasesByNormalizedValue rest).report [
        addLintDiagnostic (metadataPath entry) entry.id <| duplicateAliasMessage normalized]
    else
      let collision := aliasCollision entry normalized (aliasesByNormalizedValue.lookup normalized)
      let lint      := lintAliases entry (insert normalized localAliases)
        (aliasesByNormalizedValue.emplace normalized entry.id) rest
      (lint.keep phrase normalized).report collision

def lintSimilarAliases (entry : KnowledgeEntry) : List (Bytes × Bytes) → List Diagnostic
  | [] => []
  | left :: rest =>
    (rest.filter fun right => aliasesAreOverlySimilar left.2 right.2).map (fun right =>
      addLintDiagnostic (metadataPath entry) entry.id <|
        ascii "overly similar aliases: '" ++ left.1 ++ ascii "' and '" ++ right.1 ++ ascii "'") ++
    lintSimilarAliases entry rest

def broadKeywords : List Bytes := [
  "basic", "basics", "command", "commands", "general", "help",
  "linux", "stuff", "thing", "things", "tutorial", "use", "using"].map ascii

def lintKeywords (entry : KnowledgeEntry) (localKeywords : Finset Bytes) :
    List Bytes → List Diagnostic
  | [] => []
  | keyword :: rest =>
    let normalized := normalizedSearchPhrase keyword
    if normalized.isEmpty then
      addLintDiagnostic (metadataPath entry) entry.id
        (ascii "keyword '" ++ keyword ++ ascii "' is empty after search normalization") ::
      lintKeywords entry localKeywords rest
    else
      let duplicates := if normalized ∈ localKeywords then
        [addLintDiagnostic (metadataPath entry) entry.id <|
          ascii "duplicate keyword after search normalization: '" ++ normalized ++ ascii "'"] else []
      let tokens := tokenize normalized false false
      let broad  := if tokens.length = 1 ∧ tokens.head?.any (broadKeywords.contains ·) then
        [addLintDiagnostic (metadataPath entry) entry.id <|
          ascii "overly broad keyword: '" ++ keyword ++ ascii "'"] else []
      duplicates ++ broad ++ lintKeywords entry (insert normalized localKeywords) rest

def lintRelated (knowledge : KnowledgeBase) (entry : KnowledgeEntry) (relatedIds : Finset Bytes) :
    List Bytes → List Diagnostic
  | [] => []
  | relatedId :: rest =>
    if relatedId ∈ relatedIds then
      addLintDiagnostic (metadataPath entry) entry.id
        (ascii "duplicate related id: '" ++ relatedId ++ ascii "'") ::
      lintRelated knowledge entry relatedIds rest
    else
      let rest := lintRelated knowledge entry (insert relatedId relatedIds) rest
      if relatedId = entry.id then
        addLintDiagnostic (metadataPath entry) entry.id (ascii "entry must not relate to itself") :: rest
      else if (knowledge.findById relatedId).any (entry.id ∉ ·.related) then
        addLintDiagnostic (metadataPath entry) entry.id
          (ascii "related id '" ++ relatedId ++ ascii "' is not reciprocal") :: rest
      else
        rest

-- The aliases that were seen in earlier entries are handed on to the next one.
def lintEntries (targets : LinkTargets) (knowledge : KnowledgeBase)
    (aliasesByNormalizedValue : Finmap fun _ : Bytes => Bytes) : List KnowledgeEntry → List Diagnostic
  | [] => []
  | entry :: rest =>
    let aliases := lintAliases entry ∅ aliasesByNormalizedValue entry.aliases
    aliases.diagnostics ++ lintSimilarAliases entry aliases.normalizedAliases ++
    lintKeywords entry ∅ entry.keywords ++ lintRelated knowledge entry ∅ entry.related ++
    lintMarkdown targets knowledge.root entry ++
    lintEntries targets knowledge aliases.aliasesByNormalizedValue rest

def collectConcepts (concepts : ConceptDictionary) (entry : KnowledgeEntry) : List Bytes :=
  (entry.id :: entry.title :: entry.command :: entry.aliases ++ entry.keywords).flatMap fun value =>
    (concepts.detect <| tokenize value true false).map (·.canonical)

def canonicalConcepts (order : HashOrder Bytes) (concepts : ConceptDictionary) : List Bytes :=
  sortedUnique <| (order.list concepts.phraseToCanonical.keys).filterMap
    (concepts.phraseToCanonical.lookup ·)

def lintConcepts (order : HashOrder Bytes) (root : Bytes) (concepts : ConceptDictionary)
    (usedConcepts : List Bytes) : List Diagnostic :=
  ((canonicalConcepts order concepts).filter (!usedConcepts.contains ·)).map fun canonical =>
    addLintDiagnostic (slash root <| ascii "concepts.yaml") canonical <|
      ascii "concept is not used by any searchable entry metadata"

def KnowledgeBase.lint (knowledge : KnowledgeBase) (targets : LinkTargets) (order : HashOrder Bytes)
    (concepts : ConceptDictionary) : KnowledgeLintReport where
  performed       := true
  entriesChecked  := knowledge.entries.length
  aliasesChecked  := (knowledge.entries.map (·.aliases.length)).sum
  keywordsChecked := (knowledge.entries.map (·.keywords.length)).sum
  conceptsChecked := (canonicalConcepts order concepts).length
  diagnostics     := lintEntries targets knowledge ∅ knowledge.entries ++
    lintConcepts order knowledge.root concepts (knowledge.entries.flatMap <| collectConcepts concepts)

end Howlinux
