import Howlinux.Concepts.Cycles
import Howlinux.Query.Theorems.Tokenizer

open Bytes

namespace Howlinux

def normalizePhrase (phrase : Bytes) : Bytes :=
  joinTokens (tokenize phrase true false)

-- The aliases of one group. `localAliases` holds those that were inserted so far.
def readAliases (path canonical : Bytes) (localAliases : Finset Bytes) :
    List Yaml → List Diagnostic × List Bytes
  | [] => ([], [])
  | .scalar sourceAlias :: rest =>
    let phrase := normalizePhrase sourceAlias
    if phrase.isEmpty then
      let (diagnostics, aliases) := readAliases path canonical localAliases rest
      (addError path canonical (ascii "concept alias '" ++ sourceAlias ++
        ascii "' is empty after normalization") :: diagnostics, aliases)
    else if phrase ∈ localAliases then
      let (diagnostics, aliases) := readAliases path canonical localAliases rest
      (addError path canonical (ascii "duplicate alias after normalization: '" ++ phrase ++
        ascii "'") :: diagnostics, aliases)
    else
      let (diagnostics, aliases) := readAliases path canonical (insert phrase localAliases) rest
      (diagnostics, phrase :: aliases)
  | _ :: rest =>
    let (diagnostics, aliases) := readAliases path canonical localAliases rest
    (addError path canonical (ascii "each concept alias must be a scalar string") :: diagnostics,
      aliases)

abbrev PhraseMap :=
  Finmap fun _ : Bytes => Bytes

-- The items of the `concepts` mapping. A scalar always reads as a string, so the handlers for
-- exceptions around the conversion are never entered.
def readGroups (path : Bytes) (canonicalSources : PhraseMap) :
    List (Yaml × Yaml) → List Diagnostic × List ParsedConceptGroup
  | [] => ([], [])
  | (.scalar sourceName, value) :: rest =>
    let canonical := normalizePhrase sourceName
    if canonical.isEmpty then
      let (diagnostics, groups) := readGroups path canonicalSources rest
      (addError path sourceName (ascii "concept canonical name is empty after normalization") ::
        diagnostics, groups)
    else
      match canonicalSources.lookup canonical with
      | some source =>
        let (diagnostics, groups) := readGroups path canonicalSources rest
        (addError path canonical (ascii
          "duplicate canonical concept after normalization; also defined as '" ++ source ++
          ascii "'") :: diagnostics, groups)
      | none =>
        let (diagnostics, groups) := readGroups path (canonicalSources.insert canonical sourceName) rest
        match value with
        | .sequence items =>
          let (aliasDiagnostics, aliases) := readAliases path canonical ∅ items
          (aliasDiagnostics ++ diagnostics, { canonical, sourceName, aliases } :: groups)
        | _ =>
          (addError path canonical (ascii "concept aliases must be a sequence") :: diagnostics,
            groups)
  | _ :: rest =>
    let (diagnostics, groups) := readGroups path canonicalSources rest
    (addError path [] (ascii "each concept canonical name must be a scalar string") :: diagnostics,
      groups)

def sortGroups (groups : List ParsedConceptGroup) : List ParsedConceptGroup :=
  groups.sortBy fun left right => decide (left.canonical < right.canonical)

def canonicalPhrases (groups : List ParsedConceptGroup) : PhraseMap :=
  groups.foldl (fun phrases group => phrases.emplace group.canonical group.canonical) ∅

-- The pairs of a canonical and an alias, in the order in which the nested loops visit them.
def aliasPairs (groups : List ParsedConceptGroup) : List (Bytes × Bytes) :=
  groups.flatMap fun group => group.aliases.map (group.canonical, ·)

-- One redundant occurrence of the canonical spelling among its aliases is harmless.
def mapAliases (path : Bytes) (phrases : PhraseMap) :
    List (Bytes × Bytes) → List Diagnostic × PhraseMap
  | [] => ([], phrases)
  | (canonical, phrase) :: rest =>
    if phrase = canonical then
      mapAliases path phrases rest
    else
      match phrases.lookup phrase with
      | some existing =>
        let (diagnostics, phrases) := mapAliases path phrases rest
        (addError path canonical (ascii "concept phrase collision for '" ++ phrase ++
          ascii "': maps to both '" ++ existing ++ ascii "' and '" ++ canonical ++ ascii "'") ::
          diagnostics, phrases)
      | none => mapAliases path (phrases.insert phrase canonical) rest

end Howlinux
