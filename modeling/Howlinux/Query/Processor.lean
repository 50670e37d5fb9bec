import Howlinux.Concepts.Dictionary

open Bytes

namespace Howlinux

inductive QueryType
  | explain
  | howTo
  | why
  | command
  | general
  deriving DecidableEq, Repr

structure QueryContext where
  original        : Bytes
  sequenceTokens  : List Bytes
  tokens          : List Bytes
  normalizedQuery : Bytes
  phrases         : List Bytes
  concepts        : List Bytes
  type            : QueryType
  deriving DecidableEq, Repr

def beginsWith (tokens start : List Bytes) : Bool :=
  start.isPrefixOf tokens

def looksLikeShellSyntax (token : Bytes) : Bool :=
  isFlagChunk token ||
    ((token.head?.any isAsciiDigit) && (token.dropWhile isAsciiDigit).head?.any isRedirection)

def maximumNgramLength : ℕ := 5

def ngrams (sequenceTokens : List Bytes) (length : ℕ) : List Bytes :=
  (List.range (sequenceTokens.length + 1 - length)).map fun offset =>
    joinTokens ((sequenceTokens.drop offset).take length)

-- The complete phrase of a long query, and the shorter ones from the longest down to the pairs.
def buildPhrases (sequenceTokens : List Bytes) : List Bytes :=
  if sequenceTokens.length < 2 then
    []
  else
    let complete := if sequenceTokens.length > maximumNgramLength then [joinTokens sequenceTokens] else []
    let largest  := min sequenceTokens.length maximumNgramLength
    let lengths  := (List.range' 2 (largest - 1)).reverse
    (complete ++ lengths.flatMap (ngrams sequenceTokens)).eraseDups

def queryTypeName : QueryType → Bytes
  | .explain => ascii "explain"
  | .howTo   => ascii "how_to"
  | .why     => ascii "why"
  | .command => ascii "command"
  | .general => ascii "general"

def actionVerbs : List Bytes := [
  "add",     "change", "copy",   "create", "delete", "extract",
  "find",    "install", "list",  "make",   "move",   "remove",
  "rename",  "replace", "set",   "unpack", "update"].map ascii

structure QueryProcessor where
  concepts      : Option ConceptDictionary
  knownCommands : Finset Bytes

namespace QueryProcessor

def create (concepts : Option ConceptDictionary) (knownCommands : Finset Bytes) : QueryProcessor where
  concepts      := concepts
  knownCommands := (knownCommands.filter (tokenize · false false ≠ [])).image fun command =>
    joinTokens (tokenize command false false)

-- `normalized` is the command, or starts with it and a blank.
def matchesCommand (normalized command : Bytes) : Bool :=
  normalized == command || (command ++ [byte ' ']).isPrefixOf normalized

def detectType (processor : QueryProcessor) (tokens : List Bytes) : QueryType :=
  match tokens with
  | [] => .general
  | front :: _ =>
    if front == ascii "why" then
      .why
    else if front == ascii "what" || front == ascii "explain" || front == ascii "define" ||
        front == ascii "describe" || beginsWith tokens [ascii "meaning", ascii "of"] then
      .explain
    else if front == ascii "how" || beginsWith tokens [ascii "show", ascii "me"] ||
        beginsWith tokens [ascii "help", ascii "me"] then
      .howTo
    else
      let significantTokens := tokens.filter (!isStopword ·)
      if significantTokens.any looksLikeShellSyntax then
        .command
      else if ∃ command ∈ processor.knownCommands,
          matchesCommand (joinTokens significantTokens) command then
        .command
      else if significantTokens.head?.any (actionVerbs.contains ·) then
        .howTo
      else
        .general

-- The concepts in the order in which they are first detected.
def detectConcepts (processor : QueryProcessor) (sequenceTokens : List Bytes) : List Bytes :=
  match processor.concepts with
  | none            => []
  | some dictionary =>
    if dictionary.phraseToCanonical = ∅ then
      []
    else
      ((dictionary.detect sequenceTokens).map (·.canonical)).eraseDups

def process (processor : QueryProcessor) (rawQuery : Bytes) : QueryContext :=
  let sequenceTokens := tokenize rawQuery true false
  let tokens         := tokenize rawQuery true true
  { original        := rawQuery
    sequenceTokens  := sequenceTokens
    tokens          := tokens
    normalizedQuery := joinTokens tokens
    phrases         := buildPhrases sequenceTokens
    concepts        := processor.detectConcepts sequenceTokens
    type            := processor.detectType (tokenize rawQuery false false) }

end QueryProcessor

end Howlinux
