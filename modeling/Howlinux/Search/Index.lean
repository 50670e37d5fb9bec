import Howlinux.Knowledge.Base
import Howlinux.Query.Processor
import Howlinux.Search.Distance

open Bytes

namespace Howlinux

structure SearchConfig (K : Type) [OfScientific K] where
  exactAliasScore : K := 100.0
  phraseScore     : K := 40.0
  commandScore    : K := 30.0
  keywordScore    : K := 20.0
  conceptScore    : K := 15.0
  intentScore     : K := 20.0
  titleScore      : K := 10.0
  tokenScore      : K := 6.0
  fuzzyScore      : K := 8.0

  confidentScore  : K := 90.0
  confidentMargin : K := 15.0
  meaningfulScore : K := 8.0

  defaultLimit            : ℕ := 5
  maximumLimit            : ℕ := 100
  fuzzyMinimumLength      : ℕ := 4
  fuzzyMatchLimitPerToken : ℕ := 32

structure EntryDocument where
  idTokens          : Finset Bytes
  titleTokens       : Finset Bytes
  aliasTokens       : Finset Bytes
  aliasesNormalized : List Bytes
  keywordTokens     : Finset Bytes
  commandTokens     : Finset Bytes
  conceptTokens     : Finset Bytes
  intents           : Finset Bytes

def EntryDocument.allTokens (document : EntryDocument) : Finset Bytes :=
  document.idTokens ∪ document.titleTokens ∪ document.aliasTokens ∪ document.keywordTokens ∪
    document.commandTokens ∪ document.conceptTokens

structure FuzzyTokenMatch where
  queryToken   : Bytes
  indexedToken : Bytes
  distance     : ℕ
  deriving DecidableEq, Repr

structure CandidateSet where
  entryIndices : List ℕ
  fuzzyMatches : Finmap fun _ : ℕ => List FuzzyTokenMatch

def normalizeIntent (value : Bytes) : Bytes :=
  value.map fun b =>
    if byte 'A' ≤ b && b ≤ byte 'Z' then b - byte 'A' + byte 'a' else if b == byte '-' then byte '_' else b

def addConcepts (concepts : ConceptDictionary) (value : Bytes) : List Bytes :=
  (concepts.detect <| tokenize value true false).map (·.canonical)

def typeIntent (type : Bytes) : List Bytes :=
  let normalizedType := normalizeIntent type
  if normalizedType = ascii "howto" ∨ normalizedType = ascii "how_to" then
    [ascii "how_to"]
  else if normalizedType = ascii "command" then
    [ascii "command"]
  else if normalizedType = ascii "explain" ∨ normalizedType = ascii "explanation" then
    [ascii "explain"]
  else
    []

-- An empty command has no tokens and no concepts.
def entryDocument (concepts : ConceptDictionary) (entry : KnowledgeEntry) : EntryDocument where
  idTokens          := (tokenize entry.id).toFinset
  titleTokens       := (tokenize entry.title).toFinset
  aliasTokens       := (entry.aliases.flatMap (tokenize ·)).toFinset
  aliasesNormalized := ((entry.aliases.map fun phrase => joinTokens (tokenize phrase)).filter
    (!·.isEmpty)).eraseDups
  keywordTokens     := (entry.keywords.flatMap (tokenize ·)).toFinset
  commandTokens     := (tokenize entry.command false).toFinset
  conceptTokens     := ((entry.id :: entry.title :: entry.aliases ++ entry.keywords ++
    [entry.command]).flatMap (addConcepts concepts)).toFinset
  intents           := ((entry.intents.map normalizeIntent).filter (!·.isEmpty) ++
    typeIntent entry.type).toFinset

abbrev Postings :=
  Finmap fun _ : Bytes => List ℕ

def addPosting (index : ℕ) (postings : Postings) (token : Bytes) : Postings :=
  postings.insert token ((postings.lookup token).getD [] ++ [index])

structure InvertedIndex where
  documents     : List EntryDocument
  postings      : Postings
  knownCommands : Finset Bytes
  vocabulary    : List Bytes

namespace InvertedIndex

-- Hash containers are walked in some `order`.
def build (order : HashOrder Bytes) (knowledge : KnowledgeBase) (concepts : ConceptDictionary) :
    InvertedIndex :=
  let documents := knowledge.entries.map (entryDocument concepts)
  let postings  := documents.zipIdx.foldl (fun postings (document, index) =>
    (order.list document.allTokens).foldl (addPosting index) postings) ∅
  { documents, postings
    knownCommands := (documents.flatMap fun document => order.list document.commandTokens).toFinset
    vocabulary    := (order.list postings.keys).sortBy fun left right => decide (left < right) }

variable (index : InvertedIndex)

-- The positions of the entries that have a token.
def posting (token : Bytes) : Option (List ℕ) :=
  (index.postings.lookup token).map fun indices =>
    (indices.sortBy fun left right => decide (left < right)).unique id

def vocabularyByLength (length : ℕ) : List Bytes :=
  index.vocabulary.filter (·.length = length)

section

variable {K : Type} [NatCast K] [Add K] [Div K] [OfScientific K]

-- The inverse document frequencies of the indexed tokens.
def idf (log : K → K) (token : Bytes) : K :=
  match index.posting token with
  | none         => 1.0
  | some indices => log (((index.documents.length : K) + 1.0) / ((indices.length : K) + 1.0)) + 1.0

end

def isProtectedFromFuzzy (token : Bytes) : Bool :=
  token.isEmpty || token.head? == some (byte '-') || token ∈ index.knownCommands ||
    token.all fun b => isAsciiDigit b || b == byte '.' || b == byte '>' || b == byte '<'

def maximumDistance (queryToken : Bytes) : ℕ :=
  if queryToken.length ≥ 7 then 2 else 1

def fuzzyBefore (left right : Bytes × ℕ) : Bool :=
  if left.2 != right.2 then left.2 < right.2 else left.1 < right.1

-- The indexed tokens that are close to a token of the query, closest first.
def fuzzyTokens (limit : ℕ) (queryToken : Bytes) : List (Bytes × ℕ) :=
  let maximum := maximumDistance queryToken
  let lengths := List.range' (queryToken.length - maximum) (queryToken.length + maximum + 1 -
    (queryToken.length - maximum))
  let close   := lengths.flatMap fun length =>
    ((index.vocabularyByLength length).filter (!index.isProtectedFromFuzzy ·)).map fun indexedToken =>
      (indexedToken, damerauLevenshteinDistance queryToken indexedToken maximum)
  ((close.filter (·.2 ≤ maximum)).sortBy fuzzyBefore).take limit

structure Candidates where
  indices      : Finset ℕ := ∅
  fuzzyMatches : Finmap fun _ : ℕ => List FuzzyTokenMatch := ∅

def Candidates.addPostings (candidates : Candidates) (indices : List ℕ) : Candidates where
  indices      := candidates.indices ∪ indices.toFinset
  fuzzyMatches := candidates.fuzzyMatches

def Candidates.addMatch (candidates : Candidates) (fuzzyMatch : FuzzyTokenMatch) (entryIndex : ℕ) :
    Candidates :=
  let fuzzyMatches := (candidates.fuzzyMatches.lookup entryIndex).getD []
  let duplicate    := fuzzyMatches.any fun other =>
    other.queryToken = fuzzyMatch.queryToken ∧ other.indexedToken = fuzzyMatch.indexedToken
  { indices      := insert entryIndex candidates.indices
    fuzzyMatches := candidates.fuzzyMatches.insert entryIndex <|
      if duplicate then fuzzyMatches else fuzzyMatches ++ [fuzzyMatch] }

def addFuzzyToken (queryToken : Bytes) (candidates : Candidates) (fuzzyToken : Bytes × ℕ) :
    Candidates :=
  ((index.posting fuzzyToken.1).getD []).foldl
    (·.addMatch ⟨queryToken, fuzzyToken.1, fuzzyToken.2⟩) candidates

section

variable {K : Type} [OfScientific K]

def addFuzzyTokens (config : SearchConfig K) (directTokens : List Bytes) (candidates : Candidates)
    (queryToken : Bytes) : Candidates :=
  if directTokens.contains queryToken || queryToken.length < config.fuzzyMinimumLength ||
      index.isProtectedFromFuzzy queryToken then
    candidates
  else
    (index.fuzzyTokens config.fuzzyMatchLimitPerToken queryToken).foldl
      (index.addFuzzyToken queryToken) candidates

def candidates (query : QueryContext) (config : SearchConfig K) : CandidateSet :=
  let lookedUp     := query.tokens ++ query.concepts
  let directTokens := lookedUp.filter (index.posting · |>.isSome)
  let direct       := lookedUp.foldl (fun candidates token =>
    candidates.addPostings <| (index.posting token).getD []) ({} : Candidates)
  let result       := query.tokens.foldl (index.addFuzzyTokens config directTokens) direct
  { entryIndices := HashOrder.sorted.list result.indices
    fuzzyMatches := result.fuzzyMatches }

end

end InvertedIndex

end Howlinux
