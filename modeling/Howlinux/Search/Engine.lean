import Howlinux.Search.Theorems.Index

open Bytes

namespace Howlinux

-- What the program uses of the C and C++ libraries on its floating-point numbers: the natural
-- logarithm, `isfinite`, and the text printed with two fixed decimals or with fifteen digits.
structure Numerics (K : Type) where
  log      : K → K
  isFinite : K → Bool
  fixed    : K → Bytes
  general  : K → Bytes

namespace Numerics

def minus (q : ℚ) : Bytes :=
  if q < 0 then [byte '-'] else []

def hundredths (q : ℚ) : ℕ :=
  q.num.natAbs * 100 / q.den

def digit (n : ℕ) : UInt8 :=
  byte '0' + UInt8.ofNat (n % 10)

-- Rational numbers print like floating-point ones as long as two decimals are enough for them, and
-- the logarithm is the linear one, which is right at 1.
def rational : Numerics ℚ where
  log q      := q - 1
  isFinite _ := true
  fixed q    := minus q ++ decimal (hundredths q / 100) ++
    [byte '.', digit (hundredths q / 10), digit (hundredths q)]
  general q  := minus q ++ decimal (hundredths q / 100) ++
    if hundredths q % 100 = 0 then
      []
    else if hundredths q % 10 = 0 then
      [byte '.', digit (hundredths q / 10)]
    else
      [byte '.', digit (hundredths q / 10), digit (hundredths q)]

end Numerics

structure ScoreBreakdown (K : Type) where
  exactAlias : K
  phrase     : K
  command    : K
  keywords   : K
  concepts   : K
  intent     : K
  title      : K
  tokenIdf   : K
  fuzzy      : K
  deriving DecidableEq, Repr

structure SearchResult (K : Type) where
  entry        : KnowledgeEntry
  score        : K
  breakdown    : ScoreBreakdown K
  fuzzyUsed    : Bool
  matchReasons : List Bytes
  deriving DecidableEq, Repr

structure SearchResponse (K : Type) where
  query   : QueryContext
  results : List (SearchResult K)

def containsNormalizedPhrase (text phrase : Bytes) : Bool :=
  if text.isEmpty || phrase.isEmpty then
    false
  else
    let paddedText   := byte ' ' :: text ++ [byte ' ']
    let paddedPhrase := byte ' ' :: phrase ++ [byte ' ']
    (find paddedText paddedPhrase).isSome

section

variable {K : Type} [Zero K] [Add K] [Mul K] [Div K] [Min K] [LT K] [DecidableLT K] [LE K]
  [DecidableLE K] [DecidableEq K] [NatCast K] [OfScientific K]

def ScoreBreakdown.total (breakdown : ScoreBreakdown K) : K :=
  breakdown.exactAlias + breakdown.phrase + breakdown.command + breakdown.keywords +
    breakdown.concepts + breakdown.intent + breakdown.title + breakdown.tokenIdf + breakdown.fuzzy

def ScoreBreakdown.exactAndPhrase (breakdown : ScoreBreakdown K) : K :=
  breakdown.exactAlias + breakdown.phrase

-- The sum of the components apart from the intent.
def ScoreBreakdown.contentRelevance (breakdown : ScoreBreakdown K) : K :=
  breakdown.exactAlias + breakdown.phrase + breakdown.command + breakdown.keywords +
    breakdown.concepts + breakdown.title + breakdown.tokenIdf + breakdown.fuzzy

def addReason (numerics : Numerics K) (label : Bytes) (score : K) : List Bytes :=
  if 0 < score then [label ++ ascii " +" ++ numerics.fixed score] else []

def idfWeighted (baseScore idf : K) : K :=
  baseScore * (0.5 + 0.5 * min idf 2.5)

structure BestFuzzyMatch (K : Type) where
  score        : K
  indexedToken : Bytes

variable (numerics : Numerics K) (config : SearchConfig K)

def fieldWeight (document : EntryDocument) (indexedToken : Bytes) : K :=
  if indexedToken ∈ document.aliasTokens then
    1.0
  else if indexedToken ∈ document.keywordTokens then
    0.8
  else if indexedToken ∈ document.conceptTokens then
    0.7
  else if indexedToken ∈ document.titleTokens then
    0.6
  else if indexedToken ∈ document.idTokens then
    0.5
  else
    0.4

def fuzzyScore (document : EntryDocument) (fuzzyMatch : FuzzyTokenMatch) : K :=
  let closeness : K := if fuzzyMatch.distance ≤ 1 then 1.0 else 0.65
  config.fuzzyScore * closeness * fieldWeight document fuzzyMatch.indexedToken

def addFuzzyMatch (document : EntryDocument) (best : Finmap fun _ : Bytes => BestFuzzyMatch K)
    (fuzzyMatch : FuzzyTokenMatch) : Finmap fun _ : Bytes => BestFuzzyMatch K :=
  let score   := fuzzyScore config document fuzzyMatch
  let current := (best.lookup fuzzyMatch.queryToken).getD ⟨0, []⟩
  best.insert fuzzyMatch.queryToken <|
    if current.score < score ∨ (score = current.score ∧ fuzzyMatch.indexedToken < current.indexedToken) then
      ⟨score, fuzzyMatch.indexedToken⟩
    else
      current

-- The best match of every query token, in the order of the query tokens.
def bestFuzzyMatches (document : EntryDocument) (fuzzyMatches : List FuzzyTokenMatch) :
    List (Bytes × BestFuzzyMatch K) :=
  let best := fuzzyMatches.foldl (addFuzzyMatch config document) ∅
  (HashOrder.sorted.list best.keys).filterMap fun queryToken =>
    (best.lookup queryToken).map (queryToken, ·)

def weightedSum (index : InvertedIndex) (baseScore : K) (fieldTokens : Finset Bytes)
    (tokens : List Bytes) : K :=
  (tokens.filter (· ∈ fieldTokens)).foldl (fun sum token =>
    sum + idfWeighted baseScore (index.idf numerics.log token)) 0

def exactAliasComponent (document : EntryDocument) (query : QueryContext) : K :=
  if query.normalizedQuery ∈ document.aliasesNormalized then config.exactAliasScore else 0

-- A bare command alias such as "file" or "watch" is also an ordinary English word. It is not a
-- matching task phrase.
def containsTaskPhrase (document : EntryDocument) (query : QueryContext) : Bool :=
  document.aliasesNormalized.any fun phrase =>
    phrase.contains (byte ' ') && containsNormalizedPhrase query.normalizedQuery phrase

-- A synonym-expanded action/object pair such as "remove directory" should behave like the canonical
-- phrase "delete folder".
def coversConcepts (document : EntryDocument) (query : QueryContext) : Bool :=
  2 ≤ query.concepts.length && query.concepts.all (· ∈ document.conceptTokens)

def phraseComponent (document : EntryDocument) (query : QueryContext) : K :=
  let exactAlias := exactAliasComponent config document query
  let phrase     := if query.normalizedQuery ∉ document.aliasesNormalized ∧
    containsTaskPhrase document query then config.phraseScore else 0
  if exactAlias = 0 ∧ phrase = 0 ∧ coversConcepts document query then config.phraseScore else phrase

def commandComponent (document : EntryDocument) (query : QueryContext) : K :=
  if query.tokens.head?.any (· ∈ document.commandTokens) then config.commandScore else 0

-- The components that do not depend on the type of the query.
def contentBreakdown (index : InvertedIndex) (document : EntryDocument) (query : QueryContext)
    (best : List (Bytes × BestFuzzyMatch K)) : ScoreBreakdown K where
  exactAlias := exactAliasComponent config document query
  phrase     := phraseComponent config document query
  command    := commandComponent config document query
  keywords   := weightedSum numerics index config.keywordScore document.keywordTokens query.tokens
  concepts   := weightedSum numerics index config.conceptScore document.conceptTokens query.concepts
  intent     := 0
  title      := weightedSum numerics index config.titleScore document.titleTokens query.tokens
  tokenIdf   := weightedSum numerics index config.tokenScore document.allTokens query.tokens
  fuzzy      := best.foldl (fun sum (_, best) => sum + best.score) 0

def intentComponent (document : EntryDocument) (query : QueryContext) (content : ScoreBreakdown K) : K :=
  if config.meaningfulScore ≤ content.contentRelevance ∧ queryTypeName query.type ∈ document.intents then
    config.intentScore
  else
    0

def scoreReasons (breakdown : ScoreBreakdown K) : List Bytes :=
  addReason numerics (ascii "exact alias") breakdown.exactAlias ++
  addReason numerics (ascii "phrase") breakdown.phrase ++
  addReason numerics (ascii "command") breakdown.command ++
  addReason numerics (ascii "keywords") breakdown.keywords ++
  addReason numerics (ascii "concepts") breakdown.concepts ++
  addReason numerics (ascii "intent") breakdown.intent ++
  addReason numerics (ascii "title") breakdown.title ++
  addReason numerics (ascii "token/idf") breakdown.tokenIdf ++
  addReason numerics (ascii "fuzzy") breakdown.fuzzy

def scoreDocument (index : InvertedIndex) (document : EntryDocument) (entry : KnowledgeEntry)
    (query : QueryContext) (fuzzyMatches : List FuzzyTokenMatch) : SearchResult K :=
  let best      := bestFuzzyMatches config document fuzzyMatches
  let content   := contentBreakdown numerics config index document query best
  let breakdown := { content with intent := intentComponent config document query content }
  { entry
    score        := breakdown.total
    breakdown
    fuzzyUsed    := decide (0 < breakdown.fuzzy)
    matchReasons := best.map (fun (queryToken, best) =>
      ascii "fuzzy " ++ queryToken ++ ascii " -> " ++ best.indexedToken) ++
      scoreReasons numerics breakdown }

def resultBefore (left right : SearchResult K) : Bool :=
  if left.score ≠ right.score then
    right.score < left.score
  else if left.breakdown.exactAndPhrase ≠ right.breakdown.exactAndPhrase then
    right.breakdown.exactAndPhrase < left.breakdown.exactAndPhrase
  else if left.breakdown.intent ≠ right.breakdown.intent then
    right.breakdown.intent < left.breakdown.intent
  else
    left.entry.id < right.entry.id

end

structure SearchEngine (K : Type) [OfScientific K] where
  knowledge : KnowledgeBase
  concepts  : ConceptDictionary
  config    : SearchConfig K := {}
  numerics  : Numerics K
  order     : HashOrder Bytes

namespace SearchEngine

variable {K : Type} [Zero K] [Add K] [Mul K] [Div K] [Min K] [LT K] [DecidableLT K] [LE K]
  [DecidableLE K] [DecidableEq K] [NatCast K] [OfScientific K] (engine : SearchEngine K)

def index : InvertedIndex :=
  .build engine.order engine.knowledge engine.concepts

def queryProcessor : QueryProcessor :=
  .create engine.concepts engine.index.knownCommands

-- `none` stands for an index that is out of range.
def score (entryIndex : ℕ) (query : QueryContext) (candidates : CandidateSet) :
    Option (SearchResult K) :=
  match engine.knowledge.entries[entryIndex]?, engine.index.documents[entryIndex]? with
  | some entry, some document =>
    some <| scoreDocument engine.numerics engine.config engine.index document entry query <|
      (candidates.fuzzyMatches.lookup entryIndex).getD []
  | _, _ => none

def candidates (query : QueryContext) : CandidateSet :=
  engine.index.candidates query engine.config

def scores (query : QueryContext) (entryIndices : List ℕ) : Option (List (SearchResult K)) :=
  entryIndices.mapM fun entryIndex => engine.score entryIndex query (engine.candidates query)

theorem score_eq_some {entryIndex : ℕ} (h : entryIndex < engine.knowledge.entries.length)
    (query : QueryContext) (candidates : CandidateSet) :
    engine.score entryIndex query candidates = some (scoreDocument engine.numerics engine.config
      engine.index (entryDocument engine.concepts engine.knowledge.entries[entryIndex])
      engine.knowledge.entries[entryIndex] query <|
        (candidates.fuzzyMatches.lookup entryIndex).getD []) := by
  simp [score, index, InvertedIndex.documents_build, h]

theorem isSome_scores {query : QueryContext} {entryIndices : List ℕ}
    (h : ∀ i ∈ entryIndices, i < engine.knowledge.entries.length) :
    (engine.scores query entryIndices).isSome := by
  unfold scores
  induction entryIndices
  case nil => simp
  case cons i entryIndices hi =>
    simp only [List.mem_cons, forall_eq_or_imp] at h
    have ⟨results, hr⟩ := Option.isSome_iff_exists.mp <| hi h.right
    simp [List.mapM_cons, engine.score_eq_some h.left, hr]

-- The meaningful results, best first.
def rank (results : List (SearchResult K)) : List (SearchResult K) :=
  (results.filter (engine.config.meaningfulScore ≤ ·.score)).sortBy resultBefore

def ranking (query : QueryContext) : List (SearchResult K) :=
  engine.rank <| (engine.scores query (engine.candidates query).entryIndices).get <|
    engine.isSome_scores fun _ => InvertedIndex.lt_of_mem_candidates

def search (rawQuery : Bytes) (limit : ℕ) : SearchResponse K :=
  let query := engine.queryProcessor.process rawQuery
  if query.tokens.isEmpty && query.concepts.isEmpty then
    { query, results := [] }
  else
    { query
      results := (engine.ranking query).take (if limit = 0 then engine.config.defaultLimit else limit) }

end SearchEngine

inductive ResultStatus
  | confident
  | uncertain
  | noMatch
  deriving DecidableEq, Repr

structure PolicyDecision (K : Type) where
  status   : ResultStatus := .noMatch
  selected : Option (SearchResult K) := none

structure ResultPolicy (K : Type) [OfScientific K] where
  config : SearchConfig K := {}

def ResultPolicy.decide {K : Type} [Sub K] [LT K] [DecidableLT K] [LE K] [DecidableLE K] [OfScientific K]
    (policy : ResultPolicy K) (results : List (SearchResult K)) : PolicyDecision K :=
  match results with
  | [] => {}
  | front :: rest =>
    if front.score < policy.config.meaningfulScore then
      {}
    else
      let sufficientScore : Bool := policy.config.confidentScore ≤ front.score
      let sufficientMargin : Bool := match rest with
        | []          => true
        | second :: _ => policy.config.confidentMargin ≤ front.score - second.score
      if sufficientScore && sufficientMargin then
        { status := .confident, selected := front }
      else
        { status := .uncertain }

-- A confident decision selects the front.
theorem ResultPolicy.selected_of_confident {K : Type} [Sub K] [LT K] [DecidableLT K] [LE K] [DecidableLE K]
    [OfScientific K] {policy : ResultPolicy K} {results : List (SearchResult K)}
    (h : (policy.decide results).status = .confident) :
    ∃ front rest, results = front :: rest ∧ (policy.decide results).selected = some front := by
  cases results
  case nil => contradiction
  case cons front rest =>
    refine ⟨front, rest, rfl, ?_⟩
    simp only [decide] at h ⊢
    split_ifs at h ⊢
    rfl

namespace SearchEngine

variable {K : Type} [Zero K] [Add K] [Sub K] [Mul K] [Div K] [Min K] [LT K] [DecidableLT K] [LE K]
  [DecidableLE K] [DecidableEq K] [NatCast K] [OfScientific K] (engine : SearchEngine K)

-- What the application asks for. Its limit does not hide the runner-up from the policy.
def respond (query : Bytes) (limit : ℕ) : SearchResponse K × PolicyDecision K :=
  let response := engine.search query (max limit 2)
  (response, ({} : ResultPolicy K).decide response.results)

end SearchEngine

end Howlinux
