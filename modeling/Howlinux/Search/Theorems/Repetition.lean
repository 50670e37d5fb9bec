import Howlinux.Concepts.Theorems.Detect
import Howlinux.Search.Theorems.Points

open Bytes List

namespace Howlinux

section

variable {processor : QueryProcessor} {dictionary : ConceptDictionary} {text text' token : Bytes}

theorem QueryProcessor.concepts_process (h : processor.concepts = some dictionary) (text : Bytes) :
    (processor.process text).concepts =
      ((dictionary.detect (tokenize text true false)).map (·.canonical)).eraseDups := by
  simp only [process, detectConcepts, h]
  split
  case isTrue he  => simp [dictionary.detect_of_empty he]
  case isFalse    => rfl

theorem QueryProcessor.nodup_concepts (h : processor.concepts = some dictionary) (text : Bytes) :
    (processor.process text).concepts.Nodup := by
  rw [concepts_process h]
  exact nodup_eraseDups _

-- The last token of the second text is said before.
structure Repeats (text text' token : Bytes) : Prop where
  tokens : tokenize text' true false = tokenize text true false ++ [token]
  mem    : token ∈ tokenize text true false

theorem Repeats.tokens_eq (h : Repeats text text' token) (processor : QueryProcessor) :
    (processor.process text').tokens = (processor.process text).tokens := by
  have he : ([token].removeAll (tokenize text true false)).eraseDups = [] := by simp [removeAll, h.mem]
  simp only [QueryProcessor.process, tokenize_deduplicate, h.tokens, eraseDups_append, he, append_nil]

theorem Repeats.normalizedQuery_eq (h : Repeats text text' token) (processor : QueryProcessor) :
    (processor.process text').normalizedQuery = (processor.process text).normalizedQuery :=
  congrArg joinTokens <| h.tokens_eq processor

-- The concepts that only the second query has.
def newConcepts (query query' : QueryContext) : Finset Bytes :=
  query'.concepts.toFinset \ query.concepts.toFinset

-- A repeated token adds at most one concept, the one of a phrase at the end of the query.
theorem Repeats.concepts (h : Repeats text text' token) (hd : processor.concepts = some dictionary) :
    let query  := processor.process text
    let query' := processor.process text'
    query'.concepts = query.concepts ∨ ∃ phrase canonical,
      dictionary.phraseToCanonical.lookup phrase = some canonical ∧
      tokenize phrase true false <:+ query'.sequenceTokens ∧ newConcepts query query' ⊆ {canonical} := by
  intro query query'
  have hs : query'.sequenceTokens = tokenize text true false ++ [token] := h.tokens
  have hq : query.concepts = _ := processor.concepts_process hd text
  have hq' : query'.concepts = _ := processor.concepts_process hd text'
  rw [h.tokens] at hq'
  rcases dictionary.extends_detect (tokenize text true false) token with
    he | ⟨kept, lost, found, he, he', hc, ht⟩
  · exact .inl <| by rw [hq, hq', he]
  · refine .inr ⟨found.phrase, found.canonical, hc, hs ▸ ht, fun canonical hm => ?_⟩
    rw [newConcepts, Finset.mem_sdiff, mem_toFinset, mem_toFinset, hq, hq', he, he'] at hm
    simp only [mem_eraseDups, map_append, mem_append, not_or] at hm
    simpa using hm.left.resolve_left hm.right.left

end

section

variable {K : Type} [Field K] [LinearOrder K] [IsStrictOrderedRing K]

-- The tokens of the queries are the same, so everything is down to the concepts: what the new ones earn, and
-- whether the entry has them all.
theorem repetition_adds_nothing_iff (knowledge : KnowledgeBase) (concepts : ConceptDictionary)
    (numerics : Numerics K) (order : HashOrder Bytes) (text text' token : Bytes) (i : ℕ)
    (result result' : SearchResult K) :
    let engine : SearchEngine K := { knowledge, concepts, numerics, order }
    let query    := engine.queryProcessor.process text
    let query'   := engine.queryProcessor.process text'
    let document := entryDocument concepts result.entry
    let points   := conceptPoints numerics engine.config engine.index document
    Repeats text text' token → engine.score i query (engine.candidates query) = some result →
    engine.score i query' (engine.candidates query') = some result' →
    (result'.score - result'.breakdown.intent ≤ result.score - result.breakdown.intent ↔
      (newConcepts query query').sum points + coverPoints K document query' ≤
        (newConcepts query' query).sum points + coverPoints K document query) ∧
    (query'.concepts = query.concepts ∨ ∃ phrase canonical,
      concepts.phraseToCanonical.lookup phrase = some canonical ∧
      tokenize phrase true false <:+ query'.sequenceTokens ∧ newConcepts query query' ⊆ {canonical}) := by
  intro engine query query' document points h hs hs'
  refine ⟨?_, h.concepts rfl⟩
  have he' : result'.entry = result.entry :=
    Option.some.inj <| (SearchEngine.entry_of_score hs').symm.trans (SearchEngine.entry_of_score hs)
  have ht : query'.tokens = query.tokens := h.tokens_eq _
  have hn : query'.normalizedQuery = query.normalizedQuery := h.normalizedQuery_eq _
  have hs : _ = _ + _ + _ + _ + (query.concepts.map points).sum :=
    SearchEngine.score_sub_intent_default rfl rfl hs rfl
  have hs' : _ = _ + _ + _ + _ + (query'.concepts.map points).sum :=
    SearchEngine.score_sub_intent_default rfl rfl hs' (he' ▸ rfl)
  have ha : aliasPoints K document query' = aliasPoints K document query := by
    unfold aliasPoints containsTaskPhrase
    rw [hn]
  have hc : commandComponent engine.config document query' = commandComponent engine.config document query := by
    unfold commandComponent
    rw [ht]
  have hsum : (newConcepts query query').sum points - (newConcepts query' query).sum points =
      (query'.concepts.map points).sum - (query.concepts.map points).sum := by
    have hn (text : Bytes) := engine.queryProcessor.nodup_concepts rfl text
    rw [← sum_toFinset _ (hn text), ← sum_toFinset _ (hn text')]
    exact Finset.sum_sdiff_sub_sum_sdiff
  rw [hs, hs', ha, hc, ht]
  constructor <;> intro h <;> linarith

end

-- One entry and one concept.
namespace Duplicates

def base : KnowledgeBase :=
  .ofEntries [howto (ascii "clone-files") (ascii "Cloning") [ascii "clone document"] [ascii "duplicate"]] <|
    pairwise_singleton _ _

def concepts : ConceptDictionary :=
  loadConcepts [(ascii "duplicate", [ascii "file copy"])]

def engine : SearchEngine ℚ where
  knowledge := base
  concepts  := concepts
  numerics  := .rational
  order     := .sorted

-- The second "copy" completes the phrase of a concept that the entry has.
theorem repetition_inflates :
    let query  := engine.queryProcessor.process <| ascii "copy file"
    let query' := engine.queryProcessor.process <| ascii "copy file copy"
    concepts.report.usable ∧ Repeats (ascii "copy file") (ascii "copy file copy") (ascii "copy") ∧
    ∃ result ∈ engine.score 0 query (engine.candidates query),
      ∃ result' ∈ engine.score 0 query' (engine.candidates query'),
        ¬(result'.score - result'.breakdown.intent ≤ result.score - result.breakdown.intent) := by
  refine ⟨?_, ⟨?_, ?_⟩, ?_⟩ <;> decide +kernel

theorem repetition_adds_nothing_clone :
    let query  := engine.queryProcessor.process <| ascii "clone file copy"
    let query' := engine.queryProcessor.process <| ascii "clone file copy file"
    ∃ result ∈ engine.score 0 query (engine.candidates query),
      ∃ result' ∈ engine.score 0 query' (engine.candidates query'),
        result'.score - result'.breakdown.intent ≤ result.score - result.breakdown.intent := by
  intro query query'
  have hr : Repeats (ascii "clone file copy") (ascii "clone file copy file") (ascii "file") := by
    constructor <;> decide +kernel
  let points (entry : KnowledgeEntry) : Bytes → ℚ :=
    conceptPoints .rational engine.config engine.index <| entryDocument concepts entry
  have ⟨result, hs, hp⟩ : ∃ result ∈ engine.score 0 query (engine.candidates query),
      (newConcepts query query').sum (points result.entry) +
          coverPoints ℚ (entryDocument concepts result.entry) query' ≤
        (newConcepts query' query).sum (points result.entry) +
          coverPoints ℚ (entryDocument concepts result.entry) query := by
    decide +kernel
  have ⟨result', hs'⟩ : ∃ result', engine.score 0 query' (engine.candidates query') = some result' :=
    Option.isSome_iff_exists.mp <| by decide +kernel
  have ⟨h, _⟩ := repetition_adds_nothing_iff base concepts .rational .sorted _ _ _ 0 result result' hr hs hs'
  exact ⟨result, hs, result', hs', h.mpr hp⟩

end Duplicates

end Howlinux
