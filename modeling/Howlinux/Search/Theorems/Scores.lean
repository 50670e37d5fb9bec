import Howlinux.Search.Theorems.Candidates

open Bytes List

namespace Howlinux

variable {K : Type} [Field K] [LinearOrder K]

omit [LinearOrder K] in
theorem ScoreBreakdown.total_eq (breakdown : ScoreBreakdown K) :
    breakdown.total = breakdown.contentRelevance + breakdown.intent := by
  unfold total contentRelevance
  ring

theorem intentScore_default [IsStrictOrderedRing K] : ({} : SearchConfig K).intentScore = 20 := by
  norm_num

section

variable (numerics : Numerics K) (config : SearchConfig K) (index : InvertedIndex) (document : EntryDocument)
  (entry : KnowledgeEntry) (query : QueryContext) (fuzzyMatches : List FuzzyTokenMatch)

-- The score of a document without what the type of the query adds.
def contentScore : K :=
  (contentBreakdown numerics config index document query <|
    bestFuzzyMatches config document fuzzyMatches).contentRelevance

theorem score_scoreDocument :
    (scoreDocument numerics config index document entry query fuzzyMatches).score =
      contentScore numerics config index document query fuzzyMatches +
        if config.meaningfulScore ≤ contentScore numerics config index document query fuzzyMatches ∧
          queryTypeName query.type ∈ document.intents then config.intentScore else 0 :=
  ScoreBreakdown.total_eq _

end

namespace SearchEngine

variable {engine : SearchEngine K} {i : ℕ} {query : QueryContext} {candidates : CandidateSet}
  {result : SearchResult K}

theorem eq_scoreDocument (h : engine.score i query candidates = some result) :
    result = scoreDocument engine.numerics engine.config engine.index (entryDocument engine.concepts result.entry)
      result.entry query ((candidates.fuzzyMatches.lookup i).getD []) := by
  have ⟨_, he⟩ := score_eq_some_iff.mp h
  subst he
  rfl

theorem score_sub_intent (h : engine.score i query candidates = some result) :
    result.score - result.breakdown.intent = contentScore engine.numerics engine.config engine.index
      (entryDocument engine.concepts result.entry) query ((candidates.fuzzyMatches.lookup i).getD []) := by
  rw [eq_scoreDocument h]
  exact sub_eq_of_eq_add <| ScoreBreakdown.total_eq _

-- A score in terms of what it is without the part for the type of the query.
theorem score_eq_content [IsStrictOrderedRing K] (hd : engine.config = {})
    (h : engine.score i query candidates = some result) :
    let content := result.score - result.breakdown.intent
    result.score = content + if 8 ≤ content ∧
      queryTypeName query.type ∈ (entryDocument engine.concepts result.entry).intents then 20 else 0 := by
  have hm : engine.config.meaningfulScore = 8 := hd ▸ meaningfulScore_default
  have hi : engine.config.intentScore = 20 := hd ▸ intentScore_default
  have hs := congrArg SearchResult.score <| eq_scoreDocument h
  rw [score_scoreDocument, hm, hi, ← score_sub_intent h] at hs
  exact hs

end SearchEngine

end Howlinux
