import Howlinux.Search.Theorems.Scores

open Bytes List

namespace Howlinux

variable {K : Type} [Field K] [LinearOrder K]

-- Two results of an entry for queries that differ in nothing but their type.
structure Aligned (result result' : SearchResult K) : Prop where
  entry      : result'.entry = result.entry
  content    : result'.breakdown.contentRelevance = result.breakdown.contentRelevance
  admitted   : 8 ≤ result'.score ↔ 8 ≤ result.score
  difference : result'.score - result.score = -20 ∨ result'.score - result.score = 0 ∨
    result'.score - result.score = 20
  relevant   : result'.score ≠ result.score → 8 ≤ result.breakdown.contentRelevance

variable [IsStrictOrderedRing K]

-- What the type adds comes on top of a content that is meaningful already.
theorem meaningful_add_intent_iff {content : K} (p : Prop) [Decidable p] :
    8 ≤ (content + if 8 ≤ content ∧ p then 20 else 0) ↔ 8 ≤ content := by
  split
  case isTrue h  => exact iff_of_true (le_add_of_le_of_nonneg h.left (by norm_num)) h.left
  case isFalse h => rw [add_zero]

omit [LinearOrder K] [IsStrictOrderedRing K] in
theorem intent_sub_intent {content : K} (p q : Prop) [Decidable p] [Decidable q] :
    let difference := (content + if p then 20 else 0) - (content + if q then 20 else 0)
    difference = -20 ∨ difference = 0 ∨ difference = 20 := by
  simp only [add_sub_add_left_eq_sub]
  split <;> split <;> simp

namespace SearchEngine

variable {engine : SearchEngine K} {query : QueryContext} {candidates : CandidateSet} {i : ℕ}
  {result result' : SearchResult K}

theorem aligned_of_score (hc : engine.config = {}) (type : QueryType)
    (h : engine.score i query candidates = some result)
    (h' : engine.score i { query with type } candidates = some result') : Aligned result result' := by
  have ⟨hi, hr⟩ := score_eq_some_iff.mp h
  have ⟨_, hr'⟩ := score_eq_some_iff.mp h'
  have hm : engine.config.meaningfulScore = 8 := hc ▸ meaningfulScore_default
  have hn : engine.config.intentScore = 20 := hc ▸ intentScore_default
  let document := entryDocument engine.concepts engine.knowledge.entries[i]
  let content  := contentScore engine.numerics engine.config engine.index document query
    ((candidates.fuzzyMatches.lookup i).getD [])
  have hs (type : QueryType) : (scoreDocument engine.numerics engine.config engine.index document
      engine.knowledge.entries[i] { query with type } ((candidates.fuzzyMatches.lookup i).getD [])).score =
      content + if 8 ≤ content ∧ queryTypeName type ∈ document.intents then 20 else 0 := by
    rw [score_scoreDocument, hm, hn]
    rfl
  have hq : result.score = _ := hr ▸ hs query.type
  have ht : result'.score = _ := hr' ▸ hs type
  have hl : result.breakdown.contentRelevance = content := hr ▸ rfl
  have hl' : result'.breakdown.contentRelevance = content := hr' ▸ rfl
  exact {
    entry      := hr ▸ hr' ▸ rfl
    content    := hl'.trans hl.symm
    admitted   := by rw [hq, ht, meaningful_add_intent_iff, meaningful_add_intent_iff]
    difference := hq ▸ ht ▸ intent_sub_intent _ _
    relevant   := by
      rw [hl]
      intro hne
      by_contra h8
      rw [hq, ht, if_neg fun h => h8 h.left, if_neg fun h => h8 h.left] at hne
      exact hne rfl }

theorem map_entry_admitted (hc : engine.config = {}) (type : QueryType) (indices : List ℕ) :
    ((indices.filterMap (engine.score · { query with type } candidates)).filter (8 ≤ ·.score)).map (·.entry) =
      ((indices.filterMap (engine.score · query candidates)).filter (8 ≤ ·.score)).map (·.entry) := by
  induction indices
  case nil => rfl
  case cons i indices hi =>
    by_cases hl : i < engine.knowledge.entries.length
    case pos =>
      have ⟨result, hq⟩ : ∃ result, engine.score i query candidates = some result :=
        ⟨_, engine.score_eq_some hl _ _⟩
      have ⟨result', ht⟩ : ∃ result, engine.score i { query with type } candidates = some result :=
        ⟨_, engine.score_eq_some hl _ _⟩
      have ha := aligned_of_score hc type hq ht
      simp only [filterMap_cons, hq, ht, filter_cons, decide_eq_true_eq, ha.admitted]
      split
      case isTrue  => rw [map_cons, map_cons, hi, ha.entry]
      case isFalse => exact hi
    case neg =>
      have hq (query : QueryContext) : engine.score i query candidates = none := by simp [score, hl]
      simp only [filterMap_cons, hq, hi]

-- The entries that are let in do not depend on the type. The candidates do not look at it either.
theorem perm_ranking_type (hc : engine.config = {}) (type : QueryType) :
    ((engine.ranking { query with type }).map (·.entry)).Perm ((engine.ranking query).map (·.entry)) := by
  have hm : engine.config.meaningfulScore = 8 := hc ▸ meaningfulScore_default
  rw [ranking_eq, ranking_eq, rank, rank, hm]
  refine ((perm_sortBy _ _).map _).trans <| Perm.trans ?_ ((perm_sortBy _ _).map _).symm
  exact .of_eq <| map_entry_admitted hc type _

end SearchEngine

-- The type of a query moves results up and down, and never in or out.
theorem query_type_only_ranks (knowledge : KnowledgeBase) (concepts : ConceptDictionary)
    (numerics : Numerics K) (order : HashOrder Bytes) (query : QueryContext) (type : QueryType) :
    let engine : SearchEngine K := { knowledge, concepts, numerics, order }
    let other : QueryContext := { query with type }
    ((engine.ranking other).map (·.entry)).Perm ((engine.ranking query).map (·.entry)) ∧
    ∀ candidates, ∀ indices : List ℕ,
      ((indices.filterMap (engine.score · other candidates)).filter (8 ≤ ·.score)).map (·.entry) =
        ((indices.filterMap (engine.score · query candidates)).filter (8 ≤ ·.score)).map (·.entry) ∧
      ∀ i result result', engine.score i query candidates = some result →
        engine.score i other candidates = some result' → Aligned result result' :=
  ⟨SearchEngine.perm_ranking_type rfl type, fun _ indices => ⟨SearchEngine.map_entry_admitted rfl type indices,
    fun _ _ _ => SearchEngine.aligned_of_score rfl type⟩⟩

theorem query_type_only_ranks_copy :
    let engine : SearchEngine ℚ :=
      { knowledge := Stocked.base, concepts := default, numerics := .rational, order := .sorted }
    let query := engine.queryProcessor.process (ascii "copying file")
    let other : QueryContext := { query with type := .howTo }
    (engine.ranking query).map (·.score) ≠ (engine.ranking other).map (·.score) ∧
    ((engine.ranking other).map (·.entry)).Perm ((engine.ranking query).map (·.entry)) ∧
    ∀ i result result', engine.score i query (engine.candidates query) = some result →
      engine.score i other (engine.candidates query) = some result' → Aligned result result' := by
  intro engine query other
  obtain ⟨hp, ha⟩ := query_type_only_ranks Stocked.base default .rational .sorted query .howTo
  exact ⟨by decide +kernel, hp, (ha (engine.candidates query) []).right⟩

end Howlinux
