import Howlinux.Search.Theorems.Aliases
import Howlinux.Search.Theorems.Scores

open Bytes List

namespace Howlinux

namespace KnowledgeEntry

variable (entry : KnowledgeEntry) (tokens : List Bytes)

-- An alias of two or more distinct tokens is a run of the tokens.
def HasRun : Prop :=
  ∃ source ∈ entry.aliases, 2 ≤ (tokenize source true false).length ∧ (tokenize source true false).Nodup ∧
    tokenize source true false <:+: tokens

-- Such an alias is what some stretch of the tokens says for the first time.
def HasNewRun : Prop :=
  ∃ source ∈ entry.aliases, 2 ≤ (tokenize source true false).length ∧ (tokenize source true false).Nodup ∧
    ∃ before stretch after, before ++ stretch ++ after = tokens ∧
      (stretch.removeAll before).eraseDups = tokenize source true false

instance : Decidable (entry.HasRun tokens) :=
  inferInstanceAs <| Decidable (∃ source ∈ entry.aliases, _)

variable {entry tokens}

theorem hasRun_eraseDups_iff : entry.HasRun tokens.eraseDups ↔ entry.HasNewRun tokens := by
  unfold HasRun HasNewRun
  simp only [infix_eraseDups_iff]

-- Without repetitions every word is new where it stands.
theorem hasNewRun_iff_of_nodup (h : tokens.Nodup) : entry.HasNewRun tokens ↔ entry.HasRun tokens := by
  rw [← hasRun_eraseDups_iff, eraseDups_of_nodup h]

end KnowledgeEntry

variable {K : Type} [Field K] [LinearOrder K] {config : SearchConfig K} {concepts : ConceptDictionary}
  {entry : KnowledgeEntry} {query : QueryContext}

omit [LinearOrder K] in
theorem exactAliasComponent_eq_zero_iff {document : EntryDocument} (h : config.exactAliasScore ≠ 0) :
    exactAliasComponent config document query = 0 ↔ query.normalizedQuery ∉ document.aliasesNormalized := by
  simp [exactAliasComponent, h]

theorem coversConcepts_of_nil {document : EntryDocument} (h : query.concepts = []) :
    coversConcepts document query = false := by
  simp [coversConcepts, h]

-- Without concepts the phrase score is for aliases in the normalized query.
theorem phraseComponent_pos_iff (hn : IsNormal query) (hc : query.concepts = [])
    (hx : query.normalizedQuery ∉ (entryDocument concepts entry).aliasesNormalized)
    (hd : ∀ source ∈ entry.aliases, (tokenize source true false).Nodup) (hp : 0 < config.phraseScore) :
    0 < phraseComponent config (entryDocument concepts entry) query ↔ entry.HasRun query.tokens := by
  have he : 0 < phraseComponent config (entryDocument concepts entry) query ↔
      containsTaskPhrase (entryDocument concepts entry) query := by
    by_cases h : containsTaskPhrase (entryDocument concepts entry) query <;>
      simp [phraseComponent, coversConcepts_of_nil hc, hx, h, hp]
  rw [he, containsTaskPhrase_iff hn]
  refine exists_congr fun source => and_congr_right fun hs => ?_
  have ht : tokenize source = tokenize source true false :=
    (tokenize_deduplicate source true).trans <| eraseDups_of_nodup (hd source hs)
  simp only [ht, hd source hs, true_and]

omit [LinearOrder K] in
theorem SearchEngine.concepts_eq_nil {engine : SearchEngine K} (h : engine.concepts.phraseToCanonical = ∅)
    (text : Bytes) : (engine.queryProcessor.process text).concepts = [] := by
  simp [QueryProcessor.process, QueryProcessor.detectConcepts, queryProcessor, QueryProcessor.create, h]

section

variable [IsStrictOrderedRing K]

-- Repeated words are dropped before a phrase is looked for, so the alias has to be in the words that are new.
theorem phrase_follows_order_iff (knowledge : KnowledgeBase) (concepts : ConceptDictionary)
    (numerics : Numerics K) (order : HashOrder Bytes) (hc : concepts.phraseToCanonical = ∅) (text : Bytes)
    (candidates : CandidateSet) (i : ℕ) (result : SearchResult K) :
    let engine : SearchEngine K := { knowledge, concepts, numerics, order }
    let query := engine.queryProcessor.process text
    engine.score i query candidates = some result → result.breakdown.exactAlias = 0 →
    (∀ source ∈ result.entry.aliases, (tokenize source true false).Nodup) →
    ((0 < result.breakdown.phrase ↔ result.entry.HasRun query.sequenceTokens) ↔
      (result.entry.HasNewRun query.sequenceTokens ↔ result.entry.HasRun query.sequenceTokens)) ∧
    (query.sequenceTokens.Nodup → (0 < result.breakdown.phrase ↔ result.entry.HasRun query.sequenceTokens)) := by
  intro engine query h hx hd
  have ⟨hi, he⟩ := SearchEngine.score_eq_some_iff.mp h
  have hn : IsNormal query := isNormal_process ..
  have hq : query.concepts = [] := SearchEngine.concepts_eq_nil hc text
  have ht : query.tokens = query.sequenceTokens.eraseDups := tokenize_deduplicate text true
  have hp : 0 < result.breakdown.phrase ↔ result.entry.HasNewRun query.sequenceTokens := by
    subst he
    have hx := (exactAliasComponent_eq_zero_iff (by simp only [engine]; norm_num)).mp hx
    rw [← KnowledgeEntry.hasRun_eraseDups_iff, ← ht]
    exact phraseComponent_pos_iff hn hq hx hd (by simp only [engine]; norm_num)
  rw [hp]
  exact ⟨Iff.rfl, KnowledgeEntry.hasNewRun_iff_of_nodup⟩

end

namespace Copies

-- The first entry has no exact alias, and its phrase score does not say whether the query says an alias.
def Misled (text : Bytes) : Prop :=
  let query := engine.queryProcessor.process text
  ∃ result ∈ engine.score 0 query (engine.candidates query), result.breakdown.exactAlias = 0 ∧
    (∀ source ∈ result.entry.aliases, (tokenize source true false).Nodup) ∧
    ¬(0 < result.breakdown.phrase ↔ result.entry.HasRun query.sequenceTokens)

-- The first query says "copy file" and the entry with this alias gets nothing for it. The second one
-- does not say it and the entry gets the phrase score.
theorem phrase_misled : Misled (ascii "file copy file") ∧ Misled (ascii "backup copy backup file") := by
  constructor
  all_goals
    unfold Misled
    decide +kernel

theorem phrase_follows_order_copy :
    let query := engine.queryProcessor.process <| ascii "safely copy file"
    ∃ result ∈ engine.score 0 query (engine.candidates query),
      (0 < result.breakdown.phrase ↔ result.entry.HasRun query.sequenceTokens) := by
  intro query
  have ⟨result, h, hx, hd⟩ : ∃ result ∈ engine.score 0 query (engine.candidates query),
      result.breakdown.exactAlias = 0 ∧ ∀ source ∈ result.entry.aliases, (tokenize source true false).Nodup := by
    decide +kernel
  have ⟨_, hr⟩ := phrase_follows_order_iff base default .rational .sorted rfl _ _ 0 result h hx hd
  exact ⟨result, h, hr <| by decide +kernel⟩

end Copies

end Howlinux
