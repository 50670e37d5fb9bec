import Howlinux.Knowledge.Theorems.Layout
import Howlinux.Search.Engine

open Bytes List

namespace Howlinux

theorem blankSeparated_cons {token : Bytes} {tokens : List Bytes} :
    blankSeparated (token :: tokens) = byte ' ' :: (token ++ blankSeparated tokens) := by
  simp [blankSeparated]

theorem blankSeparated_append {tokens tokens' : List Bytes} :
    blankSeparated (tokens ++ tokens') = blankSeparated tokens ++ blankSeparated tokens' := by
  simp [blankSeparated]

-- A blank follows every token of a joined list.
theorem exists_blank_cons (tokens : List Bytes) (rest : Bytes) :
    ∃ rest', blankSeparated tokens ++ byte ' ' :: rest = byte ' ' :: rest' := by
  cases tokens <;> simp [blankSeparated]

theorem prefix_of_blankSeparated {tokens phraseTokens : List Bytes} {after : Bytes}
    (ht : ∀ t ∈ tokens, byte ' ' ∉ t) (hp : ∀ t ∈ phraseTokens, byte ' ' ∉ t)
    (h : blankSeparated phraseTokens ++ byte ' ' :: after = blankSeparated tokens ++ [byte ' ']) :
    phraseTokens <+: tokens := by
  have hs (token rest : Bytes) (ht : byte ' ' ∉ token) : (∀ b ∈ token, (b != byte ' ') = true) ∧
      ∀ b ∈ (byte ' ' :: rest).head?, (b != byte ' ') = false :=
    ⟨fun b hb => by simpa using ne_of_mem_of_not_mem hb ht, by simp⟩
  induction phraseTokens generalizing tokens
  case nil => exact nil_prefix
  case cons token phraseTokens hi =>
    cases tokens
    case nil =>
      have := congrArg length h
      simp [blankSeparated] at this
    case cons first tokens =>
      simp only [mem_cons, forall_eq_or_imp] at ht hp
      obtain ⟨r, hr⟩ := exists_blank_cons phraseTokens after
      obtain ⟨r', hr'⟩ := exists_blank_cons tokens []
      simp only [blankSeparated_cons, cons_append, append_assoc, hr, hr', cons.injEq, true_and] at h
      obtain ⟨hf, hb⟩ := hs token r hp.left
      obtain ⟨hf', hb'⟩ := hs first r' ht.left
      obtain ⟨he, hrr⟩ := append_inj_of_stop hf hb hf' hb' h
      rw [← hr, ← hr'] at hrr
      exact he ▸ (prefix_cons_inj token).mpr (hi ht.right hp.right hrr)

-- Where the phrase stands between blanks, its tokens are a run of the list.
theorem infix_of_blankSeparated {tokens phraseTokens : List Bytes} {before after : Bytes}
    (ht : ∀ t ∈ tokens, byte ' ' ∉ t) (hp : ∀ t ∈ phraseTokens, byte ' ' ∉ t) (hn : phraseTokens ≠ [])
    (h : before ++ (blankSeparated phraseTokens ++ byte ' ' :: after) = blankSeparated tokens ++ [byte ' ']) :
    phraseTokens <:+: tokens := by
  induction tokens generalizing before
  case nil =>
    obtain ⟨token, rest, hp⟩ := exists_cons_of_ne_nil hn
    have := congrArg length h
    simp [blankSeparated, hp] at this
    omega
  case cons first tokens hi =>
    cases before
    case nil => exact (prefix_of_blankSeparated ht hp h).isInfix
    case cons b before =>
      simp only [mem_cons, forall_eq_or_imp] at ht
      simp only [blankSeparated_cons, cons_append, append_assoc, cons.injEq] at h
      cases append_eq_append_iff.mp h.right
      case inl h =>
        obtain ⟨middle, hf, hm⟩ := h
        cases middle
        case nil =>
          have hm : [] ++ (blankSeparated phraseTokens ++ byte ' ' :: after) =
            blankSeparated tokens ++ [byte ' '] := hm
          exact (hi ht.right hm).trans (suffix_cons first tokens).isInfix
        case cons c _ =>
          obtain ⟨r, hr⟩ := exists_blank_cons phraseTokens after
          simp only [hr, cons_append, cons.injEq] at hm
          exact absurd (hf ▸ by simp [hm.left]) ht.left
      case inr h =>
        obtain ⟨middle, _, hm⟩ := h
        exact (hi ht.right hm.symm).trans (suffix_cons first tokens).isInfix

theorem blank_joinTokens {tokens : List Bytes} (h : ∀ t ∈ tokens, IsToken t) (hn : tokens ≠ []) :
    byte ' ' :: joinTokens tokens = blankSeparated tokens := by
  cases tokens
  case nil  => contradiction
  case cons => rw [joinTokens_cons (h _ mem_cons_self).ne_nil, blankSeparated_cons]

theorem blank_mem_joinTokens_iff {tokens : List Bytes} (h : ∀ t ∈ tokens, IsToken t) :
    byte ' ' ∈ joinTokens tokens ↔ 2 ≤ tokens.length := by
  cases tokens
  case nil => simp [joinTokens]
  case cons token tokens =>
    have ht := h token mem_cons_self
    cases tokens <;> simp [joinTokens_cons ht.ne_nil, blankSeparated, ht.no_blank]

-- A phrase is found in a text where its tokens are a run of the tokens of the text.
theorem containsNormalizedPhrase_joinTokens {tokens phraseTokens : List Bytes}
    (ht : ∀ t ∈ tokens, IsToken t) (hp : ∀ t ∈ phraseTokens, IsToken t) (hn : phraseTokens ≠ []) :
    containsNormalizedPhrase (joinTokens tokens) (joinTokens phraseTokens) ↔ phraseTokens <:+: tokens := by
  unfold containsNormalizedPhrase
  by_cases he : tokens = []
  case pos => simp [he, hn, joinTokens]
  case neg =>
    have hj := mt (joinTokens_eq_nil_iff ht).mp he
    have hk := mt (joinTokens_eq_nil_iff hp).mp hn
    simp only [hj, hk, List.isEmpty_iff, Bool.or_eq_true, or_self, if_false, isSome_find]
    rw [blank_joinTokens ht he, blank_joinTokens hp hn]
    constructor
    case mp =>
      rintro ⟨before, after, h⟩
      have h : before ++ (blankSeparated phraseTokens ++ byte ' ' :: after) =
        blankSeparated tokens ++ [byte ' '] := by simpa using h
      exact infix_of_blankSeparated (fun t h => (ht t h).no_blank) (fun t h => (hp t h).no_blank) hn h
    case mpr =>
      rintro ⟨first, last, h⟩
      obtain ⟨rest, hr⟩ := exists_blank_cons last []
      refine ⟨blankSeparated first, rest, ?_⟩
      rw [← h, blankSeparated_append, blankSeparated_append, append_assoc _ (blankSeparated last), hr]
      simp

-- The joined form of the tokens of a query, as `process` makes it.
structure IsNormal (query : QueryContext) : Prop where
  normalized : query.normalizedQuery = joinTokens query.tokens
  isToken    : ∀ token ∈ query.tokens, IsToken token

theorem isNormal_process (processor : QueryProcessor) (text : Bytes) :
    IsNormal (processor.process text) where
  normalized := rfl
  isToken _  := isToken_of_mem_tokenize

theorem EntryDocument.subset_allTokens (document : EntryDocument) :
    document.titleTokens ⊆ document.allTokens ∧ document.aliasTokens ⊆ document.allTokens ∧
    document.keywordTokens ⊆ document.allTokens ∧
    document.commandTokens ⊆ document.allTokens ∧ document.conceptTokens ⊆ document.allTokens := by
  unfold allTokens
  refine ⟨?_, ?_, ?_, ?_, ?_⟩ <;> intro token <;> simp +contextual

section

variable {concepts : ConceptDictionary} {entry : KnowledgeEntry}

theorem mem_aliasesNormalized {phrase : Bytes} :
    phrase ∈ (entryDocument concepts entry).aliasesNormalized ↔
      phrase ≠ [] ∧ ∃ source ∈ entry.aliases, joinTokens (tokenize source) = phrase := by
  simp [entryDocument, and_comm]

theorem aliasTokens_subset {source token : Bytes} (hs : source ∈ entry.aliases)
    (ht : token ∈ tokenize source) : token ∈ (entryDocument concepts entry).allTokens := by
  have : token ∈ (entryDocument concepts entry).aliasTokens := by
    simpa [entryDocument] using ⟨source, hs, ht⟩
  simp [EntryDocument.allTokens, this]

-- No token and no concept of the query is indexed for the document.
structure Misses (document : EntryDocument) (query : QueryContext) : Prop where
  tokens   : ∀ token ∈ query.tokens, token ∉ document.allTokens
  concepts : ∀ canonical ∈ query.concepts, canonical ∉ document.allTokens

variable {query : QueryContext}

-- A query that is an alias has no other tokens.
theorem mem_allTokens_of_alias (hn : IsNormal query)
    (h : query.normalizedQuery ∈ (entryDocument concepts entry).aliasesNormalized) {token : Bytes}
    (ht : token ∈ query.tokens) : token ∈ (entryDocument concepts entry).allTokens := by
  have ⟨_, source, hs, he⟩ := mem_aliasesNormalized.mp h
  rw [hn.normalized] at he
  have he := joinTokens_injective (fun _ => isToken_of_mem_tokenize) hn.isToken he
  exact aliasTokens_subset hs (he ▸ ht)

theorem Misses.normalizedQuery (h : Misses (entryDocument concepts entry) query) (hn : IsNormal query) :
    query.normalizedQuery ∉ (entryDocument concepts entry).aliasesNormalized := by
  intro hm
  have ⟨hne, _⟩ := mem_aliasesNormalized.mp hm
  rw [hn.normalized] at hne
  have hq : query.tokens ≠ [] := mt (joinTokens_eq_nil_iff hn.isToken).mpr hne
  have ⟨token, hq⟩ := exists_mem_of_ne_nil _ hq
  exact h.tokens token hq <| mem_allTokens_of_alias hn hm hq

theorem containsTaskPhrase_iff (hn : IsNormal query) :
    containsTaskPhrase (entryDocument concepts entry) query ↔
      ∃ source ∈ entry.aliases, 2 ≤ (tokenize source).length ∧ tokenize source <:+: query.tokens := by
  have hb (source : Bytes) : byte ' ' ∈ joinTokens (tokenize source) ↔ 2 ≤ (tokenize source).length :=
    blank_mem_joinTokens_iff fun _ => isToken_of_mem_tokenize
  simp only [containsTaskPhrase, any_eq_true, Bool.and_eq_true, contains_iff_mem, hn.normalized]
  constructor
  case mp =>
    intro ⟨phrase, hm, hp, hc⟩
    have ⟨hne, source, hs, he⟩ := mem_aliasesNormalized.mp hm
    subst he
    have ht := mt (joinTokens_eq_nil_iff fun _ => isToken_of_mem_tokenize).mpr hne
    exact ⟨source, hs, (hb source).mp hp,
      (containsNormalizedPhrase_joinTokens hn.isToken (fun _ => isToken_of_mem_tokenize) ht).mp hc⟩
  case mpr =>
    intro ⟨source, hs, hl, hi⟩
    have ht : tokenize source ≠ [] := ne_nil_of_length_pos (Nat.zero_lt_of_lt hl)
    have hne := mt (joinTokens_eq_nil_iff fun _ => isToken_of_mem_tokenize).mp ht
    exact ⟨joinTokens (tokenize source), mem_aliasesNormalized.mpr ⟨hne, source, hs, rfl⟩, (hb source).mpr hl,
      (containsNormalizedPhrase_joinTokens hn.isToken (fun _ => isToken_of_mem_tokenize) ht).mpr hi⟩

theorem Misses.containsTaskPhrase (h : Misses (entryDocument concepts entry) query) (hn : IsNormal query) :
    containsTaskPhrase (entryDocument concepts entry) query = false := by
  refine Bool.eq_false_iff.mpr fun hc => ?_
  have ⟨source, hs, hl, hi⟩ := (containsTaskPhrase_iff hn).mp hc
  have ⟨token, ht⟩ := exists_mem_of_length_pos (Nat.zero_lt_of_lt hl)
  exact h.tokens token (hi.subset ht) <| aliasTokens_subset hs ht

theorem Misses.coversConcepts {document : EntryDocument} (h : Misses document query) :
    coversConcepts document query = false := by
  unfold Howlinux.coversConcepts
  rw [Bool.and_eq_false_iff, or_iff_not_imp_left]
  intro hl
  have ⟨canonical, hc⟩ := exists_mem_of_length_pos (l := query.concepts) (by simp at hl; omega)
  have ⟨_, _, _, _, hs⟩ := document.subset_allTokens
  rw [all_eq_false]
  exact ⟨canonical, hc, by simpa using mt (@hs canonical) (h.concepts canonical hc)⟩

section

variable {K : Type} [Field K] [LinearOrder K] {numerics : Numerics K} {config : SearchConfig K}
  {index : InvertedIndex}

theorem weightedSum_eq_zero {baseScore : K} {fieldTokens : Finset Bytes} {tokens : List Bytes}
    (h : ∀ token ∈ tokens, token ∉ fieldTokens) :
    weightedSum numerics index baseScore fieldTokens tokens = 0 := by
  have : tokens.filter (· ∈ fieldTokens) = [] := by simpa [filter_eq_nil_iff] using h
  simp [weightedSum, this]

-- Every component of the score needs an indexed token.
theorem score_eq_zero (h : Misses (entryDocument concepts entry) query) (hn : IsNormal query)
    (hc : 0 < config.meaningfulScore) :
    (scoreDocument numerics config index (entryDocument concepts entry) entry query []).score = 0 := by
  have ⟨ht, _, hk, hm, hcc⟩ := (entryDocument concepts entry).subset_allTokens
  have hs (fieldTokens : Finset Bytes) (hf : fieldTokens ⊆ (entryDocument concepts entry).allTokens) :
      (∀ token ∈ query.tokens, token ∉ fieldTokens) ∧ ∀ token ∈ query.concepts, token ∉ fieldTokens :=
    ⟨fun t ht hm => h.tokens t ht (hf hm), fun t ht hm => h.concepts t ht (hf hm)⟩
  have hcommand := hs _ hm
  have hhead : query.tokens.head?.any (· ∈ (entryDocument concepts entry).commandTokens) = false := by
    cases hq : query.tokens <;> simp_all
  have hkeywords := hs _ hk
  have hconcepts := hs _ hcc
  have htitle := hs _ ht
  have hall := hs _ subset_rfl
  have hb : bestFuzzyMatches config (entryDocument concepts entry) [] = [] := by
    simp [bestFuzzyMatches]
  have hcontent : contentBreakdown numerics config index (entryDocument concepts entry) query [] =
      ⟨0, 0, 0, 0, 0, 0, 0, 0, 0⟩ := by
    simp [contentBreakdown, exactAliasComponent, phraseComponent, commandComponent,
      h.normalizedQuery hn, h.containsTaskPhrase hn, h.coversConcepts, hhead,
      weightedSum_eq_zero hkeywords.left, weightedSum_eq_zero hconcepts.right,
      weightedSum_eq_zero htitle.left, weightedSum_eq_zero hall.left]
  simp [scoreDocument, hb, hcontent, intentComponent, ScoreBreakdown.contentRelevance,
    ScoreBreakdown.total, hc.not_ge]

end

end

-- The order of the results: by score, then by exact alias and phrase, then by intent, all descending,
-- then by id.
def SearchResult.key {K : Type} [Add K] (result : SearchResult K) : Kᵒᵈ ×ₗ Kᵒᵈ ×ₗ Kᵒᵈ ×ₗ Bytes :=
  toLex (OrderDual.toDual result.score, toLex (OrderDual.toDual result.breakdown.exactAndPhrase,
    toLex (OrderDual.toDual result.breakdown.intent, result.entry.id)))

theorem resultBefore_comparesBy {K : Type} [Field K] [LinearOrder K] :
    ComparesBy resultBefore (SearchResult.key (K := K)) := by
  intro left right
  simp only [SearchResult.key, Prod.Lex.toLex_lt_toLex, OrderDual.toDual_lt_toDual,
    OrderDual.toDual_inj, resultBefore]
  grind

namespace SearchEngine

variable {K : Type} [Field K] [LinearOrder K] {engine : SearchEngine K} {query : QueryContext} {i : ℕ}
  {result : SearchResult K}

-- Every loaded entry, scored with the fuzzy matches of the candidates.
def allResults (engine : SearchEngine K) (query : QueryContext) : List (SearchResult K) :=
  (engine.scores query <| range engine.knowledge.entries.length).get <|
    engine.isSome_scores fun _ => mem_range.mp

theorem allResults_eq : engine.allResults query =
    (range engine.knowledge.entries.length).filterMap (engine.score · query (engine.candidates query)) :=
  eq_filterMap_of_mapM_eq_some <| Option.some_get _ |>.symm

theorem ranking_eq : engine.ranking query = engine.rank
    ((engine.candidates query).entryIndices.filterMap (engine.score · query (engine.candidates query))) :=
  congrArg engine.rank <| eq_filterMap_of_mapM_eq_some <| Option.some_get _ |>.symm

theorem score_eq_some_iff {candidates : CandidateSet} :
    engine.score i query candidates = some result ↔ ∃ h : i < engine.knowledge.entries.length,
      scoreDocument engine.numerics engine.config engine.index
        (entryDocument engine.concepts engine.knowledge.entries[i]) engine.knowledge.entries[i] query
        ((candidates.fuzzyMatches.lookup i).getD []) = result := by
  by_cases h : i < engine.knowledge.entries.length
  case pos => simp [engine.score_eq_some h, h]
  case neg => simp [score, h]

theorem entry_of_score {candidates : CandidateSet} (h : engine.score i query candidates = some result) :
    engine.knowledge.entries[i]? = some result.entry := by
  have ⟨hi, he⟩ := score_eq_some_iff.mp h
  rw [List.getElem?_eq_getElem hi, ← he]
  rfl

theorem breakdown_of_score {candidates : CandidateSet}
    (h : engine.score i query candidates = some result) :
    let document := entryDocument engine.concepts result.entry
    result.breakdown.exactAlias = exactAliasComponent engine.config document query ∧
      result.breakdown.phrase = phraseComponent engine.config document query ∧
      result.breakdown.command = commandComponent engine.config document query := by
  have ⟨_, he⟩ := score_eq_some_iff.mp h
  subst he
  exact ⟨rfl, rfl, rfl⟩

-- An entry that no token and no concept of the query leads to scores nothing.
theorem score_of_not_candidate (hn : IsNormal query) (hc : 0 < engine.config.meaningfulScore)
    (hi : i ∉ (engine.candidates query).entryIndices)
    (h : engine.score i query (engine.candidates query) = some result) : result.score = 0 := by
  have ⟨hl, he⟩ := score_eq_some_iff.mp h
  have ⟨candidates, hg, hq⟩ := InvertedIndex.gathered_candidates engine.order engine.knowledge
    engine.concepts engine.config query
  have hq : engine.candidates query = _ := hq
  rw [hq, HashOrder.mem] at hi
  have hf : candidates.fuzzyMatches.lookup i = none :=
    Finmap.lookup_eq_none.mpr fun hm => hi <| hg.keys i hm
  have hd : (InvertedIndex.build engine.order engine.knowledge engine.concepts).documents[i]? =
      some (entryDocument engine.concepts engine.knowledge.entries[i]) := by
    simp [InvertedIndex.documents_build, hl]
  have hm : ∀ token ∈ query.tokens ++ query.concepts,
      token ∉ (entryDocument engine.concepts engine.knowledge.entries[i]).allTokens := by
    intro token ht ha
    apply hi <| hg.direct _
    rw [InvertedIndex.direct, mem_toFinset, mem_flatMap]
    exact ⟨token, ht, InvertedIndex.mem_posting.mpr ⟨_, hd, ha⟩⟩
  rw [← he, hq, hf]
  exact score_eq_zero ⟨fun t ht => hm t <| mem_append_left _ ht, fun t ht => hm t <| mem_append_right _ ht⟩
    hn hc

omit [LinearOrder K] in
theorem perm_candidates : (engine.candidates query).entryIndices.Perm
    ((range engine.knowledge.entries.length).filter (· ∈ (engine.candidates query).entryIndices)) := by
  have ⟨candidates, hg, hq⟩ := InvertedIndex.gathered_candidates engine.order engine.knowledge
    engine.concepts engine.config query
  have hq : engine.candidates query = _ := hq
  have hn : (engine.candidates query).entryIndices.Nodup := hq ▸ HashOrder.sorted.nodup _
  refine (perm_ext_iff_of_nodup hn <| nodup_range.filter _).mpr fun i => ?_
  rw [mem_filter, mem_range, decide_eq_true_iff]
  exact (and_iff_right_of_imp InvertedIndex.lt_of_mem_candidates).symm

-- The meaningful results come from the candidates.
theorem perm_meaningful (hn : IsNormal query) (hc : 0 < engine.config.meaningfulScore) :
    (((engine.candidates query).entryIndices.filterMap (engine.score · query (engine.candidates query))).filter
      (engine.config.meaningfulScore ≤ ·.score)).Perm
    ((engine.allResults query).filter (engine.config.meaningfulScore ≤ ·.score)) := by
  rw [allResults_eq, filter_filterMap, filter_filterMap]
  refine (perm_candidates.filterMap _).trans <| .of_eq ?_
  rw [filterMap_filter]
  refine filterMap_congr fun i _ => ?_
  split
  case isTrue => rfl
  case isFalse hi =>
    cases h : engine.score i query (engine.candidates query)
    case none => rfl
    case some result =>
      have := score_of_not_candidate hn hc (by simpa using hi) h
      simp [Option.filter, this, hc.not_ge]

theorem map_entry_allResults : (engine.allResults query).map (·.entry) = engine.knowledge.entries := by
  have hs : ∀ i ∈ range engine.knowledge.entries.length,
      (engine.score i query (engine.candidates query)).map (·.entry) = engine.knowledge.entries[i]? := by
    intro i hi
    rw [engine.score_eq_some (mem_range.mp hi), List.getElem?_eq_getElem (mem_range.mp hi)]
    rfl
  rw [allResults_eq, map_filterMap, filterMap_congr hs, filterMap_getElem?_range]

theorem nodup_id_allResults : ((engine.allResults query).map (·.entry.id)).Nodup := by
  have he : (engine.allResults query).map (·.entry.id) = engine.knowledge.entries.map (·.id) := by
    rw [← map_entry_allResults, map_map]
    rfl
  rw [he]
  exact pairwise_map.mpr <| engine.knowledge.sorted.imp ne_of_lt

omit [LinearOrder K] in
theorem id_of_key {left right : SearchResult K} (h : left.key = right.key) :
    left.entry.id = right.entry.id :=
  congrArg (fun key => (ofLex (ofLex (ofLex key).2).2).2) h

theorem eq_of_key_eq {left right : SearchResult K} (hl : left ∈ engine.allResults query)
    (hr : right ∈ engine.allResults query) (h : left.key = right.key) : left = right :=
  inj_on_of_nodup_map nodup_id_allResults hl hr <| id_of_key h

theorem ranking_eq_rank_allResults (hn : IsNormal query) (hc : 0 < engine.config.meaningfulScore) :
    engine.ranking query = engine.rank (engine.allResults query) := by
  rw [ranking_eq]
  refine (sortBy_eq_of_perm resultBefore_comparesBy ?_ (perm_meaningful hn hc).symm).symm
  intro left hl right hr he
  exact eq_of_key_eq (mem_filter.mp hl).left (mem_filter.mp hr).left he

theorem pairwise_ranking (query : QueryContext) (hn : IsNormal query)
    (hc : 0 < engine.config.meaningfulScore) :
    (engine.ranking query).Pairwise (·.key < ·.key) := by
  rw [ranking_eq_rank_allResults hn hc]
  refine pairwise_lt_sortBy resultBefore_comparesBy ?_
  have hn : ((engine.allResults query).map (·.entry.id)).Nodup := nodup_id_allResults
  have hp := (pairwise_map.mp hn).filter (engine.config.meaningfulScore ≤ ·.score)
  exact pairwise_map.mpr <| hp.imp fun hne he => hne <| id_of_key he

theorem ranking_eq_nil (ht : query.tokens = []) (hc : query.concepts = []) : engine.ranking query = [] := by
  have he : (engine.candidates query).entryIndices = [] := by
    simp only [candidates, InvertedIndex.candidates, ht, hc]
    rfl
  rw [ranking_eq, he]
  rfl

-- A query without tokens and concepts is no exception.
theorem search_eq (engine : SearchEngine K) (text : Bytes) {limit : ℕ} (h : limit ≠ 0) :
    engine.search text limit = ⟨engine.queryProcessor.process text,
      (engine.ranking <| engine.queryProcessor.process text).take limit⟩ := by
  simp only [search, if_neg h]
  split
  case isTrue hq =>
    simp only [Bool.and_eq_true, List.isEmpty_iff] at hq
    rw [ranking_eq_nil hq.left hq.right, take_nil]
  case isFalse => rfl

end SearchEngine

section

variable {K : Type} [Field K] [LinearOrder K] [IsStrictOrderedRing K]

theorem meaningfulScore_default : ({} : SearchConfig K).meaningfulScore = 8 := by
  norm_num

omit [IsStrictOrderedRing K] in
-- The comparison is a strict total order of entries with distinct ids.
theorem resultBefore_strict (left middle right : SearchResult K) :
    resultBefore left left = false ∧
    (resultBefore left middle → resultBefore middle right → resultBefore left right) ∧
    (left.entry.id ≠ right.entry.id → resultBefore left right ∨ resultBefore right left) := by
  have hc := resultBefore_comparesBy (K := K)
  refine ⟨(hc.not_before_iff _ _).mpr le_rfl, ?_, fun h => ?_⟩
  · simpa only [hc _ _] using lt_trans
  · simpa only [hc _ _] using lt_or_gt_of_ne fun he => h (SearchEngine.id_of_key he)

-- Searching among the candidates finds what scoring every loaded entry would find.
theorem search_candidates_suffice (knowledge : KnowledgeBase) (concepts : ConceptDictionary)
    (numerics : Numerics K) (order : HashOrder Bytes) (text : Bytes) :
    let engine : SearchEngine K := { knowledge, concepts, numerics, order }
    let query   := engine.queryProcessor.process text
    let ranking := engine.ranking query
    let results := engine.allResults query
    (∀ limit ≠ 0, engine.search text limit = ⟨query, ranking.take limit⟩) ∧
    results.map (·.entry) = knowledge.entries ∧
    ranking = (results.filter (8 ≤ ·.score)).sortBy resultBefore ∧
    ranking.Pairwise (·.key < ·.key) ∧
    (∀ i ∉ (engine.candidates query).entryIndices, ∀ result,
      engine.score i query (engine.candidates query) = some result → result.score = 0) ∧
    (∀ left middle right : SearchResult K,
      resultBefore left left = false ∧
      (resultBefore left middle → resultBefore middle right → resultBefore left right) ∧
      (left.entry.id ≠ right.entry.id → resultBefore left right ∨ resultBefore right left)) := by
  intro engine query ranking results
  have hn : IsNormal query := isNormal_process ..
  have h8 : engine.config.meaningfulScore = 8 := meaningfulScore_default
  have hc : 0 < engine.config.meaningfulScore := by rw [h8]; norm_num
  refine ⟨fun limit => engine.search_eq text, SearchEngine.map_entry_allResults, ?_,
    SearchEngine.pairwise_ranking query hn hc,
    fun i hi result => SearchEngine.score_of_not_candidate hn hc hi, resultBefore_strict⟩
  rw [← h8]
  exact SearchEngine.ranking_eq_rank_allResults hn hc

end

theorem search_candidates_suffice_copy :
    let engine : SearchEngine ℚ :=
      { knowledge := Stocked.base, concepts := default, numerics := .rational, order := .sorted }
    let query   := engine.queryProcessor.process (ascii "copying file")
    let ranking := engine.ranking query
    ranking.map (·.entry.id) = [ascii "copy-file", ascii "copy-branch"] ∧
    engine.search (ascii "copying file") 1 = ⟨query, ranking.take 1⟩ ∧
    ranking = ((engine.allResults query).filter (8 ≤ ·.score)).sortBy resultBefore := by
  obtain ⟨hs, _, hr, _⟩ := search_candidates_suffice Stocked.base default .rational .sorted (ascii "copying file")
  exact ⟨by decide +kernel, hs 1 (by decide), hr⟩

end Howlinux
