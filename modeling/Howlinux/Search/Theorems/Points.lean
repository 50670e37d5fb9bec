import Howlinux.Search.Theorems.Scores

open Bytes List

namespace Howlinux

-- The distance of a match is the one of its tokens.
def FuzzyTokenMatch.IsMeasured (fuzzyMatch : FuzzyTokenMatch) : Prop :=
  fuzzyMatch.distance = damerauLevenshteinDistance fuzzyMatch.queryToken fuzzyMatch.indexedToken
    (InvertedIndex.maximumDistance fuzzyMatch.queryToken)

namespace InvertedIndex

section

variable {index : InvertedIndex} {candidates : Candidates} {found : ℕ → FuzzyTokenMatch → Prop}
  {fuzzyMatch : FuzzyTokenMatch} {queryToken : Bytes}

-- The matches that the candidates hold for every position.
structure Finds (candidates : Candidates) (found : ℕ → FuzzyTokenMatch → Prop) : Prop where
  mem      : ∀ i fuzzyMatch, fuzzyMatch ∈ (candidates.fuzzyMatches.lookup i).getD [] ↔ found i fuzzyMatch
  measured : ∀ i fuzzyMatch, found i fuzzyMatch → fuzzyMatch.IsMeasured

-- A match that is already there is skipped, and it is the same one because its distance is.
theorem Finds.addMatch (h : Finds candidates found) (hm : fuzzyMatch.IsMeasured) (j : ℕ) :
    Finds (candidates.addMatch fuzzyMatch j) fun i other => found i other ∨ (i = j ∧ other = fuzzyMatch) where
  mem i other := by
    by_cases hi : i = j
    case neg => simp [Candidates.addMatch, hi, Finmap.lookup_insert_of_ne, h.mem]
    case pos =>
      subst hi
      simp only [Candidates.addMatch, Finmap.lookup_insert, Option.getD_some, true_and]
      split
      case isFalse => simp [h.mem]
      case isTrue hd =>
        rw [h.mem]
        refine (or_iff_left_of_imp fun he => ?_).symm
        obtain ⟨same, hs, he'⟩ := any_eq_true.mp hd
        obtain ⟨hq, hx⟩ := of_decide_eq_true he'
        have hs := (h.mem i same).mp hs
        have hd : same.distance = fuzzyMatch.distance := by
          rw [h.measured i same hs, hm, hq, hx]
        cases same
        cases fuzzyMatch
        simp_all
  measured i other := by
    rintro (ho | ⟨_, he⟩)
    · exact h.measured i other ho
    · exact he ▸ hm

theorem Finds.foldl {α : Type} {step : Candidates → α → Candidates} {more : α → ℕ → FuzzyTokenMatch → Prop}
    {l : List α} (h : Finds candidates found)
    (hs : ∀ candidates found, Finds candidates found → ∀ a ∈ l,
      Finds (step candidates a) fun i fuzzyMatch => found i fuzzyMatch ∨ more a i fuzzyMatch) :
    Finds (l.foldl step candidates) fun i fuzzyMatch => found i fuzzyMatch ∨ ∃ a ∈ l, more a i fuzzyMatch := by
  induction l generalizing candidates found
  case nil => simpa using h
  case cons a l hi =>
    have := hi (hs _ _ h a mem_cons_self) fun _ _ h b hb => hs _ _ h b (mem_cons_of_mem a hb)
    simpa [or_assoc] using this

theorem Finds.addFuzzyToken {fuzzyToken : Bytes × ℕ} (h : Finds candidates found)
    (hm : FuzzyTokenMatch.IsMeasured ⟨queryToken, fuzzyToken.1, fuzzyToken.2⟩) :
    Finds (index.addFuzzyToken queryToken candidates fuzzyToken) fun i fuzzyMatch => found i fuzzyMatch ∨
      (i ∈ (index.posting fuzzyToken.1).getD [] ∧ fuzzyMatch = ⟨queryToken, fuzzyToken.1, fuzzyToken.2⟩) := by
  have := h.foldl (l := (index.posting fuzzyToken.1).getD []) fun _ _ h j _ => h.addMatch hm j
  simpa [InvertedIndex.addFuzzyToken] using this

theorem of_mem_fuzzyTokens {limit : ℕ} {fuzzyToken : Bytes × ℕ}
    (h : fuzzyToken ∈ index.fuzzyTokens limit queryToken) :
    FuzzyTokenMatch.IsMeasured ⟨queryToken, fuzzyToken.1, fuzzyToken.2⟩ ∧
      index.isProtectedFromFuzzy fuzzyToken.1 = false := by
  have h := mem_of_mem_filter <| mem_sortBy.mp <| mem_of_mem_take h
  have ⟨_, _, h⟩ := mem_flatMap.mp h
  have ⟨_, hx, he⟩ := mem_map.mp h
  subst he
  exact ⟨rfl, by simpa using (mem_filter.mp hx).right⟩

end

variable {K : Type} [OfScientific K] (index : InvertedIndex) (config : SearchConfig K)

-- The matches of one token in one document. No other token of the query has a say in them.
def tokenMatches (queryToken : Bytes) (i : ℕ) : List FuzzyTokenMatch :=
  if (index.posting queryToken).isSome || queryToken.length < config.fuzzyMinimumLength ||
      index.isProtectedFromFuzzy queryToken then
    []
  else
    ((index.fuzzyTokens config.fuzzyMatchLimitPerToken queryToken).filter fun fuzzyToken =>
      i ∈ (index.posting fuzzyToken.1).getD []).map fun fuzzyToken =>
        ⟨queryToken, fuzzyToken.1, fuzzyToken.2⟩

variable {index config} {queryToken : Bytes} {candidates : Candidates} {found : ℕ → FuzzyTokenMatch → Prop}
  {fuzzyMatch : FuzzyTokenMatch} {i : ℕ}

theorem of_mem_tokenMatches (h : fuzzyMatch ∈ index.tokenMatches config queryToken i) :
    fuzzyMatch.queryToken = queryToken ∧ i ∈ (index.posting fuzzyMatch.indexedToken).getD [] ∧
      index.isProtectedFromFuzzy fuzzyMatch.indexedToken = false := by
  unfold tokenMatches at h
  split at h
  case isTrue => simp at h
  case isFalse =>
    have ⟨fuzzyToken, hf, he⟩ := mem_map.mp h
    have ⟨hf, hi⟩ := mem_filter.mp hf
    subst he
    exact ⟨rfl, of_decide_eq_true hi, (of_mem_fuzzyTokens hf).right⟩

theorem queryToken_of_mem_tokenMatches (h : fuzzyMatch ∈ index.tokenMatches config queryToken i) :
    fuzzyMatch.queryToken = queryToken :=
  (of_mem_tokenMatches h).left

theorem tokenMatches_eq_nil (h : (index.posting queryToken).isSome) :
    index.tokenMatches config queryToken i = [] := by
  simp [tokenMatches, h]

theorem Finds.addFuzzyTokens {directTokens : List Bytes} (h : Finds candidates found)
    (hd : directTokens.contains queryToken = (index.posting queryToken).isSome) :
    Finds (index.addFuzzyTokens config directTokens candidates queryToken) fun i fuzzyMatch =>
      found i fuzzyMatch ∨ fuzzyMatch ∈ index.tokenMatches config queryToken i := by
  unfold InvertedIndex.addFuzzyTokens tokenMatches
  rw [hd]
  split
  case isTrue => simpa using h
  case isFalse =>
    have := h.foldl fun _ _ (h : Finds _ _) fuzzyToken
        (hm : fuzzyToken ∈ index.fuzzyTokens config.fuzzyMatchLimitPerToken queryToken) =>
      (h.addFuzzyToken (of_mem_fuzzyTokens hm).left : Finds (index.addFuzzyToken _ _ _) _)
    simpa [and_assoc, eq_comm] using this

theorem mem_candidates_fuzzyMatches {query : QueryContext} :
    fuzzyMatch ∈ ((index.candidates query config).fuzzyMatches.lookup i).getD [] ↔
      ∃ queryToken ∈ query.tokens, fuzzyMatch ∈ index.tokenMatches config queryToken i := by
  have hf (tokens : List Bytes) (candidates : Candidates) :
      (tokens.foldl (fun candidates token => candidates.addPostings <|
        (index.posting token).getD []) candidates).fuzzyMatches = candidates.fuzzyMatches := by
    induction tokens generalizing candidates
    case nil         => rfl
    case cons _ _ hi => exact hi _
  have hs : Finds ((query.tokens ++ query.concepts).foldl (fun candidates token =>
      candidates.addPostings <| (index.posting token).getD []) {}) fun _ _ => False := by
    constructor <;> simp [hf]
  have hd (queryToken : Bytes) (h : queryToken ∈ query.tokens) :
      ((query.tokens ++ query.concepts).filter (index.posting · |>.isSome)).contains queryToken =
        (index.posting queryToken).isSome := by
    simp [h]
  have := hs.foldl fun _ _ (h : Finds _ _) queryToken (hq : queryToken ∈ query.tokens) =>
    (h.addFuzzyTokens (hd queryToken hq) : Finds (index.addFuzzyTokens config _ _ _) _)
  exact (this.mem i fuzzyMatch).trans <| Iff.of_eq (false_or _)

-- The matches of a query are sorted by their tokens.
theorem mem_tokenMatches_iff {query : QueryContext} (h : queryToken ∈ query.tokens) :
    fuzzyMatch ∈ index.tokenMatches config queryToken i ↔
      fuzzyMatch ∈ ((index.candidates query config).fuzzyMatches.lookup i).getD [] ∧
        fuzzyMatch.queryToken = queryToken := by
  rw [mem_candidates_fuzzyMatches]
  constructor
  case mp  => exact fun hf => ⟨⟨queryToken, h, hf⟩, queryToken_of_mem_tokenMatches hf⟩
  case mpr =>
    intro ⟨⟨other, _, hf⟩, he⟩
    rw [queryToken_of_mem_tokenMatches hf] at he
    exact he ▸ hf

end InvertedIndex

section

variable {K : Type} [Field K] [LinearOrder K] {config : SearchConfig K} {document : EntryDocument}
  {fuzzyMatches : List FuzzyTokenMatch} {best : Finmap fun _ : Bytes => BestFuzzyMatch K} {token : Bytes}

def scoreOf (best : Finmap fun _ : Bytes => BestFuzzyMatch K) (token : Bytes) : K :=
  ((best.lookup token).getD ⟨0, []⟩).score

theorem scoreOf_addFuzzyMatch {fuzzyMatch : FuzzyTokenMatch} :
    scoreOf (addFuzzyMatch config document best fuzzyMatch) token =
      if fuzzyMatch.queryToken = token then
        max (scoreOf best token) (fuzzyScore config document fuzzyMatch)
      else
        scoreOf best token := by
  by_cases ht : fuzzyMatch.queryToken = token
  case neg => simp [scoreOf, addFuzzyMatch, ht, Finmap.lookup_insert_of_ne, Ne.symm ht]
  case pos =>
    subst ht
    simp only [scoreOf, addFuzzyMatch, Finmap.lookup_insert, Option.getD_some, if_true]
    split
    case isTrue h  =>
      cases h
      case inl h => exact (max_eq_right h.le).symm
      case inr h => rw [h.left, max_self]
    case isFalse h => exact (max_eq_left <| not_lt.mp fun hl => h <| .inl hl).symm

-- The best score of a token is the greatest one of its matches.
theorem scoreOf_foldl : scoreOf (fuzzyMatches.foldl (addFuzzyMatch config document) best) token =
    ((fuzzyMatches.filter (·.queryToken = token)).map (fuzzyScore config document)).foldl max
      (scoreOf best token) := by
  induction fuzzyMatches generalizing best
  case nil => rfl
  case cons fuzzyMatch fuzzyMatches hi =>
    rw [foldl_cons, hi, scoreOf_addFuzzyMatch, filter_cons]
    by_cases ht : fuzzyMatch.queryToken = token <;> simp [ht]

theorem mem_foldl_addFuzzyMatch : token ∈ fuzzyMatches.foldl (addFuzzyMatch config document) best ↔
    token ∈ best ∨ ∃ fuzzyMatch ∈ fuzzyMatches, fuzzyMatch.queryToken = token := by
  induction fuzzyMatches generalizing best
  case nil => simp
  case cons fuzzyMatch fuzzyMatches hi =>
    simp only [foldl_cons, hi, addFuzzyMatch, Finmap.mem_insert, mem_cons, exists_eq_or_imp, or_assoc,
      eq_comm (a := token), or_left_comm]

-- The fuzzy component is the sum of the best scores of the tokens.
theorem fuzzy_eq_sum {tokens : List Bytes} (hn : tokens.Nodup)
    (hm : ∀ fuzzyMatch ∈ fuzzyMatches, fuzzyMatch.queryToken ∈ tokens) :
    (bestFuzzyMatches config document fuzzyMatches).foldl (fun sum (_, best) => sum + best.score) 0 =
      (tokens.map fun token => ((fuzzyMatches.filter (·.queryToken = token)).map
        (fuzzyScore config document)).foldl max 0).sum := by
  let best := fuzzyMatches.foldl (addFuzzyMatch config document) ∅
  have hs (token : Bytes) : ((fuzzyMatches.filter (·.queryToken = token)).map
      (fuzzyScore config document)).foldl max 0 = scoreOf best token := by
    rw [scoreOf_foldl]
    simp [scoreOf]
  simp only [hs]
  have hk : ∀ token ∈ HashOrder.sorted.list best.keys, (best.lookup token).map (token, ·) =
      some (token, (best.lookup token).getD ⟨0, []⟩) := by
    intro token ht
    have ⟨_, hb⟩ := Finmap.mem_iff.mp <| Finmap.mem_keys.mp <| (HashOrder.mem _ _ _).mp ht
    simp [hb]
  have hb : best.keys ⊆ tokens.toFinset := by
    intro token ht
    have ht := mem_foldl_addFuzzyMatch.mp <| Finmap.mem_keys.mp ht
    have ⟨fuzzyMatch, hf, he⟩ := ht.resolve_left Finmap.notMem_empty
    exact mem_toFinset.mpr <| he ▸ hm fuzzyMatch hf
  have h0 : ∀ token ∈ tokens.toFinset, token ∉ best.keys → scoreOf best token = 0 := by
    intro token _ ht
    simp [scoreOf, Finmap.lookup_eq_none.mpr <| mt Finmap.mem_keys.mpr ht]
  calc
    _ = ((HashOrder.sorted.list best.keys).map (scoreOf best)).sum := by
      rw [bestFuzzyMatches, filterMap_congr hk, filterMap_eq_map', foldl_map, foldl_add_eq, zero_add]
      rfl
    _ = ∑ token ∈ best.keys, scoreOf best token := by
      rw [((HashOrder.perm_toList _ _).map _).sum_eq, Finset.sum_map_toList]
    _ = ∑ token ∈ tokens.toFinset, scoreOf best token := Finset.sum_subset hb h0
    _ = _ := sum_toFinset _ hn

end

variable {K : Type} [Field K] [LinearOrder K] (numerics : Numerics K) (config : SearchConfig K)
  (index : InvertedIndex) (document : EntryDocument) (i : ℕ) (token : Bytes)

-- What the fuzzy matches of a token are worth in a document.
def fuzzyPoints : K :=
  ((index.tokenMatches config token i).map (fuzzyScore config document)).foldl max 0

-- What a token is worth in a document, whatever else is in the query.
def wordPoints : K :=
  let idf := index.idf numerics.log token
  (if token ∈ document.keywordTokens then idfWeighted config.keywordScore idf else 0) +
    (if token ∈ document.titleTokens then idfWeighted config.titleScore idf else 0) +
    (if token ∈ document.allTokens then idfWeighted config.tokenScore idf else 0) +
    fuzzyPoints config index document i token

def conceptPoints : K :=
  if token ∈ document.conceptTokens then idfWeighted config.conceptScore (index.idf numerics.log token) else 0

variable {numerics config index document i token}

-- A token that is not indexed for a document earns what its fuzzy matches do.
theorem wordPoints_of_notMem (h : token ∉ document.allTokens) :
    wordPoints numerics config index document i token = fuzzyPoints config index document i token := by
  have ⟨ht, _, hk, _, _⟩ := document.subset_allTokens
  simp [wordPoints, h, mt (@ht token) h, mt (@hk token) h]

-- A token that is indexed anywhere has no fuzzy matches.
theorem fuzzyPoints_of_posting (h : (index.posting token).isSome) :
    fuzzyPoints config index document i token = 0 := by
  rw [fuzzyPoints, InvertedIndex.tokenMatches_eq_nil h]
  rfl

theorem weightedSum_eq {baseScore : K} {fieldTokens : Finset Bytes} {tokens : List Bytes} :
    weightedSum numerics index baseScore fieldTokens tokens = (tokens.map fun token =>
      if token ∈ fieldTokens then idfWeighted baseScore (index.idf numerics.log token) else 0).sum := by
  rw [weightedSum, foldl_add_eq, zero_add]
  induction tokens
  case nil => rfl
  case cons token tokens hi =>
    by_cases ht : token ∈ fieldTokens <;> simp [ht, hi]

variable (config index document i) in
theorem fuzzy_candidates {query : QueryContext} (hn : query.tokens.Nodup) :
    (bestFuzzyMatches config document (((index.candidates query config).fuzzyMatches.lookup i).getD [])).foldl
      (fun sum (_, best) => sum + best.score) 0 =
    (query.tokens.map (fuzzyPoints config index document i)).sum := by
  have hm (fuzzyMatch : FuzzyTokenMatch)
      (hm : fuzzyMatch ∈ ((index.candidates query config).fuzzyMatches.lookup i).getD []) :
      fuzzyMatch.queryToken ∈ query.tokens := by
    have ⟨token, ht, hf⟩ := InvertedIndex.mem_candidates_fuzzyMatches.mp hm
    exact InvertedIndex.queryToken_of_mem_tokenMatches hf ▸ ht
  rw [fuzzy_eq_sum hn hm]
  refine congrArg sum <| map_congr_left fun token ht => foldl_max_congr fun score => ?_
  simp only [mem_map, mem_filter, decide_eq_true_eq]
  exact exists_congr fun _ => and_congr_left fun _ => (InvertedIndex.mem_tokenMatches_iff ht).symm

-- The content of a document is what the whole query earns, and what its tokens and its concepts earn
-- one by one.
theorem contentScore_candidates {query : QueryContext} (hn : query.tokens.Nodup) :
    contentScore numerics config index document query
      (((index.candidates query config).fuzzyMatches.lookup i).getD []) =
    exactAliasComponent config document query + phraseComponent config document query +
      commandComponent config document query +
      (query.tokens.map (wordPoints numerics config index document i)).sum +
      (query.concepts.map (conceptPoints numerics config index document)).sum := by
  unfold wordPoints conceptPoints
  simp only [contentScore, contentBreakdown, ScoreBreakdown.contentRelevance, weightedSum_eq, sum_map_add,
    fuzzy_candidates config index document i hn]
  ring

theorem SearchEngine.score_sub_intent_eq {engine : SearchEngine K} {text : Bytes} {result : SearchResult K}
    (h : engine.score i (engine.queryProcessor.process text)
      (engine.candidates <| engine.queryProcessor.process text) = some result) :
    let query := engine.queryProcessor.process text
    let document := entryDocument engine.concepts result.entry
    result.score - result.breakdown.intent =
      exactAliasComponent engine.config document query + phraseComponent engine.config document query +
      commandComponent engine.config document query +
      (query.tokens.map (wordPoints engine.numerics engine.config engine.index document i)).sum +
      (query.concepts.map (conceptPoints engine.numerics engine.config engine.index document)).sum :=
  (score_sub_intent h).trans <| contentScore_candidates <| nodup_tokenize text true

section

variable [IsStrictOrderedRing K] {query : QueryContext}

variable (K document query) in
-- What a query earns as an alias, or for one that it contains.
def aliasPoints : K :=
  if query.normalizedQuery ∈ document.aliasesNormalized then
    100
  else if containsTaskPhrase document query then
    40
  else
    0

variable (K document query) in
-- What a query without an alias earns for its concepts together.
def coverPoints : K :=
  if query.normalizedQuery ∉ document.aliasesNormalized ∧ ¬containsTaskPhrase document query ∧
      coversConcepts document query then
    40
  else
    0

variable (K document query) in
theorem exactAlias_add_phrase :
    exactAliasComponent ({} : SearchConfig K) document query +
      phraseComponent ({} : SearchConfig K) document query =
      aliasPoints K document query + coverPoints K document query := by
  have hx : ({} : SearchConfig K).exactAliasScore = 100 := by norm_num
  have hp : ({} : SearchConfig K).phraseScore = 40 := by norm_num
  unfold phraseComponent exactAliasComponent aliasPoints coverPoints
  rw [hx, hp]
  split_ifs <;> simp_all

theorem SearchEngine.score_sub_intent_default {engine : SearchEngine K} {text : Bytes} {result : SearchResult K}
    (hd : engine.config = {}) (hq : query = engine.queryProcessor.process text)
    (h : engine.score i query (engine.candidates query) = some result)
    (he : document = entryDocument engine.concepts result.entry) :
    result.score - result.breakdown.intent =
      aliasPoints K document query + coverPoints K document query +
      commandComponent engine.config document query +
      (query.tokens.map (wordPoints engine.numerics engine.config engine.index document i)).sum +
      (query.concepts.map (conceptPoints engine.numerics engine.config engine.index document)).sum := by
  subst hq he
  rw [score_sub_intent_eq h, hd, exactAlias_add_phrase]

-- The part of a base score that an inverse document frequency leaves.
def idfWeight (idf : K) : K :=
  1 / 2 + 1 / 2 * min idf (5 / 2)

theorem idfWeighted_eq (baseScore idf : K) : idfWeighted baseScore idf = baseScore * idfWeight idf := by
  norm_num [idfWeighted, idfWeight]

theorem one_le_idfWeight {idf : K} (h : 1 ≤ idf) : 1 ≤ idfWeight idf := by
  have : 1 ≤ min idf (5 / 2) := le_min h (by norm_num)
  unfold idfWeight
  linarith

variable (K document token) in
-- The base scores of the fields that have a token.
def fieldScore : K :=
  (if token ∈ document.keywordTokens then 20 else 0) + (if token ∈ document.titleTokens then 10 else 0) +
    if token ∈ document.allTokens then 6 else 0

theorem fieldScore_nonneg : 0 ≤ fieldScore K document token := by
  unfold fieldScore
  split_ifs <;> norm_num

theorem wordPoints_of_posting (h : (index.posting token).isSome) :
    wordPoints numerics {} index document i token =
      fieldScore K document token * idfWeight (index.idf numerics.log token) := by
  simp only [wordPoints, fuzzyPoints_of_posting h, idfWeighted_eq, fieldScore]
  split_ifs <;> norm_num <;> ring

-- No token is in more documents than there are.
theorem InvertedIndex.one_le_idf {order : HashOrder Bytes} {knowledge : KnowledgeBase}
    {concepts : ConceptDictionary} {log : K → K} (hl : ∀ x, 1 ≤ x → 0 ≤ log x) :
    1 ≤ (build order knowledge concepts).idf log token := by
  unfold idf
  split
  case h_1 => norm_num
  case h_2 indices h =>
    have hn : (indices.length : K) ≤ (build order knowledge concepts).documents.length := by
      exact_mod_cast length_posting_le h
    refine le_add_of_nonneg_of_le (hl _ ?_) (by norm_num)
    rw [one_le_div (by positivity)]
    exact add_le_add_left hn _

end

-- A howto below the category `files`.
def howto (id title : Bytes) (aliases keywords : List Bytes) : KnowledgeEntry where
  id              := id
  title           := title
  type            := ascii "howto"
  command         := []
  aliases         := aliases
  keywords        := keywords
  related         := []
  intents         := []
  difficulty      := []
  platforms       := []
  tags            := []
  examples        := []
  category        := ascii "files"
  sourceDirectory := ascii "knowledge/files/" ++ id
  content         := ascii "# " ++ title

-- What is loaded from a concepts file with some groups.
def loadConcepts (groups : List (Bytes × List Bytes)) : ConceptDictionary :=
  let items : List (Yaml × Yaml) := groups.map fun (canonical, aliases) =>
    (.scalar canonical, .sequence <| aliases.map .scalar)
  .load .sorted (ascii "concepts.yaml")
    (.document <| .node <| .map [(.scalar <| ascii "concepts", .map items)]) default

end Howlinux
