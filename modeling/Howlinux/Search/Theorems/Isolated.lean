import Howlinux.Search.Theorems.Points

open Bytes List

namespace Howlinux

section

variable {K : Type} [Field K] [LinearOrder K] [IsStrictOrderedRing K] {numerics : Numerics K}
  {index : InvertedIndex} {document : EntryDocument} {token word : Bytes} {i : ℕ}

theorem idfWeight_le {idf : K} : idfWeight idf ≤ 7 / 4 := by
  have : min idf (5 / 2) ≤ 5 / 2 := min_le_right ..
  unfold idfWeight
  linarith

theorem fieldScore_le : fieldScore K document token ≤ 36 := by
  unfold fieldScore
  split_ifs <;> norm_num

theorem sum_conceptPoints {concepts : List Bytes} :
    (concepts.map (conceptPoints numerics {} index document)).sum =
      ((concepts.filter (· ∈ document.conceptTokens)).map fun canonical =>
        15 * idfWeight (index.idf numerics.log canonical)).sum := by
  have hc : ({} : SearchConfig K).conceptScore = 15 := by norm_num
  induction concepts
  case nil => rfl
  case cons canonical concepts hi =>
    rw [map_cons, sum_cons, hi, conceptPoints, hc, idfWeighted_eq]
    by_cases hm : canonical ∈ document.conceptTokens <;> simp [hm]

variable (numerics index document word) in
-- What a word and the concepts of the query are worth in a document.
def isolatedPoints (concepts : List Bytes) : K :=
  fieldScore K document word * idfWeight (index.idf numerics.log word) +
    ((concepts.filter (· ∈ document.conceptTokens)).map fun canonical =>
      15 * idfWeight (index.idf numerics.log canonical)).sum

-- The weights are bounded for a word with one concept.
theorem isolatedPoints_lt {concepts : List Bytes}
    (h : (concepts.filter (· ∈ document.conceptTokens)).length ≤ 1) :
    isolatedPoints numerics index document word concepts < 90 := by
  have hw : fieldScore K document word * idfWeight (index.idf numerics.log word) ≤ 36 * (7 / 4) :=
    (mul_le_mul_of_nonneg_left idfWeight_le fieldScore_nonneg).trans <|
      mul_le_mul_of_nonneg_right fieldScore_le (by norm_num)
  unfold isolatedPoints
  cases hf : concepts.filter (· ∈ document.conceptTokens)
  case nil =>
    rw [map_nil, sum_nil]
    linarith
  case cons canonical rest =>
    have hr : rest = [] := by simpa [hf] using h
    have hc : idfWeight (index.idf numerics.log canonical) ≤ 7 / 4 := idfWeight_le
    rw [hr, map_singleton, sum_singleton]
    linarith

-- What the type of a query adds to a content that is meaningful can make it confident.
theorem add_intent_lt_iff {points : K} {p : Prop} [Decidable p] :
    (points + if 8 ≤ points ∧ p then 20 else 0) < 90 ↔ points < 70 ∨ (points < 90 ∧ ¬p) := by
  split
  case isTrue h =>
    rw [or_iff_left fun hn => hn.right h.right]
    constructor <;> intro h <;> linarith
  case isFalse h =>
    rw [add_zero]
    by_cases hp : p
    case pos =>
      have h8 : points < 8 := not_le.mp fun h8 => h ⟨h8, hp⟩
      exact iff_of_true (by linarith) (.inl <| by linarith)
    case neg =>
      rw [and_iff_left hp]
      exact (or_iff_right_of_imp fun h => by linarith).symm

end

-- The only token of the query that is indexed or close to an indexed one.
structure IsIsolated {K : Type} [OfScientific K] (engine : SearchEngine K) (query : QueryContext)
    (word : Bytes) : Prop where
  mem     : word ∈ query.tokens
  posting : (engine.index.posting word).isSome
  others  : ∀ token ∈ query.tokens, token ≠ word → engine.index.posting token = none ∧
    ∀ i, ∀ fuzzyMatch ∈ ((engine.candidates query).fuzzyMatches.lookup i).getD [], fuzzyMatch.queryToken ≠ token

theorem isIsolated_of_eq_singleton {K : Type} [OfScientific K] {engine : SearchEngine K} {query : QueryContext}
    {word : Bytes} (ht : query.tokens = [word]) (hp : (engine.index.posting word).isSome) :
    IsIsolated engine query word where
  mem     := by simp [ht]
  posting := hp
  others  := by simp +contextual [ht]

section

variable {K : Type} [Field K] [LinearOrder K] [IsStrictOrderedRing K]

-- The other tokens of the query are worth nothing.
theorem sum_wordPoints_of_isolated {engine : SearchEngine K} {query : QueryContext} {word : Bytes} {i : ℕ}
    {entry : KnowledgeEntry} (hd : engine.config = {}) (hn : query.tokens.Nodup)
    (hw : IsIsolated engine query word) (he : engine.knowledge.entries[i]? = some entry) :
    (query.tokens.map (wordPoints engine.numerics engine.config engine.index
      (entryDocument engine.concepts entry) i)).sum =
      fieldScore K (entryDocument engine.concepts entry) word *
        idfWeight (engine.index.idf engine.numerics.log word) := by
  have h0 (token : Bytes) (ht : token ∈ query.tokens) (hne : token ≠ word) : wordPoints engine.numerics
      engine.config engine.index (entryDocument engine.concepts entry) i token = 0 := by
    have ⟨hp, hm⟩ := hw.others token ht hne
    have hf : engine.index.tokenMatches engine.config token i = [] :=
      eq_nil_iff_forall_not_mem.mpr fun fuzzyMatch hf =>
        have ⟨hf, he⟩ := (InvertedIndex.mem_tokenMatches_iff ht).mp hf
        hm i fuzzyMatch hf he
    rw [wordPoints_of_notMem (InvertedIndex.notMem_allTokens_of_posting_eq_none hp he), fuzzyPoints, hf]
    rfl
  rw [← sum_toFinset _ hn, Finset.sum_eq_single word, hd, wordPoints_of_posting hw.posting]
  case h₀ => exact fun token ht => h0 token (mem_toFinset.mp ht)
  case h₁ => exact fun hn => absurd (mem_toFinset.mpr hw.mem) hn

theorem score_of_isolated {engine : SearchEngine K} {text word : Bytes} {query : QueryContext}
    {document : EntryDocument} {i : ℕ} {result : SearchResult K} {points : K} (hd : engine.config = {})
    (hq : query = engine.queryProcessor.process text) (hw : IsIsolated engine query word)
    (h : engine.score i query (engine.candidates query) = some result)
    (he : document = entryDocument engine.concepts result.entry) (hx : result.breakdown.exactAlias = 0)
    (hp : result.breakdown.phrase = 0) (hc : result.breakdown.command = 0)
    (hs : isolatedPoints engine.numerics engine.index document word query.concepts = points) :
    result.score = points + if 8 ≤ points ∧ queryTypeName query.type ∈ document.intents then 20 else 0 := by
  have hentry := SearchEngine.entry_of_score h
  have ⟨hx', hp', hc'⟩ := SearchEngine.breakdown_of_score h
  rw [hx, ← he] at hx'
  rw [hp, ← he] at hp'
  rw [hc, ← he] at hc'
  have hn : query.tokens.Nodup := hq ▸ nodup_tokenize text true
  have hcontent : result.score - result.breakdown.intent = points := by
    refine ((SearchEngine.score_sub_intent h).trans <| contentScore_candidates hn).trans ?_
    rw [← he, ← hx', ← hp', ← hc', he, sum_wordPoints_of_isolated hd hn hw hentry, hd, sum_conceptPoints, add_zero,
      add_zero, zero_add, ← hs, he]
    rfl
  have hs := SearchEngine.score_eq_content hd h
  rwa [hcontent, ← he] at hs

-- An isolated word stays below a confident score while the query type adds nothing and the entry has at most
-- one concept of the query.
theorem isolated_word_not_confident_iff (knowledge : KnowledgeBase) (concepts : ConceptDictionary)
    (numerics : Numerics K) (order : HashOrder Bytes) (text word : Bytes) (i : ℕ) (result : SearchResult K) :
    let engine : SearchEngine K := { knowledge, concepts, numerics, order }
    let query    := engine.queryProcessor.process text
    let document := entryDocument concepts result.entry
    let points   := isolatedPoints numerics engine.index document word query.concepts
    IsIsolated engine query word → engine.score i query (engine.candidates query) = some result →
    result.breakdown.exactAlias = 0 → result.breakdown.phrase = 0 → result.breakdown.command = 0 →
    (result.score < 90 ↔ points < 70 ∨ (points < 90 ∧ queryTypeName query.type ∉ document.intents)) ∧
    ((query.concepts.filter (· ∈ document.conceptTokens)).length ≤ 1 →
      queryTypeName query.type ∉ document.intents → result.score < 90) := by
  intro engine query document points hw h hx hp hc
  have hs : result.score = points + _ := score_of_isolated rfl rfl hw h rfl hx hp hc rfl
  have hi : result.score < 90 ↔ _ := hs ▸ add_intent_lt_iff
  exact ⟨hi, fun hl hn => hi.mpr <| .inr ⟨isolatedPoints_lt hl, hn⟩⟩

end

-- One entry about copying among seven.
namespace Catalog

noncomputable def natural : Numerics ℝ where
  log        := Real.log
  isFinite _ := true
  fixed _    := []
  general _  := []

def copying : KnowledgeEntry :=
  howto (ascii "a") (ascii "Copy") [ascii "duplicate document"] [ascii "copy"]

def others : List KnowledgeEntry :=
  ["b", "c", "d", "e", "f", "g"].map fun id => howto (ascii id) (ascii "Other") [ascii "other way"] []

def base : KnowledgeBase :=
  .ofEntries (copying :: others) (by decide +kernel)

def concepts : ConceptDictionary :=
  loadConcepts [(ascii "copy", [ascii "duplicate"])]

def index : InvertedIndex :=
  .build .sorted base concepts

def query : QueryContext :=
  (QueryProcessor.create concepts index.knownCommands).process <| ascii "copy"

noncomputable def engine : SearchEngine ℝ where
  knowledge := base
  concepts  := concepts
  numerics  := natural
  order     := .sorted

theorem query_eq : query = engine.queryProcessor.process (ascii "copy") :=
  rfl

theorem isIsolated : IsIsolated engine query (ascii "copy") := by
  apply isIsolated_of_eq_singleton
  case ht => decide +kernel
  case hp => exact show (index.posting (ascii "copy")).isSome by decide +kernel

-- The word earns points as a keyword, in the title, as a token and as a concept.
theorem points_eq : isolatedPoints natural index (entryDocument concepts copying) (ascii "copy") query.concepts =
    51 * idfWeight (Real.log 4 + 1) := by
  have hf : fieldScore ℝ (entryDocument concepts copying) (ascii "copy") = 36 := by
    have hk : ascii "copy" ∈ (entryDocument concepts copying).keywordTokens := by decide +kernel
    have ht : ascii "copy" ∈ (entryDocument concepts copying).titleTokens := by decide +kernel
    rw [fieldScore, if_pos hk, if_pos ht, if_pos ((EntryDocument.subset_allTokens _).left ht)]
    norm_num
  have hi : index.idf natural.log (ascii "copy") = Real.log 4 + 1 := by
    have hp : index.posting (ascii "copy") = some [0] := by decide +kernel
    have hl : index.documents.length = 7 := by decide +kernel
    norm_num [InvertedIndex.idf, hp, hl, natural]
  have hc : query.concepts.filter (· ∈ (entryDocument concepts copying).conceptTokens) = [ascii "copy"] := by
    decide +kernel
  rw [isolatedPoints, hc, hf, map_singleton, sum_singleton, hi]
  ring

theorem seventy_le_points : 70 ≤ 51 * idfWeight (Real.log 4 + 1) := by
  have hl : Real.log 4 = 2 * Real.log 2 := by
    rw [← Real.log_rpow (by norm_num)]
    norm_num
  have h2 := Real.log_two_gt_d9
  have : 2 ≤ min (Real.log 4 + 1) (5 / 2) := le_min (by linarith) (by norm_num)
  unfold idfWeight
  linarith

theorem exactAlias_eq : exactAliasComponent engine.config (entryDocument engine.concepts copying) query = 0 :=
  if_neg <| by decide +kernel

theorem phrase_eq : phraseComponent engine.config (entryDocument engine.concepts copying) query = 0 := by
  have ht : containsTaskPhrase (entryDocument engine.concepts copying) query = false := by decide +kernel
  have hv : coversConcepts (entryDocument engine.concepts copying) query = false := by decide +kernel
  simp [phraseComponent, ht, hv]

theorem command_eq : commandComponent engine.config (entryDocument engine.concepts copying) query = 0 :=
  if_neg <| by decide +kernel

-- Together with its intent this is more than 106 points.
theorem isolated_word_confident :
    query = engine.queryProcessor.process (ascii "copy") ∧ IsIsolated engine query (ascii "copy") ∧
    ∃ result, engine.score 0 query (engine.candidates query) = some result ∧
      result.breakdown.exactAlias = 0 ∧ result.breakdown.phrase = 0 ∧ result.breakdown.command = 0 ∧
      ¬result.score < 90 := by
  have hl : 0 < engine.knowledge.entries.length := by decide +kernel
  have ⟨result, h⟩ : ∃ result, engine.score 0 query (engine.candidates query) = some result :=
    ⟨_, engine.score_eq_some hl _ _⟩
  have he : result.entry = copying := Option.some.inj (SearchEngine.entry_of_score h).symm
  have ⟨hx, hp, hc⟩ := SearchEngine.breakdown_of_score h
  rw [he] at hx hp hc
  rw [exactAlias_eq] at hx
  rw [phrase_eq] at hp
  rw [command_eq] at hc
  refine ⟨query_eq, isIsolated, result, h, hx, hp, hc, ?_⟩
  have hd : entryDocument concepts copying = entryDocument engine.concepts result.entry := by rw [he]; rfl
  have hs := score_of_isolated rfl query_eq isIsolated h hd hx hp hc points_eq
  have h70 := seventy_le_points
  have hi : queryTypeName query.type ∈ (entryDocument concepts copying).intents := by decide +kernel
  rw [hs, if_pos ⟨by linarith, hi⟩]
  linarith

-- In a catalog of one entry the word is not rare.
theorem isolated_word_not_confident_single :
    let engine : SearchEngine ℚ :=
      { knowledge := .ofEntries [copying] <| pairwise_singleton _ _
        concepts
        numerics  := .rational
        order     := .sorted }
    let query := engine.queryProcessor.process <| ascii "copy"
    ∃ result ∈ engine.score 0 query (engine.candidates query), result.score < 90 := by
  intro engine query
  have hw : IsIsolated engine query (ascii "copy") :=
    isIsolated_of_eq_singleton (by decide +kernel) (by decide +kernel)
  have ⟨result, h, hx, hp, hc, hs⟩ : ∃ result ∈ engine.score 0 query (engine.candidates query),
      result.breakdown.exactAlias = 0 ∧ result.breakdown.phrase = 0 ∧ result.breakdown.command = 0 ∧
      isolatedPoints .rational engine.index (entryDocument concepts result.entry) (ascii "copy")
        query.concepts < 70 := by
    decide +kernel
  have ⟨hi, _⟩ := isolated_word_not_confident_iff _ concepts .rational .sorted _ _ 0 result hw h hx hp hc
  exact ⟨result, h, hi.mpr <| .inl hs⟩

end Catalog

end Howlinux
