import Howlinux.Search.Theorems.Points
import Howlinux.Search.Theorems.Phrases

open Bytes List

namespace Howlinux

namespace InvertedIndex

variable {order : HashOrder Bytes} {knowledge : KnowledgeBase} {concepts : ConceptDictionary}
  {entry : KnowledgeEntry} {token : Bytes} {i : ℕ}

-- A token that is matched is no command, and the document of the match has it.
theorem mem_allTokens_of_tokenMatches {K : Type} [OfScientific K] {config : SearchConfig K}
    {fuzzyMatch : FuzzyTokenMatch} (h : knowledge.entries[i]? = some entry)
    (hf : fuzzyMatch ∈ (build order knowledge concepts).tokenMatches config token i) :
    fuzzyMatch.indexedToken ∈ (entryDocument concepts entry).allTokens ∧
      fuzzyMatch.indexedToken ∉ (entryDocument concepts entry).commandTokens ∧
      ((build order knowledge concepts).posting fuzzyMatch.indexedToken).isSome := by
  have ⟨_, hm, hn⟩ := of_mem_tokenMatches hf
  have ⟨document, hd, ht⟩ := mem_posting.mp hm
  have hd := Option.some.inj <| hd.symm.trans <| documents_getElem? h
  refine ⟨hd ▸ ht, fun hc => ?_, ?_⟩
  case refine_1 =>
    have hk : fuzzyMatch.indexedToken ∈ (build order knowledge concepts).knownCommands :=
      mem_knownCommands.mpr ⟨entry, mem_of_getElem? h, mem_toFinset.mp hc⟩
    simp [isProtectedFromFuzzy, hk] at hn
  case refine_2 => exact posting_isSome_iff.mpr ⟨i, hm⟩

end InvertedIndex

section

variable {K : Type} [Field K] [LinearOrder K] [IsStrictOrderedRing K] {document : EntryDocument} {token : Bytes}

theorem fieldWeight_le_one : fieldWeight (K := K) document token ≤ 1 := by
  unfold fieldWeight
  split_ifs <;> norm_num

theorem fieldWeight_le (ha : token ∉ document.aliasTokens) (hk : token ∉ document.keywordTokens) :
    fieldWeight (K := K) document token ≤ 7 / 10 := by
  unfold fieldWeight
  rw [if_neg ha, if_neg hk]
  split_ifs <;> norm_num

theorem le_idfWeight_iff {points bound idf : K} (hp : points = 3 + 3 * bound) (h : bound ≤ 5 / 2) :
    points ≤ 6 * idfWeight idf ↔ bound ≤ idf := by
  have hm : bound ≤ min idf (5 / 2) ↔ bound ≤ idf := by rw [le_min_iff, and_iff_left h]
  rw [← hm, hp, idfWeight]
  constructor <;> intro h <;> linarith

theorem fuzzyScore_of_close {fuzzyMatch : FuzzyTokenMatch} (h : fuzzyMatch.distance ≤ 1) :
    fuzzyScore ({} : SearchConfig K) document fuzzyMatch =
      8 * fieldWeight document fuzzyMatch.indexedToken := by
  norm_num [fuzzyScore, h]

theorem fuzzyScore_of_far {fuzzyMatch : FuzzyTokenMatch} (h : ¬fuzzyMatch.distance ≤ 1) :
    fuzzyScore ({} : SearchConfig K) document fuzzyMatch ≤ 6 := by
  have hw : fieldWeight (K := K) document fuzzyMatch.indexedToken ≤ 1 := fieldWeight_le_one
  rw [fuzzyScore, if_neg h]
  norm_num
  linarith

-- Only a close match with a token of an alias or of a keyword can be worth more than its token.
theorem fuzzyScore_le_iff {fuzzyMatch : FuzzyTokenMatch} {idf : K} (h : 1 ≤ idf) :
    fuzzyScore ({} : SearchConfig K) document fuzzyMatch ≤ 6 * idfWeight idf ↔ (fuzzyMatch.distance ≤ 1 →
      (fuzzyMatch.indexedToken ∈ document.aliasTokens → 5 / 3 ≤ idf) ∧
      (fuzzyMatch.indexedToken ∈ document.keywordTokens → 17 / 15 ≤ idf)) := by
  have h6 : 6 ≤ 6 * idfWeight idf := (le_idfWeight_iff (by norm_num) (by norm_num)).mpr h
  by_cases hd : fuzzyMatch.distance ≤ 1
  case neg => exact iff_of_true ((fuzzyScore_of_far hd).trans h6) fun h => absurd h hd
  case pos =>
    have h8 : 8 ≤ 6 * idfWeight idf ↔ 5 / 3 ≤ idf := le_idfWeight_iff (by norm_num) (by norm_num)
    have h64 : 8 * (4 / 5) ≤ 6 * idfWeight idf ↔ 17 / 15 ≤ idf :=
      le_idfWeight_iff (by norm_num) (by norm_num)
    rw [fuzzyScore_of_close hd, imp_iff_right hd]
    by_cases ha : fuzzyMatch.indexedToken ∈ document.aliasTokens
    case pos =>
      have hw : fieldWeight document fuzzyMatch.indexedToken = (1 : K) := by norm_num [fieldWeight, ha]
      have hk : 5 / 3 ≤ idf → 17 / 15 ≤ idf := le_trans (by norm_num)
      rw [hw, mul_one, h8, imp_iff_right ha]
      exact ⟨fun h => ⟨h, fun _ => hk h⟩, And.left⟩
    case neg =>
      simp only [ha, false_imp_iff, true_and]
      by_cases hk : fuzzyMatch.indexedToken ∈ document.keywordTokens
      case pos =>
        have hw : fieldWeight document fuzzyMatch.indexedToken = (4 / 5 : K) := by norm_num [fieldWeight, ha, hk]
        rw [hw, h64, imp_iff_right hk]
      case neg =>
        have hw : fieldWeight (K := K) document fuzzyMatch.indexedToken ≤ 7 / 10 := fieldWeight_le ha hk
        exact iff_of_true (by linarith) fun h => absurd h hk

variable {numerics : Numerics K} {index : InvertedIndex} {u v : Bytes} {i : ℕ}

theorem fuzzyScore_le {fuzzyMatch : FuzzyTokenMatch} :
    fuzzyScore ({} : SearchConfig K) document fuzzyMatch ≤ 8 := by
  by_cases hd : fuzzyMatch.distance ≤ 1
  case neg => exact (fuzzyScore_of_far hd).trans (by norm_num)
  case pos =>
    have hw : fieldWeight (K := K) document fuzzyMatch.indexedToken ≤ 1 := fieldWeight_le_one
    rw [fuzzyScore_of_close hd]
    linarith

omit [IsStrictOrderedRing K] in
theorem fuzzyPoints_le_iff {config : SearchConfig K} {points : K} (h : 0 ≤ points) :
    fuzzyPoints config index document i u ≤ points ↔
      ∀ fuzzyMatch ∈ index.tokenMatches config u i, fuzzyScore config document fuzzyMatch ≤ points := by
  simp [fuzzyPoints, foldl_max_le_iff, h]

theorem wordPoints_le_eight (hu : u ∉ document.allTokens) :
    wordPoints numerics ({} : SearchConfig K) index document i u ≤ 8 := by
  rw [wordPoints_of_notMem hu]
  exact (fuzzyPoints_le_iff (by norm_num)).mpr fun _ _ => fuzzyScore_le

theorem six_le_wordPoints (hv : v ∈ document.allTokens) (hp : (index.posting v).isSome)
    (h : 1 ≤ index.idf numerics.log v) : 6 ≤ wordPoints numerics {} index document i v := by
  have hf : 6 ≤ fieldScore K document v := by
    unfold fieldScore
    split_ifs <;> norm_num
  rw [wordPoints_of_posting hp]
  exact hf.trans <| le_mul_of_one_le_right (by linarith) (one_le_idfWeight h)

-- What the fuzzy matches of a token earn in comparison with an indexed token.
theorem wordPoints_le_iff (hu : u ∉ document.allTokens) (hv : v ∈ document.allTokens)
    (hp : (index.posting v).isSome) (h1 : 1 ≤ index.idf numerics.log v) :
    wordPoints numerics {} index document i u ≤ wordPoints numerics {} index document i v ↔
      v ∈ document.keywordTokens ∨ v ∈ document.titleTokens ∨
      ∀ fuzzyMatch ∈ index.tokenMatches ({} : SearchConfig K) u i, fuzzyMatch.distance ≤ 1 →
        (fuzzyMatch.indexedToken ∈ document.aliasTokens → 5 / 3 ≤ index.idf numerics.log v) ∧
        (fuzzyMatch.indexedToken ∈ document.keywordTokens → 17 / 15 ≤ index.idf numerics.log v) := by
  have hw := one_le_idfWeight h1
  have h8 : wordPoints numerics ({} : SearchConfig K) index document i u ≤ 8 := wordPoints_le_eight hu
  rw [wordPoints_of_posting hp, fieldScore, if_pos hv]
  by_cases hf : v ∈ document.keywordTokens ∨ v ∈ document.titleTokens
  case pos =>
    refine iff_of_true (h8.trans ?_) (or_assoc.mp <| .inl hf)
    have hs : 8 ≤ (if v ∈ document.keywordTokens then 20 else 0) +
        (if v ∈ document.titleTokens then 10 else 0) + (6 : K) := by
      rcases hf with hf | hf <;> rw [if_pos hf] <;> split_ifs <;> norm_num
    exact hs.trans <| le_mul_of_one_le_right (by linarith) hw
  case neg =>
    rw [← or_assoc, or_iff_right hf]
    obtain ⟨hk, ht⟩ := not_or.mp hf
    rw [if_neg hk, if_neg ht, add_zero, zero_add, wordPoints_of_notMem hu, fuzzyPoints_le_iff (by linarith)]
    exact forall₂_congr fun _ _ => fuzzyScore_le_iff h1

end

-- A query in which a token takes the place of another one.
structure Corrects (query query' : QueryContext) (u v : Bytes) : Prop where
  mem    : u ∈ query.tokens
  new    : v ∉ query.tokens
  tokens : query'.tokens = query.tokens.map fun token => if token = u then v else token

-- The second query is an alias, or contains one, and the first one does not.
def GainsAlias (document : EntryDocument) (query query' : QueryContext) : Prop :=
  query'.normalizedQuery ∈ document.aliasesNormalized ∨
    (containsTaskPhrase document query' ∧ ¬containsTaskPhrase document query)

namespace Corrects

variable {query query' : QueryContext} {u v : Bytes} {concepts : ConceptDictionary} {entry : KnowledgeEntry}

-- The aliases do not have the token that is replaced.
theorem containsTaskPhrase (h : Corrects query query' u v) (hn : IsNormal query) (hn' : IsNormal query')
    (hu : u ∉ (entryDocument concepts entry).allTokens)
    (hp : containsTaskPhrase (entryDocument concepts entry) query) :
    Howlinux.containsTaskPhrase (entryDocument concepts entry) query' := by
  have ⟨source, hs, hl, hi⟩ := (containsTaskPhrase_iff hn).mp hp
  have he : ((tokenize source).map fun token => if token = u then v else token) = (tokenize source).map id :=
    map_congr_left fun token ht => if_neg <| ne_of_mem_of_not_mem (aliasTokens_subset hs ht) hu
  have hi := hi.map fun token => if token = u then v else token
  rw [he, map_id, ← h.tokens] at hi
  exact (containsTaskPhrase_iff hn').mpr ⟨source, hs, hl, hi⟩

variable {K : Type} [Field K]

theorem commandComponent {config : SearchConfig K} {document : EntryDocument} (h : Corrects query query' u v)
    (hu : u ∉ document.commandTokens) (hv : v ∉ document.commandTokens) :
    commandComponent config document query' = commandComponent config document query := by
  unfold Howlinux.commandComponent
  rw [h.tokens, head?_map]
  cases query.tokens.head?
  case none => rfl
  case some token =>
    by_cases ht : token = u <;> simp [ht, hu, hv]

end Corrects

section

variable {K : Type} [Field K] [LinearOrder K] [IsStrictOrderedRing K] {document : EntryDocument}
  {query query' : QueryContext}

theorem SearchEngine.score_sub_intent_of_empty {engine : SearchEngine K} {text : Bytes} {i : ℕ}
    {result : SearchResult K} (hd : engine.config = {}) (hc : engine.concepts.phraseToCanonical = ∅)
    (hq : query = engine.queryProcessor.process text)
    (h : engine.score i query (engine.candidates query) = some result)
    (he : document = entryDocument engine.concepts result.entry) :
    result.score - result.breakdown.intent =
      aliasPoints K document query + commandComponent engine.config document query +
      (query.tokens.map (wordPoints engine.numerics engine.config engine.index document i)).sum := by
  have hn : query.concepts = [] := hq ▸ concepts_eq_nil hc text
  rw [score_sub_intent_default hd hq h he, hn]
  simp [coverPoints, coversConcepts_of_nil hn]

-- More than any fuzzy match is worth.
theorem aliasPoints_add_le (hq : query.normalizedQuery ∉ document.aliasesNormalized)
    (h : GainsAlias document query query') :
    aliasPoints K document query + 40 ≤ aliasPoints K document query' := by
  unfold aliasPoints
  rw [if_neg hq]
  by_cases hq' : query'.normalizedQuery ∈ document.aliasesNormalized
  case pos =>
    rw [if_pos hq']
    split_ifs <;> norm_num
  case neg =>
    have ⟨hp', hp⟩ := h.resolve_left hq'
    simp [hq', hp, hp']

omit [LinearOrder K] [IsStrictOrderedRing K] in
theorem aliasPoints_eq (hq : query.normalizedQuery ∉ document.aliasesNormalized)
    (hp : containsTaskPhrase document query → containsTaskPhrase document query')
    (h : ¬GainsAlias document query query') : aliasPoints K document query' = aliasPoints K document query := by
  have ⟨hq', h⟩ := not_or.mp h
  have hp' : containsTaskPhrase document query' = containsTaskPhrase document query :=
    Bool.eq_iff_iff.mpr ⟨fun hp' => by_contra fun hp => h ⟨hp', hp⟩, hp⟩
  simp only [aliasPoints, hq, hq', hp']

theorem add_le_add_iff_of_gain {p : Prop} {points points' word word' : K} (hg : p → points + 40 ≤ points')
    (hn : ¬p → points' = points) (h : word ≤ word' + 40) :
    points + word ≤ points' + word' ↔ p ∨ word ≤ word' := by
  by_cases hp : p
  case pos => exact iff_of_true (by linarith [hg hp]) (.inl hp)
  case neg => rw [hn hp, add_le_add_iff_left, or_iff_right hp]

-- A correction loses against a typo only if the typo comes close to a token of an alias or of a keyword,
-- the corrected token is common, and nothing else of the entry has it.
theorem typo_le_correction_iff (knowledge : KnowledgeBase) (concepts : ConceptDictionary)
    (numerics : Numerics K) (order : HashOrder Bytes) (hc : concepts.phraseToCanonical = ∅)
    (hl : ∀ x, 1 ≤ x → 0 ≤ numerics.log x) (text text' u v : Bytes) (i : ℕ) (result result' : SearchResult K) :
    let engine : SearchEngine K := { knowledge, concepts, numerics, order }
    let query      := engine.queryProcessor.process text
    let query'     := engine.queryProcessor.process text'
    let found      := ((engine.candidates query).fuzzyMatches.lookup i).getD []
    let document   := entryDocument concepts result.entry
    let idf        := engine.index.idf numerics.log v
    Corrects query query' u v → engine.index.posting u = none →
    (∃ fuzzyMatch ∈ found, fuzzyMatch.queryToken = u ∧ fuzzyMatch.indexedToken = v) →
    engine.score i query (engine.candidates query) = some result →
    engine.score i query' (engine.candidates query') = some result' →
    (result.score - result.breakdown.intent ≤ result'.score - result'.breakdown.intent ↔
      v ∈ document.keywordTokens ∨ v ∈ document.titleTokens ∨ GainsAlias document query query' ∨
      ∀ fuzzyMatch ∈ found, fuzzyMatch.queryToken = u → fuzzyMatch.distance ≤ 1 →
        (fuzzyMatch.indexedToken ∈ document.aliasTokens → 5 / 3 ≤ idf) ∧
        (fuzzyMatch.indexedToken ∈ document.keywordTokens → 17 / 15 ≤ idf)) := by
  intro engine query query' found document idf hr hp ⟨fuzzyMatch, hm, hmu, hmv⟩ hs hs'
  have he := SearchEngine.entry_of_score hs
  have he' : result'.entry = result.entry := Option.some.inj <| (SearchEngine.entry_of_score hs').symm.trans he
  have hf (other : FuzzyTokenMatch) : other ∈ engine.index.tokenMatches engine.config u i ↔
      other ∈ found ∧ other.queryToken = u := InvertedIndex.mem_tokenMatches_iff hr.mem
  have hu : u ∉ document.allTokens := InvertedIndex.notMem_allTokens_of_posting_eq_none hp he
  have ⟨hv, hcv, hpv⟩ := InvertedIndex.mem_allTokens_of_tokenMatches he <| (hf fuzzyMatch).mpr ⟨hm, hmu⟩
  rw [hmv] at hv hcv hpv
  have hcu : u ∉ document.commandTokens := fun h => hu <| document.subset_allTokens.right.right.right.left h
  have hn : IsNormal query := isNormal_process ..
  have hn' : IsNormal query' := isNormal_process ..
  have hq : query.concepts = [] := SearchEngine.concepts_eq_nil hc text
  have hq' : query'.concepts = [] := SearchEngine.concepts_eq_nil hc text'
  have hx : query.normalizedQuery ∉ document.aliasesNormalized :=
    fun h => hu <| mem_allTokens_of_alias hn h hr.mem
  let points := wordPoints numerics engine.config engine.index document i
  have h1 : 1 ≤ idf := InvertedIndex.one_le_idf hl
  have hw : points u ≤ points v ↔ _ := wordPoints_le_iff hu hv hpv h1
  have h8 : points u ≤ points v + 40 := by
    have hu : points u ≤ 8 := wordPoints_le_eight hu
    have hv : 6 ≤ points v := six_le_wordPoints hv hpv h1
    linarith
  have hsum : (query'.tokens.map points).sum + points u = (query.tokens.map points).sum + points v :=
    hr.tokens ▸ sum_map_replace points (nodup_tokenize text true) hr.mem
  have hs : _ = _ + _ + (query.tokens.map points).sum :=
    SearchEngine.score_sub_intent_of_empty rfl hc rfl hs rfl
  have hs' : _ = _ + _ + (query'.tokens.map points).sum :=
    SearchEngine.score_sub_intent_of_empty rfl hc rfl hs' (he' ▸ rfl)
  rw [hr.commandComponent hcu hcv] at hs'
  calc
    _ ↔ aliasPoints K document query + points u ≤ aliasPoints K document query' + points v := by
      rw [hs, hs']
      constructor <;> intro h <;> linarith
    _ ↔ GainsAlias document query query' ∨ points u ≤ points v :=
      add_le_add_iff_of_gain (aliasPoints_add_le hx) (aliasPoints_eq hx <| hr.containsTaskPhrase hn hn' hu) h8
    _ ↔ _ := by
      rw [hw, or_left_comm, or_left_comm (a := GainsAlias ..)]
      have hf (other : FuzzyTokenMatch) (p : Prop) := (imp_congr_left (c := p) (hf other)).trans and_imp
      exact or_congr_right <| or_congr_right <| or_congr_right <| forall_congr' fun other => hf other _

end

-- One entry with one alias.
namespace Archives

def base : KnowledgeBase :=
  .ofEntries [howto (ascii "save-files") (ascii "Saving") [ascii "archive backup"] []] (by simp)

def engine : SearchEngine ℚ where
  knowledge := base
  concepts  := default
  numerics  := .rational
  order     := .sorted

-- The typo earns eight points for an alias token that is close and the right spelling six for the token.
theorem typo_wins :
    let query  := engine.queryProcessor.process <| ascii "archve"
    let query' := engine.queryProcessor.process <| ascii "archive"
    let found  := ((engine.candidates query).fuzzyMatches.lookup 0).getD []
    Corrects query query' (ascii "archve") (ascii "archive") ∧ engine.index.posting (ascii "archve") = none ∧
    (∃ fuzzyMatch ∈ found, fuzzyMatch.queryToken = ascii "archve" ∧ fuzzyMatch.indexedToken = ascii "archive") ∧
    ∃ result ∈ engine.score 0 query (engine.candidates query),
      ∃ result' ∈ engine.score 0 query' (engine.candidates query'),
        ¬(result.score - result.breakdown.intent ≤ result'.score - result'.breakdown.intent) := by
  refine ⟨⟨?_, ?_, ?_⟩, ?_, ?_, ?_⟩ <;> decide +kernel

theorem typo_le_correction_backup :
    let query  := engine.queryProcessor.process <| ascii "archve backup"
    let query' := engine.queryProcessor.process <| ascii "archive backup"
    ∃ result ∈ engine.score 0 query (engine.candidates query),
      ∃ result' ∈ engine.score 0 query' (engine.candidates query'),
        result.score - result.breakdown.intent ≤ result'.score - result'.breakdown.intent := by
  intro query query'
  have hr : Corrects query query' (ascii "archve") (ascii "archive") := by
    refine ⟨?_, ?_, ?_⟩ <;> decide +kernel
  have ⟨result, hs, hg⟩ : ∃ result ∈ engine.score 0 query (engine.candidates query),
      query'.normalizedQuery ∈ (entryDocument default result.entry).aliasesNormalized := by decide +kernel
  have ⟨result', hs'⟩ : ∃ result', engine.score 0 query' (engine.candidates query') = some result' :=
    Option.isSome_iff_exists.mp <| by decide +kernel
  have hl (x : ℚ) (h : 1 ≤ x) : 0 ≤ Numerics.rational.log x := sub_nonneg.mpr h
  refine ⟨result, hs, result', hs', ?_⟩
  refine (typo_le_correction_iff base default .rational .sorted rfl hl _ _ _ _ 0 result result' hr
    (by decide +kernel) (by decide +kernel) hs hs').mpr ?_
  exact .inr <| .inr <| .inl <| .inl hg

end Archives

end Howlinux
