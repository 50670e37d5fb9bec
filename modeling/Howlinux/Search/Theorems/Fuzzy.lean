import Howlinux.Search.Theorems.Distance
import Howlinux.Search.Theorems.Points

open Bytes List

namespace Howlinux.InvertedIndex

-- The order of the matches: by distance, then by token.
def fuzzyKey (fuzzyToken : Bytes × ℕ) : ℕ ×ₗ Bytes :=
  toLex (fuzzyToken.2, fuzzyToken.1)

theorem fuzzyBefore_comparesBy : ComparesBy fuzzyBefore fuzzyKey := by
  intro left right
  simp only [fuzzyBefore, fuzzyKey, Prod.Lex.toLex_lt_toLex]
  grind

-- What a scan of all indexed tokens would match a token of the query with.
structure IsClose (index : InvertedIndex) (queryToken : Bytes) (fuzzyToken : Bytes × ℕ) : Prop where
  indexed     : (index.posting fuzzyToken.1).isSome
  unprotected : index.isProtectedFromFuzzy fuzzyToken.1 = false
  distance    : Aligns.IsDistance queryToken fuzzyToken.1 fuzzyToken.2
  bound       : fuzzyToken.2 ≤ if 7 ≤ queryToken.length then 2 else 1

section

variable {order : HashOrder Bytes} {knowledge : KnowledgeBase} {concepts : ConceptDictionary}
  {index : InvertedIndex} {queryToken indexedToken : Bytes} {limit : ℕ} {fuzzyToken : Bytes × ℕ}

variable (index queryToken) in
-- The indexed tokens that are looked through, length by length.
def window : List Bytes :=
  let maximum := maximumDistance queryToken
  (range' (queryToken.length - maximum) (queryToken.length + maximum + 1 - (queryToken.length - maximum))).flatMap
    fun length => (index.vocabularyByLength length).filter (!index.isProtectedFromFuzzy ·)

variable (index queryToken) in
-- Those of them that are close, with their distances.
def matched : List (Bytes × ℕ) :=
  ((index.window queryToken).map fun indexedToken =>
    (indexedToken, damerauLevenshteinDistance queryToken indexedToken (maximumDistance queryToken))).filter
      (·.2 ≤ maximumDistance queryToken)

theorem fuzzyTokens_eq : index.fuzzyTokens limit queryToken =
    ((index.matched queryToken).sortBy fuzzyBefore).take limit := by
  simp only [fuzzyTokens, matched, window, map_flatMap]

-- The lengths that are looked through are the ones that a close token can have.
theorem mem_window : indexedToken ∈ index.window queryToken ↔
    (indexedToken ∈ index.vocabulary ∧ index.isProtectedFromFuzzy indexedToken = false) ∧
      queryToken.length ≤ indexedToken.length + maximumDistance queryToken ∧
      indexedToken.length ≤ queryToken.length + maximumDistance queryToken := by
  simp only [window, mem_flatMap, mem_range'_1, mem_filter, vocabularyByLength, decide_eq_true_eq,
    Bool.not_eq_eq_eq_not, Bool.not_true]
  constructor
  case mp =>
    intro ⟨length, hl, ⟨hm, he⟩, hp⟩
    exact ⟨⟨hm, hp⟩, by omega, by omega⟩
  case mpr =>
    intro ⟨⟨hm, hp⟩, hl, hr⟩
    exact ⟨indexedToken.length, by omega, ⟨hm, rfl⟩, hp⟩

-- A token comes up in the bucket of its own length and in no other one.
theorem nodup_window (h : index.vocabulary.Nodup) : (index.window queryToken).Nodup := by
  refine nodup_flatMap.mpr ⟨fun length _ => (h.filter _).filter _, ?_⟩
  refine (nodup_range' ..).imp fun hne indexedToken hl hr => hne ?_
  have hl := of_decide_eq_true (mem_filter.mp (mem_filter.mp hl).left).right
  have hr := of_decide_eq_true (mem_filter.mp (mem_filter.mp hr).left).right
  exact hl.symm.trans hr

theorem mem_matched : fuzzyToken ∈ (build order knowledge concepts).matched queryToken ↔
    (build order knowledge concepts).IsClose queryToken fuzzyToken := by
  have ⟨indexedToken, distance⟩ := fuzzyToken
  have ⟨least, hd⟩ := Aligns.exists_isDistance queryToken indexedToken
  have ⟨hexact, hlarge⟩ := damerauLevenshteinDistance_exact (k := maximumDistance queryToken) hd
  simp only [matched, mem_filter, mem_map, Prod.mk.injEq, mem_window, mem_vocabulary, decide_eq_true_eq]
  constructor
  case mp =>
    intro ⟨⟨_, ⟨⟨hi, hp⟩, _, _⟩, he, hm⟩, hb⟩
    subst he
    have hl : least ≤ maximumDistance queryToken := not_lt.mp fun h => by
      have := hlarge h
      omega
    rw [hexact hl] at hm
    exact ⟨hi, hp, hm ▸ hd, hb⟩
  case mpr =>
    intro ⟨hi, hp, hd', hb⟩
    have hu : least = distance := hd.unique hd'
    have hb : distance ≤ maximumDistance queryToken := hb
    have hl : queryToken.length ≤ indexedToken.length + distance := hd'.left.length_left_le
    have hr : indexedToken.length ≤ queryToken.length + distance := hd'.left.length_right_le
    exact ⟨⟨indexedToken, ⟨⟨hi, hp⟩, by omega, by omega⟩, rfl, hu ▸ hexact (hu ▸ hb)⟩, hb⟩

theorem pairwise_matched : (((build order knowledge concepts).matched queryToken).sortBy fuzzyBefore).Pairwise
    (fuzzyKey · < fuzzyKey ·) := by
  refine pairwise_lt_sortBy fuzzyBefore_comparesBy <| pairwise_map.mpr <| Pairwise.filter _ ?_
  have hn : ((build order knowledge concepts).window queryToken).Nodup := nodup_window nodup_vocabulary
  exact pairwise_map.mpr <| hn.imp fun hne he => hne <| congrArg (fun key => (ofLex key).2) he

end

-- Looking through the buckets finds what a scan of the whole vocabulary would find.
theorem fuzzy_eq_scan {K : Type} [OfScientific K] (config : SearchConfig K) (order : HashOrder Bytes)
    (knowledge : KnowledgeBase) (concepts : ConceptDictionary) (query : QueryContext) (queryToken : Bytes) :
    let index := build order knowledge concepts
    queryToken ∈ query.tokens → config.fuzzyMinimumLength ≤ queryToken.length →
    index.posting queryToken = none → index.isProtectedFromFuzzy queryToken = false →
    ∃ close : List (Bytes × ℕ), (∀ fuzzyToken, fuzzyToken ∈ close ↔ index.IsClose queryToken fuzzyToken) ∧
      close.Pairwise (fuzzyKey · < fuzzyKey ·) ∧
      index.fuzzyTokens config.fuzzyMatchLimitPerToken queryToken =
        close.take config.fuzzyMatchLimitPerToken ∧
      ∀ i indexedToken distance,
        ⟨queryToken, indexedToken, distance⟩ ∈ ((index.candidates query config).fuzzyMatches.lookup i).getD [] ↔
        (indexedToken, distance) ∈ close.take config.fuzzyMatchLimitPerToken ∧
          ∃ document, index.documents[i]? = some document ∧ indexedToken ∈ document.allTokens := by
  intro index hq hl hp hu
  refine ⟨(index.matched queryToken).sortBy fuzzyBefore, fun _ => mem_sortBy.trans mem_matched,
    pairwise_matched, fuzzyTokens_eq, fun i indexedToken distance => ?_⟩
  have ht : ⟨queryToken, indexedToken, distance⟩ ∈ index.tokenMatches config queryToken i ↔ _ :=
    mem_tokenMatches_iff hq
  have hi : i ∈ (index.posting indexedToken).getD [] ↔ _ := mem_posting
  have hn : ¬((index.posting queryToken).isSome || queryToken.length < config.fuzzyMinimumLength ||
      index.isProtectedFromFuzzy queryToken) := by simp [hp, hl, hu]
  rw [← and_iff_left (a := _ ∈ _) rfl, ← ht, tokenMatches, if_neg hn, ← fuzzyTokens_eq, ← hi]
  simp

theorem fuzzy_eq_scan_archve :
    let knowledge : KnowledgeBase :=
      .ofEntries [howto (ascii "save-files") (ascii "Saving") [ascii "archive backup"] []] (by simp)
    let index := build .sorted knowledge default
    ∃ close : List (Bytes × ℕ), (∀ fuzzyToken, fuzzyToken ∈ close ↔ index.IsClose (ascii "archve") fuzzyToken) ∧
      index.fuzzyTokens 32 (ascii "archve") = close.take 32 := by
  intro knowledge index
  have ⟨close, hm, _, ht, _⟩ := fuzzy_eq_scan ({} : SearchConfig ℚ) .sorted knowledge default
    ((QueryProcessor.create none ∅).process <| ascii "archve") (ascii "archve") (by decide +kernel)
    (by decide +kernel) (by decide +kernel) (by decide +kernel)
  exact ⟨close, hm, ht⟩

end Howlinux.InvertedIndex
