import Howlinux.Concepts.Dictionary

open Bytes List

namespace Howlinux

namespace ConceptDictionary

variable {dictionary : ConceptDictionary} {tokens : List Bytes} {offset position : ℕ}

-- A phrase of the dictionary has its tokens at a position of the list.
structure StartsAt (dictionary : ConceptDictionary) (tokens : List Bytes) (position : ℕ) (phrase : Bytes) :
    Prop where
  mem     : phrase ∈ dictionary.phraseToCanonical
  isPrefix : tokenize phrase true false <+: tokens.drop position

-- A match reports the longest phrase that starts where the match does.
structure IsLongest (dictionary : ConceptDictionary) (tokens : List Bytes) (found : ConceptMatch) :
    Prop where
  starts    : dictionary.StartsAt tokens found.tokenOffset found.phrase
  canonical : dictionary.phraseToCanonical.lookup found.phrase = some found.canonical
  length    : found.tokenLength = (tokenize found.phrase true false).length
  longest   : ∀ phrase, dictionary.StartsAt tokens found.tokenOffset phrase →
    (tokenize phrase true false).length ≤ found.tokenLength

theorem IsLongest.inBounds {found : ConceptMatch} (h : dictionary.IsLongest tokens found) :
    0 < found.tokenLength ∧ found.tokenOffset + found.tokenLength ≤ tokens.length := by
  have hn := length_pos_iff.mpr (dictionary.isPhrase _ h.starts.mem).tokens_ne_nil
  have hl := h.starts.isPrefix.length_le
  rw [length_drop] at hl
  rw [h.length]
  omega

def Covers (found : ConceptMatch) (position : ℕ) : Prop :=
  found.tokenOffset ≤ position ∧ position < found.tokenOffset + found.tokenLength

theorem StartsAt.definition {phrase : Bytes} (h : dictionary.StartsAt tokens position phrase) :
    ∃ definition ∈ dictionary.definitions, definition.phrase = phrase ∧
      definition.tokens = tokenize phrase true false ∧ definition.tokens <+: tokens.drop position := by
  have ⟨canonical, hc⟩ := Finmap.mem_iff.mp h.mem
  let definition : PhraseDefinition := { phrase, canonical, tokens := tokenize phrase true false }
  exact ⟨definition, dictionary.mem_definitions.mpr ⟨hc, rfl⟩, rfl, rfl, h.isPrefix⟩

theorem not_startsAt_of_select (h : dictionary.select (tokens.drop position) = none) (phrase : Bytes) :
    ¬dictionary.StartsAt tokens position phrase := by
  intro hs
  have ⟨definition, hm, _, _, hp⟩ := hs.definition
  have := find?_eq_none.mp h definition hm
  exact this <| isPrefixOf_iff_prefix.mpr hp

theorem prefix_of_select {selected : PhraseDefinition} (h : dictionary.select tokens = some selected) :
    selected ∈ dictionary.definitions ∧ selected.tokens <+: tokens := by
  have hp := find?_some h
  exact ⟨mem_of_find?_eq_some h, isPrefixOf_iff_prefix.mp hp⟩

-- The definitions come longest first, so the first one that fits is a longest one.
theorem length_le_of_select {selected definition : PhraseDefinition}
    (h : dictionary.select tokens = some selected) (hm : definition ∈ dictionary.definitions)
    (hp : definition.tokens <+: tokens) : definition.tokens.length ≤ selected.tokens.length := by
  rw [select, dictionary.definitions_eq .sorted, phraseDefinitions] at h
  rw [dictionary.definitions_eq .sorted, phraseDefinitions, mem_sortBy] at hm
  have hk := le_of_find?_sortBy PhraseDefinition.before_comparesBy h hm <| isPrefixOf_iff_prefix.mpr hp
  simp only [PhraseDefinition.key, Prod.Lex.toLex_le_toLex, OrderDual.toDual_lt_toDual] at hk
  rcases hk with hk | ⟨hk, _⟩
  · exact hk.le
  · exact (OrderDual.toDual.injective hk).ge

theorem isLongest_of_select {selected : PhraseDefinition}
    (h : dictionary.select (tokens.drop offset) = some selected) :
    dictionary.IsLongest tokens
      { canonical := selected.canonical, phrase := selected.phrase,
        tokenOffset := offset, tokenLength := selected.tokens.length } := by
  have ⟨hm, hp⟩ := prefix_of_select h
  have ⟨hc, ht⟩ := dictionary.mem_definitions.mp hm
  exact {
    starts    := ⟨Finmap.mem_of_lookup_eq_some hc, ht ▸ hp⟩
    canonical := hc
    length    := congrArg length ht
    longest   := fun phrase hs => by
      have ⟨_, hd, _, hl, hp⟩ := hs.definition
      exact hl ▸ length_le_of_select h hd hp }

-- The matches of a scan that has come to an offset of the list.
structure IsScan (dictionary : ConceptDictionary) (tokens : List Bytes) (offset : ℕ)
    (spans : List ConceptMatch) : Prop where
  disjoint : spans.Pairwise fun found next => found.tokenOffset + found.tokenLength ≤ next.tokenOffset
  longest  : ∀ found ∈ spans, offset ≤ found.tokenOffset ∧ dictionary.IsLongest tokens found
  complete : ∀ position, offset ≤ position → position < tokens.length →
    (∀ found ∈ spans, ¬Covers found position) → ∀ phrase, ¬dictionary.StartsAt tokens position phrase

namespace IsScan

variable {spans : List ConceptMatch} {found : ConceptMatch}

theorem nil (h : tokens.length ≤ offset) : dictionary.IsScan tokens offset [] where
  disjoint := .nil
  longest  := by simp
  complete := by omega

theorem skip (hn : ∀ phrase, ¬dictionary.StartsAt tokens offset phrase)
    (h : dictionary.IsScan tokens (offset + 1) spans) : dictionary.IsScan tokens offset spans where
  disjoint := h.disjoint
  longest found hf :=
    have ⟨ho, hl⟩ := h.longest found hf
    ⟨by omega, hl⟩
  complete position ho hp hc := by
    rcases ho.eq_or_lt with rfl | ho
    · exact hn
    · exact h.complete position ho hp hc

theorem cons (hl : dictionary.IsLongest tokens found)
    (h : dictionary.IsScan tokens (found.tokenOffset + found.tokenLength) spans) :
    dictionary.IsScan tokens found.tokenOffset (found :: spans) where
  disjoint := pairwise_cons.mpr ⟨fun next hn => (h.longest next hn).left, h.disjoint⟩
  longest next hn := by
    rcases mem_cons.mp hn with rfl | hn
    · exact ⟨le_rfl, hl⟩
    · have ⟨ho, hl⟩ := h.longest next hn
      exact ⟨by omega, hl⟩
  complete position ho hp hc := by
    have ⟨hf, hc⟩ := forall_mem_cons.mp hc
    refine h.complete position ?_ hp hc
    simpa [Covers, ho] using hf

-- A phrase that covers the whole list leaves room for no other match.
theorem eq_singleton {phrase : Bytes} (h : dictionary.IsScan tokens 0 spans)
    (hs : dictionary.StartsAt tokens 0 phrase) (hl : tokens.length ≤ (tokenize phrase true false).length) :
    ∃ found, spans = [found] ∧ found.tokenOffset = 0 ∧ found.tokenLength = tokens.length ∧
      dictionary.IsLongest tokens found := by
  have hn := length_pos_iff.mpr (dictionary.isPhrase _ hs.mem).tokens_ne_nil
  have hp := hs.isPrefix.length_le
  rw [drop_zero] at hp
  have ⟨found, hf, hc⟩ : ∃ found ∈ spans, Covers found 0 := by
    by_contra hc
    push Not at hc
    exact h.complete 0 le_rfl (by omega) hc phrase hs
  have ho : found.tokenOffset = 0 := by
    have := hc.left
    omega
  have hi := (h.longest found hf).right
  have hb := hi.inBounds
  have hm : found.tokenLength = tokens.length := by
    have := hi.longest phrase (ho ▸ hs)
    omega
  have ⟨before, after, he⟩ := append_of_mem hf
  have hd := he ▸ h.disjoint
  rw [pairwise_append, pairwise_cons] at hd
  have hb' : before = [] := eq_nil_iff_forall_not_mem.mpr fun next hx => by
    have := (h.longest next (he ▸ mem_append_left _ hx)).right.inBounds
    have := hd.right.right next hx found mem_cons_self
    omega
  have ha' : after = [] := eq_nil_iff_forall_not_mem.mpr fun next hx => by
    have := (h.longest next (he ▸ mem_append_right _ (mem_cons_of_mem _ hx))).right.inBounds
    have := hd.right.left.left next hx
    omega
  subst hb' ha'
  exact ⟨found, he, ho, hm, hi⟩

end IsScan

theorem isScan_detectFrom {rest : List Bytes} (h : rest = tokens.drop offset) :
    dictionary.IsScan tokens offset (dictionary.detectFrom offset rest) := by
  fun_induction detectFrom dictionary offset rest
  case case1 offset => exact .nil (drop_eq_nil_iff.mp h.symm)
  case case2 offset token rest hs hi =>
    rw [h] at hs
    exact (hi (by rw [drop_add_one_eq_tail_drop, ← h, tail_cons])).skip (not_startsAt_of_select hs)
  case case3 offset token rest selected hs hi =>
    refine .cons (isLongest_of_select (h ▸ hs)) (hi ?_)
    rw [h, drop_drop]

theorem isScan_detect (tokens : List Bytes) : dictionary.IsScan tokens 0 (dictionary.detect tokens) :=
  isScan_detectFrom drop_zero.symm

section

variable {token : Bytes} {rest : List Bytes} {selected : PhraseDefinition}

theorem detectFrom_of_none (h : dictionary.select (token :: rest) = none) :
    dictionary.detectFrom offset (token :: rest) = dictionary.detectFrom (offset + 1) rest := by
  rw [detectFrom]
  split <;> simp_all

theorem detectFrom_of_some (h : dictionary.select (token :: rest) = some selected) :
    dictionary.detectFrom offset (token :: rest) =
      { canonical   := selected.canonical
        phrase      := selected.phrase
        tokenOffset := offset
        tokenLength := selected.tokens.length } ::
      dictionary.detectFrom (offset + selected.tokens.length) ((token :: rest).drop selected.tokens.length) := by
  rw [detectFrom]
  split <;> simp_all

-- One more token at the end can only matter where a phrase is all that is left.
theorem select_concat (tokens : List Bytes) (token : Bytes) :
    (∃ selected, dictionary.select (tokens ++ [token]) = some selected ∧ selected.tokens = tokens ++ [token]) ∨
      dictionary.select (tokens ++ [token]) = dictionary.select tokens := by
  by_cases h : ∃ definition ∈ dictionary.definitions, definition.tokens = tokens ++ [token]
  case pos =>
    have ⟨definition, hm, ht⟩ := h
    have hs : (dictionary.select (tokens ++ [token])).isSome := find?_isSome.mpr ⟨definition, hm, by simp [ht]⟩
    have ⟨selected, hs⟩ := Option.isSome_iff_exists.mp hs
    have hl := length_le_of_select hs hm (ht ▸ prefix_rfl)
    exact .inl ⟨selected, hs, (prefix_of_select hs).right.eq_of_length_le (ht ▸ hl)⟩
  case neg =>
    refine .inr <| find?_congr fun definition hm => ?_
    have hn : definition.tokens ≠ tokens ++ [token] := fun ht => h ⟨definition, hm, ht⟩
    rw [Bool.eq_iff_iff, isPrefixOf_iff_prefix, isPrefixOf_iff_prefix, prefix_concat_iff, or_iff_right hn]

theorem select_nil : dictionary.select [] = none := by
  refine find?_eq_none.mpr fun definition hm hp => ?_
  exact tokens_ne_nil hm <| prefix_nil.mp <| isPrefixOf_iff_prefix.mp hp

theorem detectFrom_of_eq (h : dictionary.select tokens = some selected) (ht : selected.tokens = tokens) :
    dictionary.detectFrom offset tokens =
      [{ canonical   := selected.canonical
         phrase      := selected.phrase
         tokenOffset := offset
         tokenLength := selected.tokens.length }] := by
  cases tokens
  case nil => simp [select_nil] at h
  case cons => rw [detectFrom_of_some h, ht, drop_length, detectFrom]

-- The matches of a list and the ones of the list with one more token: the same ones, or the last ones
-- give way to a phrase at the end.
def Extends (dictionary : ConceptDictionary) (tokens : List Bytes) (spans spans' : List ConceptMatch) : Prop :=
  spans' = spans ∨ ∃ kept lost found, spans = kept ++ lost ∧ spans' = kept ++ [found] ∧
    dictionary.phraseToCanonical.lookup found.phrase = some found.canonical ∧
    tokenize found.phrase true false <:+ tokens

theorem Extends.cons {spans spans' : List ConceptMatch} (found : ConceptMatch)
    (h : dictionary.Extends tokens spans spans') : dictionary.Extends tokens (found :: spans) (found :: spans') := by
  rcases h with rfl | ⟨kept, lost, last, rfl, rfl, hl, ht⟩
  · exact .inl rfl
  · exact .inr ⟨found :: kept, lost, last, rfl, rfl, hl, ht⟩

theorem Extends.mono {tokens' : List Bytes} {spans spans' : List ConceptMatch} (hs : tokens' <:+ tokens)
    (h : dictionary.Extends tokens' spans spans') : dictionary.Extends tokens spans spans' := by
  rcases h with rfl | ⟨kept, lost, last, rfl, rfl, hl, ht⟩
  · exact .inl rfl
  · exact .inr ⟨kept, lost, last, rfl, rfl, hl, ht.trans hs⟩

theorem extends_detectFrom (offset : ℕ) (tokens : List Bytes) (token : Bytes) :
    dictionary.Extends (tokens ++ [token]) (dictionary.detectFrom offset tokens)
      (dictionary.detectFrom offset (tokens ++ [token])) := by
  have go (offset : ℕ) (tokens : List Bytes) (spans : List ConceptMatch) (selected : PhraseDefinition)
      (hs : dictionary.select (tokens ++ [token]) = some selected) (ht : selected.tokens = tokens ++ [token]) :
      dictionary.Extends (tokens ++ [token]) spans (dictionary.detectFrom offset (tokens ++ [token])) := by
    have ⟨hc, he⟩ := dictionary.mem_definitions.mp (prefix_of_select hs).left
    exact .inr ⟨[], spans, _, rfl, detectFrom_of_eq hs ht, hc, he ▸ ht ▸ suffix_rfl⟩
  fun_induction detectFrom dictionary offset tokens
  case case1 offset =>
    rcases dictionary.select_concat [] token with ⟨selected, hs, ht⟩ | hs
    · exact go offset [] [] selected hs ht
    · rw [nil_append] at hs ⊢
      rw [detectFrom_of_none (hs.trans select_nil), detectFrom]
      exact .inl rfl
  case case2 offset first rest hn hi =>
    rcases dictionary.select_concat (first :: rest) token with ⟨selected, hs, ht⟩ | hs
    · exact go offset _ _ selected hs ht
    · rw [cons_append] at hs ⊢
      rw [detectFrom_of_none (hs.trans hn)]
      exact hi.mono <| suffix_cons ..
  case case3 offset first rest selected hn hi =>
    rcases dictionary.select_concat (first :: rest) token with ⟨selected, hs, ht⟩ | hs
    · exact go offset _ _ selected hs ht
    · have hl := (prefix_of_select hn).right.length_le
      rw [cons_append] at hs ⊢
      rw [detectFrom_of_some (hs.trans hn), ← cons_append, drop_append_of_le_length hl]
      exact (hi.mono <| drop_append_of_le_length hl ▸ drop_suffix ..).cons _

theorem extends_detect (tokens : List Bytes) (token : Bytes) :
    dictionary.Extends (tokens ++ [token]) (dictionary.detect tokens) (dictionary.detect (tokens ++ [token])) :=
  extends_detectFrom 0 tokens token

end

theorem detect_of_empty (h : dictionary.phraseToCanonical = ∅) (tokens : List Bytes) :
    dictionary.detect tokens = [] := by
  refine eq_nil_iff_forall_not_mem.mpr fun found hf => ?_
  have hm := ((isScan_detect tokens).longest found hf).right.starts.mem
  rw [h] at hm
  exact Finmap.notMem_empty hm

-- A phrase that covers a whole list is the joined list.
theorem StartsAt.phrase_eq {phrase : Bytes} (h : dictionary.StartsAt tokens 0 phrase)
    (hl : tokens.length ≤ (tokenize phrase true false).length) : phrase = joinTokens tokens := by
  have ht : tokenize phrase true false = tokens := h.isPrefix.eq_of_length_le hl
  rw [← ht]
  exact (dictionary.isPhrase _ h.mem).normal.symm

variable {source canonical : Bytes}

-- Direct lookup of a phrase is the same as a single match that covers its tokens.
theorem canonicalForPhrase_iff (ht : tokenize source true false = tokens) :
    dictionary.canonicalForPhrase source = some canonical ↔
      ∃ phrase, dictionary.detect tokens =
        [{ canonical, phrase, tokenOffset := 0, tokenLength := tokens.length }] := by
  have hj : normalizePhrase source = joinTokens tokens := congrArg joinTokens ht
  rw [canonicalForPhrase, hj]
  have hs : dictionary.IsScan tokens 0 (dictionary.detect tokens) := isScan_detect tokens
  constructor
  case mp =>
    intro hc
    have ht : tokenize (joinTokens tokens) true false = tokens := ht ▸ tokenize_joinTokens source le_rfl le_rfl
    have hj : dictionary.StartsAt tokens 0 (joinTokens tokens) :=
      ⟨Finmap.mem_of_lookup_eq_some hc, ht.symm ▸ prefix_rfl⟩
    have ⟨⟨c, p, o, l⟩, hd, ho, hm, hl⟩ := hs.eq_singleton hj (by rw [ht])
    simp only at ho hm
    subst ho hm
    have hp : p = joinTokens tokens := hl.starts.phrase_eq hl.length.le
    have hc' : dictionary.phraseToCanonical.lookup p = some c := hl.canonical
    rw [hp, hc] at hc'
    exact ⟨p, Option.some.inj hc' ▸ hd⟩
  case mpr =>
    intro ⟨phrase, hd⟩
    have ⟨_, hl⟩ := hs.longest _ (hd ▸ mem_singleton_self _)
    rw [← hl.starts.phrase_eq hl.length.le]
    exact hl.canonical

end ConceptDictionary

-- Detection is leftmost-longest, and it agrees with direct lookup.
theorem detect_leftmost_longest (dictionary : ConceptDictionary) :
    (∀ tokens, let spans := dictionary.detect tokens
      spans.Pairwise (fun found next => found.tokenOffset + found.tokenLength ≤ next.tokenOffset) ∧
      (∀ found ∈ spans, 0 < found.tokenLength ∧ found.tokenOffset + found.tokenLength ≤ tokens.length ∧
        dictionary.IsLongest tokens found) ∧
      ∀ position < tokens.length, (∀ found ∈ spans, ¬ConceptDictionary.Covers found position) →
        ∀ phrase, ¬dictionary.StartsAt tokens position phrase) ∧
    ∀ source canonical, let tokens := tokenize source true false
      dictionary.canonicalForPhrase source = some canonical ↔
        ∃ phrase, dictionary.detect tokens =
          [{ canonical, phrase, tokenOffset := 0, tokenLength := tokens.length }] := by
  refine ⟨fun tokens => ?_, fun source canonical => ConceptDictionary.canonicalForPhrase_iff rfl⟩
  have h := dictionary.isScan_detect tokens
  refine ⟨h.disjoint, fun found hf => ?_, fun position => h.complete position (Nat.zero_le _)⟩
  have ⟨_, hl⟩ := h.longest found hf
  exact ⟨hl.inBounds.left, hl.inBounds.right, hl⟩

end Howlinux
