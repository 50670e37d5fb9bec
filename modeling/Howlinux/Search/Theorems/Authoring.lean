import Howlinux.Search.Theorems.Points

open Bytes List

namespace Howlinux

-- One more alias or keyword, at any place of its list.
inductive KnowledgeEntry.Adds (entry : KnowledgeEntry) : KnowledgeEntry → Prop
  | phrase  : entry.aliases = first ++ last → Adds entry { entry with aliases := first ++ source :: last }
  | keyword : entry.keywords = first ++ last → Adds entry { entry with keywords := first ++ source :: last }

-- The second base differs from the first one in one more alias or keyword of the entry at position `i`.
def KnowledgeBase.Adds (knowledge knowledge' : KnowledgeBase) (i : ℕ) : Prop :=
  ∃ entry entry', knowledge.entries[i]? = some entry ∧ entry.Adds entry' ∧
    knowledge'.entries = knowledge.entries.set i entry'

-- What more text does to the document of an entry.
structure EntryDocument.Grows (document document' : EntryDocument) : Prop where
  title    : document'.titleTokens = document.titleTokens
  commands : document'.commandTokens = document.commandTokens
  intents  : document'.intents = document.intents
  phrases  : document.aliasesNormalized ⊆ document'.aliasesNormalized
  keywords : document.keywordTokens ⊆ document'.keywordTokens
  concepts : document.conceptTokens ⊆ document'.conceptTokens
  all      : document.allTokens ⊆ document'.allTokens

section

variable {entry entry' : KnowledgeEntry} {aliases keywords : List Bytes}

theorem toFinset_flatMap_subset {α : Type} [DecidableEq α] {l l' : List Bytes} (f : Bytes → List α)
    (h : l ⊆ l') : (l.flatMap f).toFinset ⊆ (l'.flatMap f).toFinset := by
  intro a ha
  have ⟨b, hb, ha⟩ := mem_flatMap.mp <| mem_toFinset.mp ha
  exact mem_toFinset.mpr <| mem_flatMap.mpr ⟨b, h hb, ha⟩

theorem grows_of_subset (concepts : ConceptDictionary) (ha : entry.aliases ⊆ aliases)
    (hk : entry.keywords ⊆ keywords) :
    (entryDocument concepts entry).Grows (entryDocument concepts { entry with aliases, keywords }) := by
  have haliases := toFinset_flatMap_subset (tokenize ·) ha
  have hkeywords := toFinset_flatMap_subset (tokenize ·) hk
  have hconcepts : (entryDocument concepts entry).conceptTokens ⊆
      (entryDocument concepts { entry with aliases, keywords }).conceptTokens := by
    refine toFinset_flatMap_subset (addConcepts concepts) ?_
    intro source
    simp only [mem_cons, mem_append]
    grind
  exact {
    title    := rfl
    commands := rfl
    intents  := rfl
    phrases  := fun phrase hp => by
      have ⟨hn, source, hs, he⟩ := mem_aliasesNormalized.mp hp
      exact mem_aliasesNormalized.mpr ⟨hn, source, ha hs, he⟩
    keywords := hkeywords
    concepts := hconcepts
    all      := Finset.union_subset_union (Finset.union_subset_union_left <|
      Finset.union_subset_union (Finset.union_subset_union_right haliases) hkeywords) hconcepts }

theorem KnowledgeEntry.Adds.grows (h : entry.Adds entry') (concepts : ConceptDictionary) :
    (entryDocument concepts entry).Grows (entryDocument concepts entry') := by
  have hs {l first last : List Bytes} (source : Bytes) (h : l = first ++ last) : l ⊆ first ++ source :: last :=
    fun a ha => by simp_all [or_left_comm]
  cases h
  case phrase ha  => exact grows_of_subset concepts (hs _ ha) (Subset.refl _)
  case keyword hk => exact grows_of_subset concepts (Subset.refl _) (hs _ hk)

end

namespace InvertedIndex

variable {order order' : HashOrder Bytes} {knowledge knowledge' : KnowledgeBase} {concepts : ConceptDictionary}
  {document document' : EntryDocument} {token : Bytes} {i j : ℕ}

-- The documents of the second index are those of the first one, except for one that has grown.
structure Grows (index index' : InvertedIndex) (i : ℕ) (document document' : EntryDocument) : Prop where
  getElem? : index.documents[i]? = some document
  grows    : document.Grows document'
  set      : index'.documents = index.documents.set i document'

variable (h : Grows (build order knowledge concepts) (build order' knowledge' concepts) i document document')

include h

theorem mem_posting_of_grows (ht : token ∈ document.allTokens ∨ token ∉ document'.allTokens) :
    j ∈ ((build order' knowledge' concepts).posting token).getD [] ↔
      j ∈ ((build order knowledge concepts).posting token).getD [] := by
  rw [mem_posting, mem_posting, h.set]
  by_cases hj : i = j
  case neg => rw [getElem?_set_ne hj]
  case pos =>
    have hl := (List.getElem?_eq_some_iff.mp h.getElem?).fst
    subst hj
    simp only [h.getElem?, getElem?_set_self hl, Option.some.injEq, exists_eq_left']
    have ha : token ∈ document.allTokens → token ∈ document'.allTokens := (h.grows.all ·)
    tauto

-- A token that the document has already is as frequent as before.
theorem posting_of_grows (ht : token ∈ document.allTokens) :
    (build order' knowledge' concepts).posting token = (build order knowledge concepts).posting token := by
  have hm (j : ℕ) := mem_posting_of_grows (j := j) h (.inl ht)
  have hi : ((build order' knowledge' concepts).posting token).isSome =
      ((build order knowledge concepts).posting token).isSome := by
    rw [Bool.eq_iff_iff, posting_isSome_iff, posting_isSome_iff]
    exact exists_congr hm
  have hl := pairwise_posting.eq_of_mem_iff pairwise_posting hm
  cases hp : (build order knowledge concepts).posting token <;>
    cases hp' : (build order' knowledge' concepts).posting token <;> simp_all

theorem posting_isSome_of_grows (hp : ((build order knowledge concepts).posting token).isSome) :
    ((build order' knowledge' concepts).posting token).isSome := by
  by_cases ht : token ∈ document.allTokens
  case pos => rwa [posting_of_grows h ht]
  case neg =>
    by_cases ht' : token ∈ document'.allTokens
    case pos =>
      have hl := (List.getElem?_eq_some_iff.mp h.getElem?).fst
      exact posting_isSome_iff.mpr ⟨i, mem_posting.mpr ⟨document', by rw [h.set, getElem?_set_self hl], ht'⟩⟩
    case neg =>
      have ⟨j, hj⟩ := posting_isSome_iff.mp hp
      exact posting_isSome_iff.mpr ⟨j, (mem_posting_of_grows h <| .inr ht').mpr hj⟩

variable {K : Type} [Field K] [LinearOrder K] [IsStrictOrderedRing K] {numerics : Numerics K}

omit [LinearOrder K] [IsStrictOrderedRing K] in
theorem idf_of_grows (ht : token ∈ document.allTokens) :
    (build order' knowledge' concepts).idf numerics.log token =
      (build order knowledge concepts).idf numerics.log token := by
  simp only [idf, posting_of_grows h ht, h.set, length_set]

variable (hl : ∀ x, 1 ≤ x → 0 ≤ numerics.log x)

include hl

-- A part of the score that is for a token in some field is never smaller than before.
theorem weight_le_of_grows {p p' : Prop} [Decidable p] [Decidable p'] {points : K} (h0 : 0 ≤ points)
    (hp : p → p') (ha : p → token ∈ document.allTokens) :
    (if p then points * idfWeight ((build order knowledge concepts).idf numerics.log token) else 0) ≤
      if p' then points * idfWeight ((build order' knowledge' concepts).idf numerics.log token) else 0 := by
  by_cases ht : p
  case pos => rw [if_pos ht, if_pos (hp ht), idf_of_grows h (ha ht)]
  case neg =>
    have hw : 1 ≤ idfWeight ((build order' knowledge' concepts).idf numerics.log token) :=
      one_le_idfWeight (one_le_idf hl)
    rw [if_neg ht]
    split
    case isTrue  => exact mul_nonneg h0 (by linarith)
    case isFalse => exact le_rfl

theorem wordPoints_le_of_grows (hp : ((build order knowledge concepts).posting token).isSome) :
    wordPoints numerics {} (build order knowledge concepts) document i token ≤
      wordPoints numerics {} (build order' knowledge' concepts) document' i token := by
  have ⟨ht, _, hk, _, _⟩ := document.subset_allTokens
  rw [wordPoints_of_posting hp, wordPoints_of_posting (posting_isSome_of_grows h hp), fieldScore, fieldScore]
  simp only [add_mul, ite_mul, zero_mul]
  refine add_le_add_three ?_ ?_ ?_
  · exact weight_le_of_grows h hl (by norm_num) (h.grows.keywords ·) (@hk token)
  · exact weight_le_of_grows h hl (by norm_num) (h.grows.title ▸ id) (@ht token)
  · exact weight_le_of_grows h hl (by norm_num) (h.grows.all ·) id

theorem conceptPoints_le_of_grows :
    conceptPoints numerics {} (build order knowledge concepts) document token ≤
      conceptPoints numerics {} (build order' knowledge' concepts) document' token := by
  have ⟨_, _, _, _, hc⟩ := document.subset_allTokens
  simp only [conceptPoints, idfWeighted_eq]
  exact weight_le_of_grows h hl (by norm_num) (h.grows.concepts ·) (@hc token)

end InvertedIndex

section

variable {K : Type} [Field K] [LinearOrder K] [IsStrictOrderedRing K] {document document' : EntryDocument}
  {query : QueryContext}

theorem EntryDocument.Grows.containsTaskPhrase (h : document.Grows document')
    (hp : containsTaskPhrase document query) : containsTaskPhrase document' query := by
  have ⟨phrase, hm, hp⟩ := any_eq_true.mp hp
  exact any_eq_true.mpr ⟨phrase, h.phrases hm, hp⟩

theorem EntryDocument.Grows.coversConcepts (h : document.Grows document')
    (hc : coversConcepts document query) : coversConcepts document' query := by
  simp only [Howlinux.coversConcepts, Bool.and_eq_true, all_eq_true, decide_eq_true_eq] at hc ⊢
  exact ⟨hc.left, fun canonical hm => h.concepts (hc.right canonical hm)⟩

-- An alias that becomes exact is worth more than the phrase that is no longer looked for.
theorem aliasPoints_le_of_grows (h : document.Grows document') :
    aliasPoints K document query + coverPoints K document query ≤
      aliasPoints K document' query + coverPoints K document' query := by
  have hx : query.normalizedQuery ∈ document.aliasesNormalized →
    query.normalizedQuery ∈ document'.aliasesNormalized := (h.phrases ·)
  have hp : containsTaskPhrase document query → containsTaskPhrase document' query := h.containsTaskPhrase
  have hc : coversConcepts document query → coversConcepts document' query := h.coversConcepts
  unfold aliasPoints coverPoints
  split_ifs <;> first | norm_num; done | (exfalso; tauto)

theorem add_intent_le_add_intent {content content' : K} {p : Prop} [Decidable p] (h : content ≤ content') :
    (content + if 8 ≤ content ∧ p then 20 else 0) ≤ content' + if 8 ≤ content' ∧ p then 20 else 0 := by
  by_cases hc : 8 ≤ content ∧ p
  case pos =>
    rw [if_pos hc, if_pos ⟨hc.left.trans h, hc.right⟩]
    exact add_le_add_left h 20
  case neg =>
    rw [if_neg hc, add_zero]
    split <;> linarith

omit [LinearOrder K] [IsStrictOrderedRing K] in
-- The new text takes part in the commands of no query.
theorem SearchEngine.queryProcessor_of_adds {engine engine' : SearchEngine K} {i : ℕ}
    (h : engine.knowledge.Adds engine'.knowledge i) (hc : engine'.concepts = engine.concepts) :
    engine'.queryProcessor = engine.queryProcessor := by
  have ⟨entry, entry', he, ha, hs⟩ := h
  have hcommand : entry'.command = entry.command := by cases ha <;> rfl
  have hcommands : engine'.knowledge.entries.map (·.command) = engine.knowledge.entries.map (·.command) := by
    have ⟨hi, hv⟩ := List.getElem?_eq_some_iff.mp he
    refine List.ext_getElem? fun j => ?_
    by_cases hj : i = j
    case pos => subst hj; simp [hs, hi, hcommand, hv]
    case neg => simp [hs, hj]
  have hk : engine'.index.knownCommands = engine.index.knownCommands := by
    ext token
    have hm (knowledge : KnowledgeBase) : (∃ entry ∈ knowledge.entries, token ∈ tokenize entry.command false) ↔
        ∃ command ∈ knowledge.entries.map (·.command), token ∈ tokenize command false := by simp
    rw [index, index, InvertedIndex.mem_knownCommands, InvertedIndex.mem_knownCommands, hm, hm, hcommands]
  rw [queryProcessor, queryProcessor, hk, hc]

-- More to find an entry by never makes it harder to find, as long as no query token needs a fuzzy match.
theorem adding_never_lowers (knowledge knowledge' : KnowledgeBase) (concepts : ConceptDictionary)
    (numerics : Numerics K) (order order' : HashOrder Bytes) (hl : ∀ x, 1 ≤ x → 0 ≤ numerics.log x)
    (text : Bytes) (i : ℕ) (result result' : SearchResult K) :
    let engine  : SearchEngine K := { knowledge, concepts, numerics, order }
    let engine' : SearchEngine K := { knowledge := knowledge', concepts, numerics, order := order' }
    let query   := engine.queryProcessor.process text
    let query'  := engine'.queryProcessor.process text
    knowledge.Adds knowledge' i → (∀ token ∈ query.tokens, (engine.index.posting token).isSome) →
    engine.score i query (engine.candidates query) = some result →
    engine'.score i query' (engine'.candidates query') = some result' →
    query' = query ∧ result.score ≤ result'.score := by
  intro engine engine' query query' h hp hs hs'
  have hprocessor : engine'.queryProcessor = engine.queryProcessor := SearchEngine.queryProcessor_of_adds h rfl
  have hq : query' = query := congrArg (·.process text) hprocessor
  have ⟨entry, entry', he, ha, hset⟩ := h
  have hi : i < knowledge.entries.length := (List.getElem?_eq_some_iff.mp he).fst
  have hentry : result.entry = entry := Option.some.inj <| (SearchEngine.entry_of_score hs).symm.trans he
  have hentry' : result'.entry = entry' := by
    have he' : knowledge'.entries[i]? = some result'.entry := SearchEngine.entry_of_score hs'
    rw [hset, getElem?_set_self hi] at he'
    exact (Option.some.inj he').symm
  have hgrows := ha.grows concepts
  have hg : InvertedIndex.Grows engine.index engine'.index i (entryDocument concepts entry)
      (entryDocument concepts entry') := {
    getElem? := InvertedIndex.documents_getElem? he
    grows    := hgrows
    set      := by
      have := congrArg (map <| entryDocument concepts) hset
      rwa [map_set] at this }
  have hcommand : commandComponent engine'.config (entryDocument concepts entry') query =
      commandComponent engine.config (entryDocument concepts entry) query := by
    simp only [commandComponent, hgrows.commands, engine, engine']
  have hcontent : result.score - result.breakdown.intent ≤ result'.score - result'.breakdown.intent := by
    rw [SearchEngine.score_sub_intent_default rfl rfl hs rfl, SearchEngine.score_sub_intent_default rfl hq.symm
      (hq ▸ hs') rfl, hentry, hentry', hcommand]
    have halias : aliasPoints K _ query + _ ≤ _ := aliasPoints_le_of_grows hgrows
    have hwords := sum_le_sum fun token ht =>
      InvertedIndex.wordPoints_le_of_grows hg hl (hp token ht)
    have hconcepts := sum_le_sum fun canonical (_ : canonical ∈ query.concepts) =>
      (InvertedIndex.conceptPoints_le_of_grows hg hl : conceptPoints numerics {} _ _ canonical ≤ _)
    exact add_le_add (add_le_add (add_le_add halias le_rfl) hwords) hconcepts
  refine ⟨hq, ?_⟩
  rw [SearchEngine.score_eq_content rfl hs, SearchEngine.score_eq_content rfl hs', hq, hentry, hentry',
    hgrows.intents]
  exact add_intent_le_add_intent hcontent

end

theorem adding_never_lowers_copying :
    let knowledge : KnowledgeBase :=
      .ofEntries [howto (ascii "copy-file") (ascii "Copying") [ascii "copy file"] []] (by simp)
    let knowledge' : KnowledgeBase :=
      .ofEntries [howto (ascii "copy-file") (ascii "Copying") [ascii "copy file", ascii "copying"] []] (by simp)
    let engine : SearchEngine ℚ :=
      { knowledge, concepts := default, numerics := .rational, order := .sorted }
    let engine' : SearchEngine ℚ :=
      { knowledge := knowledge', concepts := default, numerics := .rational, order := .sorted }
    let query  := engine.queryProcessor.process <| ascii "copying"
    let query' := engine'.queryProcessor.process <| ascii "copying"
    ∃ result ∈ engine.score 0 query (engine.candidates query),
      ∃ result' ∈ engine'.score 0 query' (engine'.candidates query'), result.score ≤ result'.score := by
  intro knowledge knowledge' engine engine' query query'
  have ⟨result, hs⟩ : ∃ result, engine.score 0 query (engine.candidates query) = some result :=
    Option.isSome_iff_exists.mp <| by decide +kernel
  have ⟨result', hs'⟩ : ∃ result', engine'.score 0 query' (engine'.candidates query') = some result' :=
    Option.isSome_iff_exists.mp <| by decide +kernel
  have hl (x : ℚ) (h : 1 ≤ x) : 0 ≤ Numerics.rational.log x := sub_nonneg.mpr h
  have ha : knowledge.Adds knowledge' 0 :=
    ⟨_, _, rfl, @KnowledgeEntry.Adds.phrase _ [ascii "copy file"] [] (ascii "copying") rfl, rfl⟩
  exact ⟨result, hs, result', hs', (adding_never_lowers knowledge knowledge' default .rational .sorted .sorted hl
    _ 0 result result' ha (by decide +kernel) hs hs').right⟩

end Howlinux
