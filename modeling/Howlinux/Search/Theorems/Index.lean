import Howlinux.Search.Index

open Bytes List

namespace Howlinux

section

variable {postings : Postings} {token : Bytes} {tokens : List Bytes} {index i : ℕ}

theorem lookup_foldl_addPosting (h : tokens.Nodup) :
    (tokens.foldl (addPosting index) postings).lookup token =
      if token ∈ tokens then some ((postings.lookup token).getD [] ++ [index]) else
        postings.lookup token := by
  induction tokens generalizing postings
  case nil => simp
  case cons hd tl hi =>
    have ⟨hn, ht⟩ := nodup_cons.mp h
    rw [foldl_cons, hi ht]
    by_cases he : token = hd
    case pos => subst he; simp [hn, addPosting]
    case neg => simp [he, addPosting, Finmap.lookup_insert_of_ne]

-- The documents of a list of numbered ones that have a token.
def holders (token : Bytes) (documents : List (EntryDocument × ℕ)) : List ℕ :=
  (documents.filter (token ∈ ·.1.allTokens)).map (·.2)

-- The postings of a token are the numbers of the documents that have it, whatever they had before.
theorem lookup_foldl_addPostings {α : Type*} {tokens : α × ℕ → List Bytes} (hn : ∀ document, (tokens document).Nodup)
    (documents : List (α × ℕ)) :
    (documents.foldl (fun postings document => (tokens document).foldl (addPosting document.2) postings)
      postings).lookup token = if documents.any (token ∈ tokens ·) then
        some ((postings.lookup token).getD [] ++ (documents.filter (token ∈ tokens ·)).map (·.2)) else
        postings.lookup token := by
  induction documents generalizing postings
  case nil => simp
  case cons hd tl hi =>
    rw [foldl_cons, hi]
    simp only [lookup_foldl_addPosting (hn hd)]
    by_cases ht : token ∈ tokens hd
    case pos =>
      by_cases he : tl.any (token ∈ tokens ·)
      case pos => simp [ht, he]
      case neg =>
        have hf : tl.filter (token ∈ tokens ·) = [] := by simpa [filter_eq_nil_iff] using he
        simp [ht, he, hf]
    case neg =>
      rw [any_cons, filter_cons_of_neg (by simpa using ht), decide_eq_false ht, Bool.false_or, if_neg ht]

theorem lookup_foldl_documents (order : HashOrder Bytes) (documents : List (EntryDocument × ℕ)) :
    (documents.foldl (fun postings (document, index) =>
      (order.list document.allTokens).foldl (addPosting index) postings) postings).lookup token =
      if holders token documents = [] then postings.lookup token else
        some ((postings.lookup token).getD [] ++ holders token documents) := by
  have hl := @lookup_foldl_addPostings postings token _ (order.list ·.1.allTokens) (fun _ => order.nodup _) documents
  have he : holders token documents = [] ↔ ¬documents.any (token ∈ order.list ·.1.allTokens) := by
    simp [holders, filter_eq_nil_iff, order.mem]
  refine hl.trans ?_
  split
  case isTrue h  => rw [if_neg fun hn => he.mp hn h]; simp only [order.mem]; rfl
  case isFalse h => rw [if_pos (he.mpr h)]

end

namespace InvertedIndex

variable {order : HashOrder Bytes} {knowledge : KnowledgeBase} {concepts : ConceptDictionary}
  {entry : KnowledgeEntry} {token : Bytes} {indices : List ℕ} {i : ℕ}

theorem documents_build :
    (build order knowledge concepts).documents = knowledge.entries.map (entryDocument concepts) :=
  rfl

-- The postings lead from a token to the documents that have it.
theorem mem_posting : i ∈ ((build order knowledge concepts).posting token).getD [] ↔
    ∃ document, (build order knowledge concepts).documents[i]? = some document ∧
      token ∈ document.allTokens := by
  have hm : ∀ documents : List EntryDocument, i ∈ holders token documents.zipIdx ↔
      ∃ document, documents[i]? = some document ∧ token ∈ document.allTokens := by
    intro documents
    simp [holders, mem_zipIdx_iff_getElem?]
  rw [← hm, posting, build, lookup_foldl_documents order, Finmap.lookup_empty]
  split
  case isTrue h => simp [h]
  case isFalse  => simp [mem_unique]

theorem lt_of_mem_posting (h : i ∈ ((build order knowledge concepts).posting token).getD []) :
    i < knowledge.entries.length := by
  have ⟨_, hd, _⟩ := mem_posting.mp h
  have := (List.getElem?_eq_some_iff.mp hd).fst
  simpa [documents_build] using this

theorem documents_getElem? (h : knowledge.entries[i]? = some entry) :
    (build order knowledge concepts).documents[i]? = some (entryDocument concepts entry) := by
  simp [documents_build, h]

theorem notMem_allTokens_of_posting_eq_none (hp : (build order knowledge concepts).posting token = none)
    (h : knowledge.entries[i]? = some entry) : token ∉ (entryDocument concepts entry).allTokens := by
  intro ht
  have hm : i ∈ ((build order knowledge concepts).posting token).getD [] :=
    mem_posting.mpr ⟨_, documents_getElem? h, ht⟩
  simp [hp] at hm

theorem posting_isSome_iff : ((build order knowledge concepts).posting token).isSome ↔
    ∃ i, i ∈ ((build order knowledge concepts).posting token).getD [] := by
  rw [posting, build, lookup_foldl_documents order, Finmap.lookup_empty]
  split
  case isTrue => simp
  case isFalse h =>
    have ⟨i, hi⟩ := exists_mem_of_ne_nil _ h
    exact iff_of_true rfl ⟨i, by simpa [mem_unique] using hi⟩

theorem pairwise_posting : (((build order knowledge concepts).posting token).getD []).Pairwise (· < ·) := by
  cases h : (build order knowledge concepts).posting token
  case none => exact .nil
  case some indices =>
    have ⟨unsorted, _, he⟩ := Option.map_eq_some_iff.mp h
    exact he ▸ (pairwise_unique <| pairwise_sortBy (comparesBy_lt id) unsorted)

theorem length_posting_le (h : (build order knowledge concepts).posting token = some indices) :
    indices.length ≤ (build order knowledge concepts).documents.length := by
  have hn : indices.Nodup := by
    have hp : (((build order knowledge concepts).posting token).getD []).Pairwise (· < ·) := pairwise_posting
    rw [h] at hp
    exact hp.imp ne_of_lt
  have hs : indices ⊆ range (build order knowledge concepts).documents.length := by
    intro i hi
    rw [mem_range, documents_build, length_map]
    have hm : i ∈ ((build order knowledge concepts).posting token).getD [] := by rwa [h]
    exact lt_of_mem_posting hm
  simpa using (hn.subperm hs).length_le

theorem mem_vocabulary : token ∈ (build order knowledge concepts).vocabulary ↔
    ((build order knowledge concepts).posting token).isSome := by
  have hm : token ∈ (build order knowledge concepts).vocabulary ↔
      token ∈ (build order knowledge concepts).postings := by
    simp only [build, mem_sortBy, order.mem, Finmap.mem_keys]
  rw [hm, posting, Option.isSome_map, Finmap.lookup_isSome]

theorem nodup_vocabulary : (build order knowledge concepts).vocabulary.Nodup :=
  (perm_sortBy _ _).nodup_iff.mpr <| order.nodup _

theorem pairwise_vocabulary : (build order knowledge concepts).vocabulary.Pairwise (· < ·) :=
  pairwise_lt_sortBy (comparesBy_lt id) (by simpa using order.nodup _)

-- The commands are known token by token.
theorem mem_knownCommands : token ∈ (build order knowledge concepts).knownCommands ↔
    ∃ entry ∈ knowledge.entries, token ∈ tokenize entry.command false := by
  simp [build, order.mem, entryDocument]

-- What holds of the candidates while they are gathered: they contain what was looked up directly,
-- they are positions of entries, and an entry with fuzzy matches is one of them.
structure Gathered (knowledge : KnowledgeBase) (direct : Finset ℕ) (candidates : Candidates) : Prop where
  direct : direct ⊆ candidates.indices
  bound  : ∀ i ∈ candidates.indices, i < knowledge.entries.length
  keys   : ∀ i ∈ candidates.fuzzyMatches, i ∈ candidates.indices

namespace Gathered

variable {direct : Finset ℕ} {candidates : Candidates} {fuzzyMatch : FuzzyTokenMatch}

theorem addMatch (h : Gathered knowledge direct candidates) (hi : i < knowledge.entries.length) :
    Gathered knowledge direct (candidates.addMatch fuzzyMatch i) where
  direct   := h.direct.trans <| Finset.subset_insert ..
  bound    := by simpa [Candidates.addMatch, hi] using h.bound
  keys j   := by
    simp only [Candidates.addMatch, Finmap.mem_insert, Finset.mem_insert]
    exact .imp_right <| h.keys j

theorem addFuzzyToken {queryToken : Bytes} {fuzzyToken : Bytes × ℕ}
    (h : Gathered knowledge direct candidates) :
    Gathered knowledge direct
      ((build order knowledge concepts).addFuzzyToken queryToken candidates fuzzyToken) :=
  foldlRecOn _ _ h fun _ h _ hm => h.addMatch <| lt_of_mem_posting hm

theorem addFuzzyTokens {K : Type} [OfScientific K] {config : SearchConfig K} {queryToken : Bytes}
    {directTokens : List Bytes} (h : Gathered knowledge direct candidates) :
    Gathered knowledge direct
      ((build order knowledge concepts).addFuzzyTokens config directTokens candidates queryToken) := by
  unfold InvertedIndex.addFuzzyTokens
  split
  case isTrue  => exact h
  case isFalse => exact foldlRecOn _ _ h fun _ h _ _ => h.addFuzzyToken

end Gathered

variable {K : Type} [OfScientific K] {config : SearchConfig K} {query : QueryContext}

-- The documents that have a token or a concept of the query.
def direct (index : InvertedIndex) (query : QueryContext) : Finset ℕ :=
  ((query.tokens ++ query.concepts).flatMap fun token => (index.posting token).getD []).toFinset

theorem gathered_candidates (order : HashOrder Bytes) (knowledge : KnowledgeBase)
    (concepts : ConceptDictionary) (config : SearchConfig K) (query : QueryContext) : ∃ candidates,
    Gathered knowledge ((build order knowledge concepts).direct query) candidates ∧
    (build order knowledge concepts).candidates query config =
      ⟨HashOrder.sorted.list candidates.indices, candidates.fuzzyMatches⟩ := by
  refine ⟨_, foldlRecOn _ _ ?_ fun _ h _ _ => h.addFuzzyTokens, rfl⟩
  have hf (tokens : List Bytes) (candidates : Candidates) :
      tokens.foldl (fun candidates token => candidates.addPostings <|
        ((build order knowledge concepts).posting token).getD []) candidates =
      ⟨candidates.indices ∪ (tokens.flatMap fun token =>
        ((build order knowledge concepts).posting token).getD []).toFinset,
        candidates.fuzzyMatches⟩ := by
    induction tokens generalizing candidates
    case nil         => simp
    case cons _ _ hi =>
      rw [foldl_cons, hi, flatMap_cons, toFinset_append, ← Finset.union_assoc]
      rfl
  rw [hf]
  constructor
  case direct => simp [direct]
  case keys   => simp [Finmap.notMem_empty]
  case bound  =>
    simp only [Finset.empty_union, mem_toFinset, mem_flatMap]
    exact fun i ⟨_, _, hi⟩ => lt_of_mem_posting hi

theorem lt_of_mem_candidates
    (h : i ∈ ((build order knowledge concepts).candidates query config).entryIndices) :
    i < knowledge.entries.length := by
  have ⟨_, hg, he⟩ := gathered_candidates order knowledge concepts config query
  rw [he, HashOrder.mem] at h
  exact hg.bound i h

end InvertedIndex

end Howlinux
