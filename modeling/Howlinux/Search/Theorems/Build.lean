import Howlinux.Search.Build
import Howlinux.Search.Theorems.Index

open Bytes List

namespace Howlinux

section

variable {walks : Walks} {target : Finset Bytes} {values : List Bytes} {index : ℕ} {document : EntryDocument}

theorem addTokens_eq : addTokens target values = target ∪ values.toFinset := by
  unfold addTokens
  induction values generalizing target
  case nil => simp
  case cons value values hi =>
    rw [foldl_cons, hi]
    ext token
    simp

-- In whatever order the fields are walked, their tokens are gathered.
theorem gatherTokens_eq : gatherTokens walks index document = document.allTokens := by
  have hw (walk : Walk) (tokens : Finset Bytes) : ((walks walk).list tokens).toFinset = tokens := by
    ext token
    simp [(walks walk).mem]
  simp only [gatherTokens, addTokens_eq, hw, EntryDocument.allTokens, Finset.empty_union]

end

namespace IndexMembers

-- What is stored for an entry does not depend on the walks.
def stored (concepts : ConceptDictionary) (entry : KnowledgeEntry) : IndexedDocument where
  document  := entryDocument concepts entry
  allTokens := (entryDocument concepts entry).allTokens

section

variable {K : Type} {walks : Walks} {members : IndexMembers K} {concepts : ConceptDictionary}

theorem addDocument_eq {entry : KnowledgeEntry} : addDocument walks members concepts entry = { members with
    documents     := members.documents ++ [stored concepts entry]
    knownCommands := members.knownCommands ∪ (tokenize entry.command false).toFinset } := by
  have hn : tokenize [] false = [] := by decide +kernel
  rw [addDocument, gatherTokens_eq]
  by_cases hc : entry.command = []
  case pos => simp [hc, hn, stored]
  case neg => simp [hc, addTokens_eq, stored]

theorem foldl_addDocument (entries : List KnowledgeEntry) :
    entries.foldl (addDocument walks · concepts) members = { members with
      documents     := members.documents ++ entries.map (stored concepts)
      knownCommands := members.knownCommands ∪
        (entries.flatMap fun entry => tokenize entry.command false).toFinset } := by
  induction entries generalizing members
  case nil => simp
  case cons entry entries hi => rw [foldl_cons, hi, addDocument_eq]; simp

theorem foldl_addPostings (documents : List (IndexedDocument × ℕ)) :
    documents.foldl (addPostings walks) members = { members with
      postings := documents.foldl (fun postings document =>
        ((walks <| .allTokens document.2).list document.1.allTokens).foldl (addPosting document.2) postings)
        members.postings } := by
  induction documents generalizing members
  case nil              => rfl
  case cons hd tl hi    => exact hi

theorem foldl_addLength (tokens : List Bytes) :
    tokens.foldl addLength members = { members with
      vocabularyByLength := tokens.foldl (fun lengths token => lengths.push token.length token)
        members.vocabularyByLength } := by
  induction tokens generalizing members
  case nil              => rfl
  case cons hd tl hi    => exact hi

theorem postings_eq (order : HashOrder Bytes) (knowledge : KnowledgeBase) :
    (knowledge.entries.map (stored concepts)).zipIdx.foldl (fun postings document =>
      ((walks <| .allTokens document.2).list document.1.allTokens).foldl (addPosting document.2) postings) ∅ =
      (InvertedIndex.build order knowledge concepts).postings := by
  have hb : (InvertedIndex.build order knowledge concepts).postings =
      (knowledge.entries.map (entryDocument concepts)).zipIdx.foldl (fun postings document =>
        (order.list document.1.allTokens).foldl (addPosting document.2) postings) ∅ := rfl
  rw [hb]
  refine Finmap.ext_lookup fun token => ?_
  rw [lookup_foldl_addPostings (fun _ => (walks _).nodup _), lookup_foldl_addPostings fun _ => order.nodup _]
  simp only [order.mem, (walks _).mem, zipIdx_map, any_map, filter_map, map_map]
  rfl

section

variable [NatCast K] [Add K] [Div K] [OfScientific K] {log : K → K} {tokens : List Bytes} {token : Bytes}

-- The indices of a token in their final form.
def sortedIndices (indices : List ℕ) : List ℕ :=
  (indices.sortBy fun left right => decide (left < right)).unique id

def frequencyWeight (log : K → K) (documents indices : ℕ) : K :=
  log (((documents : K) + 1.0) / ((indices : K) + 1.0)) + 1.0

-- Each of the tokens is finished on its own.
theorem foldl_finishToken (hn : tokens.Nodup) :
    let finished := tokens.foldl (finishToken · log) members
    (∀ token, finished.postings.lookup token = if token ∈ tokens then
      some (sortedIndices <| (members.postings.lookup token).getD []) else members.postings.lookup token) ∧
    (∀ token, finished.idf.lookup token = if token ∈ tokens then
      some (frequencyWeight log members.documents.length
        (sortedIndices <| (members.postings.lookup token).getD []).length) else members.idf.lookup token) ∧
    finished = { members with
      postings   := finished.postings
      idf        := finished.idf
      vocabulary := members.vocabulary ++ tokens } := by
  induction tokens generalizing members
  case nil => simp
  case cons hd tl hi =>
    have ⟨hh, ht⟩ := nodup_cons.mp hn
    have ⟨hp, hi, hf⟩ := @hi (finishToken members log hd) ht
    refine ⟨fun token => ?_, fun token => ?_, ?_⟩
    case refine_1 =>
      rw [foldl_cons, hp]
      by_cases he : token = hd
      case pos => subst he; simp [hh, finishToken, sortedIndices]
      case neg => simp [he, finishToken, Finmap.lookup_insert_of_ne]
    case refine_2 =>
      rw [foldl_cons, hi]
      by_cases he : token = hd
      case pos => subst he; simp [hh, finishToken, sortedIndices, frequencyWeight]
      case neg => simp [he, finishToken, Finmap.lookup_insert_of_ne]
    case refine_3 =>
      rw [foldl_cons]
      refine hf.trans ?_
      simp [finishToken]

-- The members that stand for an index.
structure Represents (log : K → K) (index : InvertedIndex) (members : IndexMembers K) : Prop where
  documents          : members.documents = index.documents.map fun document => ⟨document, document.allTokens⟩
  postings           : ∀ token, members.postings.lookup token = index.posting token
  idf                : ∀ token, members.idf.lookup token = (index.posting token).map fun indices =>
    frequencyWeight log index.documents.length indices.length
  knownCommands      : members.knownCommands = index.knownCommands
  vocabulary         : members.vocabulary = index.vocabulary
  vocabularyByLength : ∀ length, members.vocabularyByLength.lookup length =
    if index.vocabularyByLength length = [] then none else some (index.vocabularyByLength length)

theorem Represents.unique {index : InvertedIndex} {members members' : IndexMembers K}
    (h : Represents log index members) (h' : Represents log index members') : members = members' := by
  have hp : members.postings = members'.postings :=
    Finmap.ext_lookup fun token => (h.postings token).trans (h'.postings token).symm
  have hi : members.idf = members'.idf := Finmap.ext_lookup fun token => (h.idf token).trans (h'.idf token).symm
  have hl : members.vocabularyByLength = members'.vocabularyByLength :=
    Finmap.ext_lookup fun length => (h.vocabularyByLength length).trans (h'.vocabularyByLength length).symm
  cases members
  cases members'
  simp only [mk.injEq]
  exact ⟨h.documents.trans h'.documents.symm, hp, hi, h.knownCommands.trans h'.knownCommands.symm,
    h.vocabulary.trans h'.vocabulary.symm, hl⟩

section

variable {index : InvertedIndex}

-- What is left of `build` for an index whose postings are gathered.
theorem foldl_finishToken_keys (hp : members.postings = index.postings)
    (hd : members.documents.length = index.documents.length) :
    let finished := ((walks .postings).list index.postings.keys).foldl (finishToken · log) members
    (∀ token, finished.postings.lookup token = index.posting token) ∧
    (∀ token, finished.idf.lookup token = if index.posting token = none then members.idf.lookup token else
      (index.posting token).map fun indices => frequencyWeight log index.documents.length indices.length) ∧
    finished = { members with
      postings   := finished.postings
      idf        := finished.idf
      vocabulary := members.vocabulary ++ (walks .postings).list index.postings.keys } := by
  have hm : ∀ token, token ∈ (walks .postings).list index.postings.keys ↔ (index.postings.lookup token).isSome := by
    simp [(walks .postings).mem, Finmap.mem_keys, Finmap.mem_iff, Option.isSome_iff_exists]
  have ⟨hl, hi, hf⟩ := @foldl_finishToken _ members _ _ _ _ log _ ((walks .postings).nodup index.postings.keys)
  refine ⟨fun token => ?_, fun token => ?_, hf⟩
  case refine_1 =>
    rw [hl, hp, InvertedIndex.posting]
    simp only [hm]
    cases index.postings.lookup token <;> rfl
  case refine_2 =>
    rw [hi, hp, hd, InvertedIndex.posting]
    simp only [hm]
    cases index.postings.lookup token <;> rfl

theorem lookup_vocabularyByLength {length : ℕ} :
    (index.vocabulary.foldl (fun (lengths : Finmap fun _ : ℕ => List Bytes) token =>
      lengths.push token.length token) ∅).lookup length =
      if index.vocabularyByLength length = [] then none else some (index.vocabularyByLength length) := by
  have hl : index.vocabulary.any (·.length = length) ↔ index.vocabularyByLength length ≠ [] := by
    simp [InvertedIndex.vocabularyByLength, filter_eq_nil_iff]
  rw [Finmap.lookup_foldl_push]
  by_cases hn : index.vocabularyByLength length = []
  case pos => rw [if_pos hn, if_neg (hl.not.mpr (not_not.mpr hn))]; rfl
  case neg =>
    rw [if_neg hn, if_pos (hl.mpr hn)]
    simp [InvertedIndex.vocabularyByLength]

end

-- Whatever the walks and the previous contents, `build` fills in the index that the search uses.
theorem represents_build (order : HashOrder Bytes) (knowledge : KnowledgeBase) :
    Represents log (InvertedIndex.build order knowledge concepts)
      (build walks members log knowledge concepts) := by
  generalize hx : InvertedIndex.build order knowledge concepts = index
  let first : IndexMembers K :=
    { documents     := knowledge.entries.map (stored concepts)
      knownCommands := (knowledge.entries.flatMap fun entry => tokenize entry.command false).toFinset }
  have hf : knowledge.entries.foldl (addDocument walks · concepts) members.clear = first := by
    rw [foldl_addDocument]
    simp [clear, first]
  have hp : first.documents.zipIdx.foldl (addPostings walks) first = { first with postings := index.postings } := by
    rw [foldl_addPostings, ← hx, ← postings_eq order knowledge]
  have hl : first.documents.length = index.documents.length := by
    simp [first, ← hx, InvertedIndex.documents_build]
  have ⟨hk, hi, hm⟩ :=
    @foldl_finishToken_keys _ walks { first with postings := index.postings } _ _ _ _ log index rfl hl
  generalize hfold : ((walks .postings).list index.postings.keys).foldl (finishToken · log)
    { first with postings := index.postings } = finished at hk hi hm
  have hv : (((walks .postings).list index.postings.keys).sortBy fun left right => decide (left < right)) =
      index.vocabulary := by
    rw [← hx]
    exact sortBy_eq_of_perm (comparesBy_lt id) (by simp) ((walks .postings).perm order _)
  have hs : finished.sortVocabulary = { first with
      postings   := finished.postings
      idf        := finished.idf
      vocabulary := index.vocabulary } := by
    conv_lhs => rw [hm]
    rw [← hv]
    rfl
  have hb : build walks members log knowledge concepts = { first with
      postings           := finished.postings
      idf                := finished.idf
      vocabulary         := index.vocabulary
      vocabularyByLength := index.vocabulary.foldl (fun lengths token => lengths.push token.length token) ∅ } := by
    simp only [build, hf, hp, hfold, hs, foldl_addLength, first]
  rw [hb]
  constructor
  case documents          => rw [← hx, InvertedIndex.documents_build, map_map]; rfl
  case postings           => exact hk
  case vocabulary         => rfl
  case vocabularyByLength => exact fun _ => lookup_vocabularyByLength
  case idf =>
    intro token
    rw [hi]
    cases index.posting token <;> rfl
  case knownCommands =>
    rw [← hx]
    ext token
    simp [InvertedIndex.mem_knownCommands, first]

end

end

section

variable {documents indices indices' : ℕ}

theorem one_le_frequencyWeight (h : indices ≤ documents) : 1 ≤ frequencyWeight Real.log documents indices := by
  have hi : (indices : ℝ) ≤ documents := Nat.cast_le.mpr h
  have hq : 1 ≤ ((documents : ℝ) + 1) / (indices + 1) := (one_le_div (by positivity)).mpr (by linarith)
  have hl := Real.log_nonneg hq
  norm_num [frequencyWeight]
  exact hl

theorem frequencyWeight_lt (h : indices < indices') :
    frequencyWeight Real.log documents indices' < frequencyWeight Real.log documents indices := by
  have hi : (indices : ℝ) + 1 < indices' + 1 := by exact_mod_cast Nat.succ_lt_succ h
  have hq : ((documents : ℝ) + 1) / (indices' + 1) < (documents + 1) / (indices + 1) := by gcongr
  have hl := Real.log_lt_log (by positivity) hq
  norm_num [frequencyWeight]
  exact hl

end

-- The members are the exact inverse of the tokens of the documents.
structure IsInverse (knowledge : KnowledgeBase) (concepts : ConceptDictionary) (members : IndexMembers ℝ) :
    Prop where
  documents  : members.documents.map (·.document) = knowledge.entries.map (entryDocument concepts)
  allTokens  : ∀ document ∈ members.documents, document.allTokens = document.document.allTokens
  keys       : ∀ token, token ∈ members.postings ↔ ∃ document ∈ members.documents, token ∈ document.allTokens
  increasing : ∀ token, ∀ indices ∈ members.postings.lookup token, indices.Pairwise (· < ·)
  indices    : ∀ token, ∀ indices ∈ members.postings.lookup token, ∀ i, i ∈ indices ↔
    ∃ document, members.documents[i]? = some document ∧ token ∈ document.allTokens
  sorted     : members.vocabulary.Pairwise (· < ·)
  vocabulary : ∀ token, token ∈ members.vocabulary ↔ token ∈ members.postings
  lengths    : ∀ length, length ∈ members.vocabularyByLength ↔ ∃ token ∈ members.vocabulary, token.length = length
  partition  : ∀ length, ∀ tokens ∈ members.vocabularyByLength.lookup length, tokens.Pairwise (· < ·) ∧
    ∀ token, token ∈ tokens ↔ token ∈ members.vocabulary ∧ token.length = length
  weighed    : ∀ token, token ∈ members.idf ↔ token ∈ members.postings
  one_le     : ∀ token, ∀ weight ∈ members.idf.lookup token, 1 ≤ weight
  decreasing : ∀ token other, ∀ indices ∈ members.postings.lookup token,
    ∀ others ∈ members.postings.lookup other, indices.length < others.length →
      ∀ weight ∈ members.idf.lookup token, ∀ lower ∈ members.idf.lookup other, lower < weight

section

variable {order : HashOrder Bytes} {knowledge : KnowledgeBase} {concepts : ConceptDictionary}
  {members : IndexMembers ℝ}

theorem isInverse_of_represents
    (h : Represents Real.log (InvertedIndex.build order knowledge concepts) members) :
    IsInverse knowledge concepts members := by
  have hd (i : ℕ) (token : Bytes) :
      (∃ document, members.documents[i]? = some document ∧ token ∈ document.allTokens) ↔
        i ∈ ((InvertedIndex.build order knowledge concepts).posting token).getD [] := by
    simp [InvertedIndex.mem_posting, h.documents]
  have hk (token : Bytes) :
      token ∈ members.postings ↔ ((InvertedIndex.build order knowledge concepts).posting token).isSome := by
    simp [Finmap.mem_iff, h.postings, Option.isSome_iff_exists]
  constructor
  case documents => rw [h.documents, InvertedIndex.documents_build]; simp
  case allTokens => simp [h.documents]
  case keys =>
    intro token
    rw [hk, InvertedIndex.posting_isSome_iff]
    simp only [← hd, mem_iff_getElem?]
    grind
  case increasing =>
    intro token indices hi
    rw [h.postings] at hi
    have hp := @InvertedIndex.pairwise_posting order knowledge concepts token
    rwa [hi] at hp
  case indices =>
    intro token indices hi i
    rw [h.postings] at hi
    rw [hd, hi]
    rfl
  case sorted => exact h.vocabulary ▸ InvertedIndex.pairwise_vocabulary
  case vocabulary =>
    intro token
    rw [hk, h.vocabulary, InvertedIndex.mem_vocabulary]
  case lengths =>
    intro length
    rw [← Finmap.lookup_isSome, h.vocabularyByLength, h.vocabulary]
    simp [InvertedIndex.vocabularyByLength, filter_eq_nil_iff]
  case partition =>
    intro length tokens ht
    rw [h.vocabularyByLength] at ht
    split at ht
    case isTrue => contradiction
    case isFalse =>
      cases ht
      refine ⟨InvertedIndex.pairwise_vocabulary.filter _, fun token => ?_⟩
      simp [InvertedIndex.vocabularyByLength, h.vocabulary]
  case weighed =>
    intro token
    rw [hk, ← Finmap.lookup_isSome, h.idf, Option.isSome_map]
  case one_le =>
    intro token weight hw
    rw [h.idf] at hw
    have ⟨indices, hi, he⟩ := Option.map_eq_some_iff.mp hw
    exact he ▸ one_le_frequencyWeight (InvertedIndex.length_posting_le hi)
  case decreasing =>
    intro token other indices hi others ho hl weight hw lower hlo
    rw [h.postings] at hi ho
    rw [h.idf, hi] at hw
    rw [h.idf, ho] at hlo
    cases hw
    cases hlo
    exact frequencyWeight_lt hl

end

end IndexMembers

-- Building an index inverts the documents, whatever it held before and however the hash containers are walked.
theorem build_is_inverse (walks : Walks) (previous : IndexMembers ℝ) (knowledge : KnowledgeBase)
    (concepts : ConceptDictionary) :
    let members := IndexMembers.build walks previous Real.log knowledge concepts
    members.IsInverse knowledge concepts ∧
      ∀ walks' previous', IndexMembers.build walks' previous' Real.log knowledge concepts = members := by
  have hr (walks : Walks) (previous : IndexMembers ℝ) :=
    @IndexMembers.represents_build _ walks previous concepts _ _ _ _ Real.log .sorted knowledge
  exact ⟨IndexMembers.isInverse_of_represents (hr walks previous), fun walks' previous' =>
    (hr walks' previous').unique (hr walks previous)⟩

end Howlinux
