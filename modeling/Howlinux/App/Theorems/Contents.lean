import Howlinux.App.Theorems.Main
import Howlinux.Markdown.Theorems.LineEndings
import Howlinux.Search.Theorems.Aliases

open Bytes

namespace Howlinux

section

variable {R : Bytes → Bytes → Prop} {knowledge knowledge' : KnowledgeBase}

theorem build_eq_of_rewrites (order : HashOrder Bytes) (concepts : ConceptDictionary)
    (h : knowledge.Rewrites R knowledge') :
    InvertedIndex.build order knowledge concepts = InvertedIndex.build order knowledge' concepts := by
  have hd := map_eq_of_rewrites (f := entryDocument concepts) (fun _ _ => rfl) h.entries
  simp only [InvertedIndex.build, hd]

end

section

variable {K : Type} (R : Bytes → Bytes → Prop)

inductive SearchResult.Rewrites : SearchResult K → SearchResult K → Prop
  | intro : result.entry.Rewrites R rewritten → Rewrites result { result with entry := rewritten }

variable (knowledge knowledge' : KnowledgeBase)

-- Entries of both knowledge bases that differ in their contents.
structure RewritesEntry (entry entry' : KnowledgeEntry) : Prop where
  rewrites : entry.Rewrites R entry'
  left     : entry ∈ knowledge.entries
  right    : entry' ∈ knowledge'.entries

-- The answers that both knowledge bases give to a question. Only the lint looks into the contents.
inductive Answer.Rewrites : Answer K → Answer K → Prop
  | unavailable : Rewrites (.unavailable report) (.unavailable report)
  | unusable    : Rewrites (.unusable knowledgeReport conceptReport) (.unusable knowledgeReport conceptReport)
  | validated   : Rewrites (.validated knowledgeReport conceptReport lintReport)
    (.validated knowledgeReport conceptReport lintReport')
  | listed      : Rewrites (.listed knowledge) (.listed knowledge')
  | found       : RewritesEntry R knowledge knowledge' entry entry' →
    Rewrites (.found knowledge entry) (.found knowledge' entry')
  | unknown     : Rewrites (.unknown entryId) (.unknown entryId)
  | ranked      :
    (∀ result ∈ ranking, result.entry ∈ knowledge.entries) →
    (∀ result ∈ ranking', result.entry ∈ knowledge'.entries) →
    List.Forall₂ (SearchResult.Rewrites R) ranking ranking' →
    Rewrites (.ranked knowledge query ranking) (.ranked knowledge' query ranking')

end

section

variable {K : Type} [Field K] [LinearOrder K] {R : Bytes → Bytes → Prop}

namespace SearchEngine

variable (engine : SearchEngine K) {knowledge : KnowledgeBase} (query : QueryContext)

omit [LinearOrder K] in
theorem index_rewrites (h : engine.knowledge.Rewrites R knowledge) :
    { engine with knowledge }.index = engine.index :=
  (build_eq_of_rewrites engine.order engine.concepts h).symm

omit [LinearOrder K] in
theorem queryProcessor_rewrites (h : engine.knowledge.Rewrites R knowledge) :
    { engine with knowledge }.queryProcessor = engine.queryProcessor := by
  simp only [queryProcessor, engine.index_rewrites h]

omit [LinearOrder K] in
theorem candidates_rewrites (h : engine.knowledge.Rewrites R knowledge) :
    { engine with knowledge }.candidates query = engine.candidates query := by
  simp only [candidates, engine.index_rewrites h]

theorem score_rewrites (h : engine.knowledge.Rewrites R knowledge) (entryIndex : ℕ) (candidates : CandidateSet) :
    Option.Rel (SearchResult.Rewrites R) (engine.score entryIndex query candidates)
      ({ engine with knowledge }.score entryIndex query candidates) := by
  have he := rel_getElem? h.entries entryIndex
  unfold score
  rw [engine.index_rewrites h]
  revert he
  dsimp only
  generalize engine.knowledge.entries[entryIndex]? = entry
  generalize knowledge.entries[entryIndex]? = entry'
  generalize engine.index.documents[entryIndex]? = document
  rintro (hr | _)
  case none => exact .none
  case some =>
    cases document
    case none   => exact .none
    case some _ => exact .some <| .intro hr

-- The same entries are ranked in the same order, for the same reasons.
theorem ranking_rewrites (h : engine.knowledge.Rewrites R knowledge) : List.Forall₂ (SearchResult.Rewrites R)
    (engine.ranking query) ({ engine with knowledge }.ranking query) := by
  rw [ranking_eq, ranking_eq, engine.candidates_rewrites query h]
  unfold rank
  refine List.forall₂_sortBy (fun a b a' b' hr hr' => ?before) <| List.rel_filter (fun a b hr => ?filter) <|
    List.rel_filterMap (R := Eq) (fun i j hij => ?score) (List.forall₂_refl _)
  case before =>
    cases hr
    cases hr'
    case intro.intro hr _ hr' =>
      cases hr
      cases hr'
      rfl
  case filter =>
    cases hr
    rfl
  case score  => exact hij ▸ engine.score_rewrites query h i (engine.candidates query)

theorem entry_mem_of_mem_ranking {result : SearchResult K} (h : result ∈ engine.ranking query) :
    result.entry ∈ engine.knowledge.entries := by
  rw [ranking_eq, rank, List.mem_sortBy, List.mem_filter, List.mem_filterMap] at h
  obtain ⟨⟨i, _, hs⟩, _⟩ := h
  obtain ⟨hi, rfl⟩ := engine.score_eq_some_iff.mp hs
  exact List.getElem_mem hi

end SearchEngine

theorem decide_rewrites (policy : ResultPolicy K) {ranking ranking' : List (SearchResult K)}
    (h : List.Forall₂ (SearchResult.Rewrites R) ranking ranking') :
    (policy.decide ranking).status = (policy.decide ranking').status := by
  unfold ResultPolicy.decide
  cases h
  case nil => rfl
  case cons hf hrest =>
    cases hf
    cases hrest
    case intro.nil =>
      dsimp only
      split_ifs <;> rfl
    case intro.cons hs _ =>
      cases hs
      dsimp only
      split_ifs <;> rfl

end

section

variable {K : Type} {R : Bytes → Bytes → Prop} {knowledge knowledge' : KnowledgeBase} {entry entry' : KnowledgeEntry}

theorem sortedEntries_rewrites (h : knowledge.Rewrites R knowledge') :
    List.Forall₂ (KnowledgeEntry.Rewrites R) (sortedEntries knowledge) (sortedEntries knowledge') := by
  refine List.forall₂_sortBy (fun a b a' b' hr hr' => ?_) h.entries
  cases hr
  cases hr'
  rfl

namespace Renderer

theorem list_rewrites (h : knowledge.Rewrites R knowledge') : list knowledge = list knowledge' := by
  have hs := sortedEntries_rewrites h
  have he : (sortedEntries knowledge).isEmpty = (sortedEntries knowledge').isEmpty := by
    rw [Bool.eq_iff_iff, List.isEmpty_iff_length_eq_zero, List.isEmpty_iff_length_eq_zero, hs.length_eq]
  unfold list
  dsimp only
  rw [hs.length_eq, he]
  refine congrArg (_ ++ ·) (ite_congr rfl (fun _ => rfl) fun _ => ?_)
  exact congrArg List.flatten <| map_eq_of_rewrites (fun _ _ => rfl) hs

theorem listJson_rewrites (h : knowledge.Rewrites R knowledge') : listJson knowledge = listJson knowledge' := by
  have hs := sortedEntries_rewrites h
  simp only [listJson, hs.length_eq, map_eq_of_rewrites (f := writeJsonEntrySummary) (fun _ _ => rfl) hs]

theorem entryHeader_rewrites (h : entry.Rewrites R entry') : entryHeader entry = entryHeader entry' := by
  cases h
  rfl

theorem entryRelated_rewrites (hk : knowledge.Rewrites R knowledge') (h : entry.Rewrites R entry') :
    entryRelated entry knowledge = entryRelated entry' knowledge' := by
  have hl (relatedId : Bytes) : relatedLabel relatedId knowledge = relatedLabel relatedId knowledge' := by
    have hf := hk.findById relatedId
    unfold relatedLabel
    revert hf
    generalize knowledge.findById relatedId = related
    generalize knowledge'.findById relatedId = related'
    rintro (hr | _)
    case none => rfl
    case some =>
      cases hr
      rfl
  cases h
  simp only [entryRelated, hl]

-- The part of an entry's text that shows the content.
def body (value : KnowledgeEntry) (raw color : Bool) : Bytes :=
  let color   := !raw && color
  let content := if raw then value.content else renderMarkdown (untitledContent value) color
  let newline := value.content.isEmpty || (raw && value.content.getLast? != some (byte '\n'))
  content ++ if newline then [byte '\n'] else []

theorem entry_eq_body (value : KnowledgeEntry) (knowledge : KnowledgeBase) (raw color : Bool) :
    Renderer.entry value knowledge raw color =
      entryHeader value (!raw && color) ++ body value raw color ++ entryRelated value knowledge := by
  simp only [Renderer.entry, body, List.append_assoc]

end Renderer

-- How a run shows the content of an entry.
def Presentation.shown (presentation : Presentation) (color : Bool) (entry : KnowledgeEntry) : Bytes :=
  if presentation.json then escapeJson entry.content else Renderer.body entry presentation.raw color

-- Texts that differ in nothing but a part in which they show different things.
def DiffersIn (left right : Bytes) (output output' : Bytes) : Prop :=
  ∃ front back, output = front ++ left ++ back ∧ output' = front ++ right ++ back

theorem writeJsonEntryValue_rewrites (h : entry.Rewrites R entry') : DiffersIn (escapeJson entry.content)
    (escapeJson entry'.content) (writeJsonEntryValue entry) (writeJsonEntryValue entry') := by
  have hs (front content : Bytes) : front ++ writeJsonString content ++ ascii "\x7d" =
      (front ++ ascii "\"") ++ escapeJson content ++ ascii "\"\x7d" := by
    simp only [writeJsonString, List.append_assoc]
    rfl
  cases h
  exact ⟨_, _, hs _ _, hs _ _⟩

theorem DiffersIn.append {left right output output' : Bytes} (h : DiffersIn left right output output')
    (front back : Bytes) : DiffersIn left right (front ++ output ++ back) (front ++ output' ++ back) := by
  obtain ⟨front', back', rfl, rfl⟩ := h
  exact ⟨front ++ front', back' ++ back, by simp only [List.append_assoc], by simp only [List.append_assoc]⟩

end

section

variable {K : Type} {R : Bytes → Bytes → Prop} {results results' : List (SearchResult K)}

theorem limitedResults_rewrites (query : QueryContext) (limit : ℕ)
    (h : List.Forall₂ (SearchResult.Rewrites R) results results') : List.Forall₂ (SearchResult.Rewrites R)
      (limitedResults { query, results } limit) (limitedResults { query, results := results' } limit) := by
  simp only [limitedResults, h.length_eq]
  exact List.forall₂_take _ h

theorem SearchResult.Rewrites.entry {result result' : SearchResult K} (h : result.Rewrites R result') :
    result.entry.Rewrites R result'.entry := by
  cases h
  assumption

-- Results that differ in the contents of their entries are the same otherwise.
theorem eq_of_rewrites {α : Type*} {f : SearchResult K → α} {result result' : SearchResult K}
    (hf : ∀ (result : SearchResult K) (content : Bytes),
      f { result with entry := { result.entry with content } } = f result)
    (h : result.Rewrites R result') : f result = f result' := by
  obtain ⟨hr⟩ := h
  obtain ⟨hr⟩ := hr
  exact (hf ..).symm

theorem flatMap_zipIdx_rewrites {f : SearchResult K → ℕ → Bytes}
    (hf : ∀ (result : SearchResult K) (content : Bytes) (i : ℕ),
      f { result with entry := { result.entry with content } } i = f result i)
    (h : List.Forall₂ (SearchResult.Rewrites R) results results') :
    (results.zipIdx.flatMap fun item => f item.1 item.2) = results'.zipIdx.flatMap fun item => f item.1 item.2 := by
  suffices hs : ∀ i, ((results.zipIdx i).flatMap fun item => f item.1 item.2) =
    (results'.zipIdx i).flatMap fun item => f item.1 item.2 from hs 0
  induction h
  case nil => exact fun _ => rfl
  case cons hr _ hi =>
    intro i
    rw [List.zipIdx_cons, List.zipIdx_cons, List.flatMap_cons, List.flatMap_cons, hi,
      eq_of_rewrites (f := (f · i)) (fun _ _ => hf ..) hr]

theorem isEmpty_rewrites (h : List.Forall₂ (SearchResult.Rewrites R) results results') :
    results.isEmpty = results'.isEmpty := by
  cases h <;> rfl

namespace Renderer

section

variable [Add K] (numerics : Numerics K) (query : QueryContext) (limit : ℕ)

theorem explain_rewrites (h : List.Forall₂ (SearchResult.Rewrites R) results results') :
    explain numerics { query, results } limit = explain numerics { query, results := results' } limit := by
  have hl := limitedResults_rewrites query limit h
  have hr := flatMap_zipIdx_rewrites (f := explainResult numerics) (fun _ _ _ => rfl) hl
  unfold explain
  dsimp only
  rw [isEmpty_rewrites hl, hr]

theorem suggestions_rewrites (explainRequested : Bool)
    (h : List.Forall₂ (SearchResult.Rewrites R) results results') :
    suggestions numerics { query, results } limit explainRequested =
      suggestions numerics { query, results := results' } limit explainRequested := by
  have hl := limitedResults_rewrites query limit h
  have hr := flatMap_zipIdx_rewrites (f := suggestion numerics) (fun _ _ _ => rfl) hl
  unfold suggestions
  dsimp only
  rw [isEmpty_rewrites hl, explain_rewrites numerics query limit h, hr]

end

theorem selectedEntry_rewrites {decision decision' : PolicyDecision K} {selected selected' : SearchResult K}
    (hs : decision.selected = some selected) (hs' : decision'.selected = some selected')
    (hc : decision.status = .confident) (hc' : decision'.status = .confident) (h : selected.Rewrites R selected') :
    DiffersIn (escapeJson selected.entry.content) (escapeJson selected'.entry.content)
      (selectedEntry results decision) (selectedEntry results' decision') := by
  simp only [selectedEntry, selectedResult, hs, hs', hc, hc']
  exact writeJsonEntryValue_rewrites h.entry

theorem selectedEntry_of_not_confident {decision : PolicyDecision K} (hc : decision.status ≠ .confident) :
    selectedEntry results decision = ascii "null" := by
  unfold selectedEntry
  split
  case h_1 _ hs _ => exact absurd hs hc
  case h_2        => rfl

-- The JSON text of a search shows the content of nothing but the entry it selects.
theorem exists_searchJson_rewrites [Zero K] [Add K] [DecidableEq K] (numerics : Numerics K) (query : QueryContext)
    (limit : ℕ) (explainRequested : Bool) {decision decision' : PolicyDecision K}
    (hs : decision.status = decision'.status) (h : List.Forall₂ (SearchResult.Rewrites R) results results') :
    ∃ front back,
      searchJson numerics { query, results } decision limit explainRequested =
        front ++ selectedEntry (limitedResults { query, results } limit) decision ++ back ∧
      searchJson numerics { query, results := results' } decision' limit explainRequested =
        front ++ selectedEntry (limitedResults { query, results := results' } limit) decision' ++ back := by
  have hl := limitedResults_rewrites query limit h
  have hr : (limitedResults { query, results } limit).map (writeJsonSearchResult numerics · explainRequested) =
      (limitedResults { query, results := results' } limit).map (writeJsonSearchResult numerics · explainRequested) :=
    map_eq_of_forall₂ (fun _ _ => eq_of_rewrites (f := (writeJsonSearchResult numerics · explainRequested))
      fun _ _ => rfl) hl
  refine ⟨_, _, rfl, ?_⟩
  unfold searchJson
  dsimp only
  rw [hr, hs]

end Renderer

end

section

variable {K : Type} [Field K] [LinearOrder K] {R : Bytes → Bytes → Prop} {knowledge knowledge' : KnowledgeBase}
  {entry entry' : KnowledgeEntry} (numerics : Numerics K) (presentation : Presentation) (color : Bool)
  (command : CliCommand)

theorem entry_rewrites (hk : knowledge.Rewrites R knowledge') (h : entry.Rewrites R entry') (raw : Bool) :
    DiffersIn (Renderer.body entry raw color) (Renderer.body entry' raw color)
      (Renderer.entry entry knowledge raw color) (Renderer.entry entry' knowledge' raw color) := by
  rw [Renderer.entry_eq_body, Renderer.entry_eq_body, Renderer.entryHeader_rewrites h,
    Renderer.entryRelated_rewrites hk h]
  exact ⟨_, _, rfl, rfl⟩

-- A ranking shows the content of the entry at its front, and only if that is confident.
theorem ranked_rewrites (hk : knowledge.Rewrites R knowledge') (query : QueryContext)
    {ranking ranking' : List (SearchResult K)} (h : List.Forall₂ (SearchResult.Rewrites R) ranking ranking') :
    let answer  : Answer K := .ranked knowledge query ranking
    let answer' : Answer K := .ranked knowledge' query ranking'
    answer.exitCode = answer'.exitCode ∧
    (answer.output numerics presentation color command = answer'.output numerics presentation color command ∨
      answer.exitCode = kSuccess ∧ ∃ front ∈ ranking, ∃ front' ∈ ranking', front.entry.Rewrites R front'.entry ∧
        DiffersIn (presentation.shown color front.entry) (presentation.shown color front'.entry)
          (answer.output numerics presentation color command)
          (answer'.output numerics presentation color command)) := by
  have hs := decide_rewrites {} h
  have hresults := List.forall₂_take (max presentation.limit 2) h
  obtain ⟨front, back, hj, hj'⟩ := Renderer.exists_searchJson_rewrites numerics query presentation.limit
    presentation.explain hs hresults
  have hexplain     := Renderer.explain_rewrites numerics query presentation.limit hresults
  have hsuggestions := Renderer.suggestions_rewrites numerics query presentation.limit presentation.explain hresults
  refine ⟨by simp only [Answer.exitCode, hs], ?_⟩
  simp only [Answer.output, Answer.json, Answer.text, Answer.response, Answer.exitCode, Presentation.shown, hj, hj',
    ← hexplain, ← hsuggestions]
  by_cases hc : (({} : ResultPolicy K).decide ranking).status = .confident
  case pos =>
    have hc' := hs ▸ hc
    obtain ⟨first, rest, rfl, hsel⟩    := ResultPolicy.selected_of_confident hc
    obtain ⟨first', rest', rfl, hsel'⟩ := ResultPolicy.selected_of_confident hc'
    cases h
    case cons hf _ =>
      refine .inr ⟨by simp only [hc, if_true], first, List.mem_cons_self, first', List.mem_cons_self, hf.entry, ?_⟩
      simp only [hc, hc', hsel, hsel']
      cases presentation.json
      case true  => exact (Renderer.selectedEntry_rewrites hsel hsel' hc hc' hf).append _ _
      case false => exact (entry_rewrites color hk hf.entry presentation.raw).append [] _
  case neg =>
    refine .inl ?_
    rw [Renderer.selectedEntry_of_not_confident hc, Renderer.selectedEntry_of_not_confident (hs ▸ hc), ← hs]
    cases hst : (({} : ResultPolicy K).decide ranking).status
    case confident => exact absurd hst hc
    all_goals rfl

-- An answer shows the content of at most one entry.
theorem Answer.Rewrites.output {answer answer' : Answer K} (hk : knowledge.Rewrites R knowledge')
    (h : Answer.Rewrites R knowledge knowledge' answer answer')
    (hv : ∀ knowledgeReport conceptReport lintReport, answer ≠ .validated knowledgeReport conceptReport lintReport) :
    answer.exitCode = answer'.exitCode ∧
    (answer.output numerics presentation color command = answer'.output numerics presentation color command ∨
      answer.exitCode = kSuccess ∧ answer.ShowsEntry ∧ ∃ entry entry',
        RewritesEntry R knowledge knowledge' entry entry' ∧
        DiffersIn (presentation.shown color entry) (presentation.shown color entry')
          (answer.output numerics presentation color command)
          (answer'.output numerics presentation color command)) := by
  cases h
  case validated => exact absurd rfl (hv _ _ _)
  case listed =>
    refine ⟨rfl, .inl ?_⟩
    simp only [Answer.output, Answer.json, Answer.text, Renderer.list_rewrites hk, Renderer.listJson_rewrites hk]
  case found entry entry' he =>
    refine ⟨rfl, .inr ⟨rfl, trivial, entry, entry', he, ?_⟩⟩
    simp only [Answer.output, Presentation.shown]
    cases presentation.json
    case false => exact entry_rewrites color hk he.rewrites presentation.raw
    case true  => exact (writeJsonEntryValue_rewrites he.rewrites).append _ _
  case ranked ranking ranking' query hm hm' h =>
    obtain ⟨he, ho⟩ := ranked_rewrites numerics presentation color command hk query h
    refine ⟨he, ho.imp id ?_⟩
    rintro ⟨hz, front, hf, front', hf', hr, hd⟩
    exact ⟨hz, trivial, front.entry, front'.entry, ⟨hr, hm _ hf, hm' _ hf'⟩, hd⟩
  all_goals exact ⟨rfl, .inl rfl⟩

end

section

variable {K : Type} [Field K] [LinearOrder K] {R : Bytes → Bytes → Prop} (environment : Environment K)
  {knowledgeRoot : Bytes → KnowledgeRoot}

-- The machine with another file system around the same files.
def Environment.withRoot (knowledgeRoot : Bytes → KnowledgeRoot) : Environment K :=
  { environment with knowledgeRoot }

namespace Environment

variable (question : Question) (options : CliOptions)

omit [Field K] [LinearOrder K] in
theorem loadKnowledge_rewrites (hR : KeepsBlank R)
    (h : ∀ path, (environment.knowledgeRoot path).Rewrites R (knowledgeRoot path)) :
    (environment.loadKnowledge options).Rewrites R ((environment.withRoot knowledgeRoot).loadKnowledge options) :=
  rewrites_load environment.parse hR default _ (h _)

omit [Field K] [LinearOrder K] in
theorem errors_rewrites (hR : KeepsBlank R)
    (h : ∀ path, (environment.knowledgeRoot path).Rewrites R (knowledgeRoot path)) :
    (environment.withRoot knowledgeRoot).errors question = environment.errors question := by
  have hk := environment.loadKnowledge_rewrites question.options hR h
  have hc : (environment.withRoot knowledgeRoot).loadConcepts question.options =
    environment.loadConcepts question.options := rfl
  have hp : (environment.withRoot knowledgeRoot).knowledgePath question.options =
    environment.knowledgePath question.options := rfl
  have hn : (environment.loadKnowledge question.options).entries.isEmpty =
      ((environment.withRoot knowledgeRoot).loadKnowledge question.options).entries.isEmpty := by
    have hl := hk.entries.length_eq
    rw [Bool.eq_iff_iff, List.isEmpty_iff_length_eq_zero, List.isEmpty_iff_length_eq_zero, hl]
  unfold errors loadErrors
  simp only [hc, hp, ← hn, hk.report]

-- What a command finds out about both knowledge bases.
theorem commandAnswer_rewrites {knowledge knowledge' : KnowledgeBase} (concepts : ConceptDictionary)
    (hk : knowledge.Rewrites R knowledge') : (environment.commandAnswer knowledge concepts question).Rewrites R
      knowledge knowledge' ((environment.withRoot knowledgeRoot).commandAnswer knowledge' concepts question) := by
  let engine  := environment.engine knowledge concepts
  let engine' := (environment.withRoot knowledgeRoot).engine knowledge' concepts
  let query   := engine.queryProcessor.process question.query
  have hq : engine'.queryProcessor.process question.query = query :=
    congrArg (QueryProcessor.process · question.query) <| engine.queryProcessor_rewrites hk
  have hranked : (Answer.ranked knowledge query (engine.ranking query)).Rewrites R knowledge knowledge'
      (.ranked knowledge' (engine'.queryProcessor.process question.query)
        (engine'.ranking <| engine'.queryProcessor.process question.query)) := by
    rw [hq]
    exact .ranked (fun _ => engine.entry_mem_of_mem_ranking query) (fun _ => engine'.entry_mem_of_mem_ranking query)
      (engine.ranking_rewrites query hk)
  unfold commandAnswer
  cases question.command
  case validate =>
    rw [hk.report]
    exact .validated
  case list   => exact .listed
  case «show» =>
    have hf := hk.findById question.entryId
    have hm {knowledge : KnowledgeBase} {entry : KnowledgeEntry}
        (h : knowledge.findById question.entryId = some entry) :
        entry ∈ knowledge.entries := (findById_eq_some_iff.mp h).left
    dsimp only
    rcases he : knowledge.findById question.entryId with _ | entry
    all_goals
      rcases he' : knowledge'.findById question.entryId with _ | entry'
      all_goals rw [he, he'] at hf
    case none.none => exact .unknown
    case some.some =>
      cases hf
      case some hr => exact .found ⟨hr, hm he, hm he'⟩
    all_goals exact nomatch hf
  all_goals exact hranked

theorem answer_rewrites (hR : KeepsBlank R)
    (h : ∀ path, (environment.knowledgeRoot path).Rewrites R (knowledgeRoot path)) :
    (environment.answer question).Rewrites R (environment.loadKnowledge question.options)
      ((environment.withRoot knowledgeRoot).loadKnowledge question.options)
      ((environment.withRoot knowledgeRoot).answer question) := by
  have hk := environment.loadKnowledge_rewrites question.options hR h
  have hc : (environment.withRoot knowledgeRoot).loadConcepts question.options =
    environment.loadConcepts question.options := rfl
  unfold answer
  dsimp only
  rw [hc, ← hk.report]
  cases (environment.loadKnowledge question.options).report.rootAvailable
  case false => exact .unavailable
  case true  =>
    cases (environment.loadConcepts question.options).report.usable
    case false => exact .unusable
    case true  => exact environment.commandAnswer_rewrites question _ hk

end Environment

theorem Environment.answer_not_validated {options : CliOptions} (hc : options.command ≠ .validate)
    (knowledgeReport : KnowledgeLoadReport) (conceptReport : ConceptLoadReport) (lintReport : KnowledgeLintReport) :
    environment.answer options.question ≠ .validated knowledgeReport conceptReport lintReport := by
  have hq : options.question.command = options.command := rfl
  unfold answer commandAnswer
  rw [hq]
  dsimp only
  intro h
  split at h
  case isTrue => contradiction
  case isFalse =>
    split at h
    case isTrue => contradiction
    case isFalse =>
      cases hcommand : options.command <;> simp only [hcommand] at h
      case validate => exact hc hcommand
      case «show»   => split at h <;> contradiction
      all_goals contradiction

end

-- The text of a content file is only shown, if it is shown at all: no rewriting of content files that
-- keeps the blank ones blank changes errors, exit codes, rankings, scores or any other part of an output.
theorem content_is_only_shown {K : Type} [Field K] [LinearOrder K] {R : Bytes → Bytes → Prop} (hR : KeepsBlank R)
    (environment : Environment K) (knowledgeRoot : Bytes → KnowledgeRoot)
    (h : ∀ path, (environment.knowledgeRoot path).Rewrites R (knowledgeRoot path)) (arguments : List Bytes) :
    let rewritten := environment.withRoot knowledgeRoot
    let outcome   := environment.runApplication arguments
    let outcome'  := rewritten.runApplication arguments
    outcome.error = outcome'.error ∧
    ((∀ options, parseCommandLine arguments = .ok options → options.command ≠ .validate) →
      outcome.exitCode = outcome'.exitCode ∧
      (outcome.output = outcome'.output ∨
        outcome.exitCode = kSuccess ∧ ∃ options, parseCommandLine arguments = .ok options ∧
          (options.command = .search ∨ options.command = .show) ∧
          ∃ entry entry', entry.Rewrites R entry' ∧ entry ∈ (environment.loadKnowledge options).entries ∧
            entry' ∈ (rewritten.loadKnowledge options).entries ∧
            DiffersIn (options.presentation.shown environment.terminalColorEnabled entry)
              (options.presentation.shown environment.terminalColorEnabled entry')
              outcome.output outcome'.output)) := by
  intro rewritten outcome outcome'
  obtain ⟨_, ho⟩ | ⟨options, hp, hc, ho⟩ := runApplication_cases K arguments
  case inl =>
    have hs : outcome = outcome' := (ho environment).trans (ho rewritten).symm
    exact ⟨congrArg _ hs, fun _ => ⟨congrArg _ hs, .inl <| congrArg _ hs⟩⟩
  case inr =>
    have hk := environment.loadKnowledge_rewrites options hR h
    have ha := environment.answer_rewrites options.question hR h
    have he := environment.errors_rewrites options.question hR h
    have hs  : outcome = _  := (ho environment).trans <| environment.runOptions_eq options
    have hs' : outcome' = _ := (ho rewritten).trans <| rewritten.runOptions_eq options
    rw [hs, hs']
    refine ⟨he.symm, fun hv => ?_⟩
    have hn := environment.answer_not_validated (hv options hp)
    have ⟨hexit, hout⟩ := ha.output environment.numerics options.presentation environment.terminalColorEnabled
      options.command hk hn
    refine ⟨hexit, hout.imp id ?_⟩
    rintro ⟨hz, hshows, entry, entry', ⟨hr, hm, hm'⟩, hd⟩
    exact ⟨hz, options, hp, Environment.command_of_showsEntry hc hshows, entry, entry', hr, hm, hm', hd⟩

-- A machine whose knowledge base has one entry, with a given content.
namespace Written

def category (content : Bytes) : Directory :=
  .mk .missing .missing none [(ascii "copy-file", .directory <| .mk
    (.text <| Copies.metadataText (ascii "copy-file") (ascii "copy file")) (.text content) none [] none)] none

def tree (content : Bytes) : Directory :=
  .mk .missing .missing none [(ascii "files", .directory <| category content)] none

theorem wellFormed_category (content : Bytes) : (category content).WellFormed := by
  refine .intro (by simp +decide [category, Directory.children]) (by simp [category, Directory.children]) ?_
  simp [category, Directory.subdirectories, Directory.openError, Directory.children, Directory.subdirectory,
    Copies.wellFormed_leaf]

theorem wellFormed_tree (content : Bytes) : (tree content).WellFormed := by
  refine .intro (by simp +decide [tree, Directory.children]) (by simp [tree, Directory.children]) ?_
  simp [tree, Directory.subdirectories, Directory.openError, Directory.children, Directory.subdirectory,
    wellFormed_category]

def root (content : Bytes) : KnowledgeRoot :=
  .tree ⟨tree content, wellFormed_tree content⟩

def environment (content : Bytes) : Environment ℚ :=
  { Environment.bare with
    knowledgeRoot := fun _ => root content
    parse         := Copies.parse }

theorem rewrites {R : Bytes → Bytes → Prop} {content content' : Bytes} (h : R content content') :
    (root content).Rewrites R (root content') := by
  have hm : FileOutcome.missing.Rewrites R .missing := .other nofun
  have hl : (category content).Rewrites R (category content') :=
    .intro hm (.refl _) <| .cons (.directory <| .intro (.text h) .nil .nil) .nil
  exact .tree <| .intro hm (.refl _) <| .cons (.directory hl) .nil

-- The content is all that a search shows differently.
theorem outcome_copy :
    let options : CliOptions := { query := ascii "copy file" }
    let machine  := environment <| ascii "# Copying\n"
    let machine' := environment <| ascii "Use cp."
    let outcome  := machine.runApplication [ascii "copy", ascii "file"]
    let outcome' := machine'.runApplication [ascii "copy", ascii "file"]
    outcome.error = outcome'.error ∧ outcome.exitCode = kSuccess ∧ outcome'.exitCode = kSuccess ∧
    ∃ entry ∈ (machine.loadKnowledge options).entries, ∃ entry' ∈ (machine'.loadKnowledge options).entries,
      DiffersIn (options.presentation.shown false entry) (options.presentation.shown false entry')
        outcome.output outcome'.output := by
  intro options machine machine' outcome outcome'
  have hp : parseCommandLine [ascii "copy", ascii "file"] = .ok options := rfl
  have hR : KeepsBlank fun content content' => hasNonWhitespace content = hasNonWhitespace content' := fun _ _ => id
  obtain ⟨he, ho⟩ := content_is_only_shown hR machine (fun _ => root <| ascii "Use cp.")
    (fun _ => rewrites <| by decide) [ascii "copy", ascii "file"]
  obtain ⟨hx, ho⟩ := ho fun options' hp' => by cases hp.symm.trans hp'; decide
  rcases ho with ho | ⟨hz, options', hp', _, entry, entry', _, hm, hm', hd⟩
  case inl =>
    have hn : outcome.output ≠ outcome'.output := by decide +kernel
    exact absurd ho hn
  case inr =>
    cases hp.symm.trans hp'
    exact ⟨he, hz, hx.symm.trans hz, entry, hm, entry', hm', hd⟩

end Written

section

variable {R : Bytes → Bytes → Prop} {knowledge knowledge' : KnowledgeBase} {targets : LinkTargets}

-- The lint of the metadata names the entry, and does not look at its content.
theorem lintAliases_content (entry : KnowledgeEntry) (content : Bytes) (localAliases : Finset Bytes)
    (aliasesByNormalizedValue : Finmap fun _ : Bytes => Bytes) (aliases : List Bytes) :
    lintAliases { entry with content } localAliases aliasesByNormalizedValue aliases =
      lintAliases entry localAliases aliasesByNormalizedValue aliases := by
  induction aliases generalizing localAliases aliasesByNormalizedValue
  case nil => rfl
  case cons phrase rest hi =>
    simp only [lintAliases, hi]
    rfl

theorem lintSimilarAliases_content (entry : KnowledgeEntry) (content : Bytes) (aliases : List (Bytes × Bytes)) :
    lintSimilarAliases { entry with content } aliases = lintSimilarAliases entry aliases := by
  induction aliases
  case nil => rfl
  case cons left rest hi =>
    rw [lintSimilarAliases, hi]
    rfl

theorem lintKeywords_content (entry : KnowledgeEntry) (content : Bytes) (localKeywords : Finset Bytes)
    (keywords : List Bytes) :
    lintKeywords { entry with content } localKeywords keywords = lintKeywords entry localKeywords keywords := by
  induction keywords generalizing localKeywords
  case nil => rfl
  case cons keyword rest hi =>
    simp only [lintKeywords, hi]
    rfl

theorem lintRelated_rewrites (hk : knowledge.Rewrites R knowledge') (entry : KnowledgeEntry) (content : Bytes)
    (relatedIds : Finset Bytes) (related : List Bytes) :
    lintRelated knowledge entry relatedIds related =
      lintRelated knowledge' { entry with content } relatedIds related := by
  have hf (relatedId : Bytes) : (knowledge.findById relatedId).any (entry.id ∉ ·.related) =
      (knowledge'.findById relatedId).any (entry.id ∉ ·.related) := by
    have hf := hk.findById relatedId
    revert hf
    generalize knowledge.findById relatedId = found
    generalize knowledge'.findById relatedId = found'
    rintro (hr | _)
    case none => rfl
    case some =>
      cases hr
      rfl
  induction related generalizing relatedIds
  case nil => rfl
  case cons relatedId rest hi =>
    simp only [lintRelated, hi, hf]
    rfl

theorem lintEntries_rewrites (hk : knowledge.Rewrites SameLines knowledge')
    (aliasesByNormalizedValue : Finmap fun _ : Bytes => Bytes) {entries entries' : List KnowledgeEntry}
    (h : List.Forall₂ (KnowledgeEntry.Rewrites SameLines) entries entries') :
    lintEntries targets knowledge aliasesByNormalizedValue entries =
      lintEntries targets knowledge' aliasesByNormalizedValue entries' := by
  induction h generalizing aliasesByNormalizedValue
  case nil => rfl
  case cons entry entry' _ _ hr _ hi =>
    have hm : lintMarkdown targets knowledge.root entry = lintMarkdown targets knowledge.root entry' :=
      lintMarkdown_rewrites hr
    cases hr
    case intro content hr =>
      unfold lintEntries
      dsimp only at hm ⊢
      rw [hm, hi, lintAliases_content entry content, lintSimilarAliases_content entry content,
        lintKeywords_content entry content, lintRelated_rewrites hk entry content, hk.root]

theorem lint_rewrites (order : HashOrder Bytes) (concepts : ConceptDictionary)
    (hk : knowledge.Rewrites SameLines knowledge') :
    knowledge.lint targets order concepts = knowledge'.lint targets order concepts := by
  have hc := map_eq_of_rewrites (f := collectConcepts concepts) (fun _ _ => rfl) hk.entries
  have ha := map_eq_of_rewrites (f := (·.aliases.length)) (fun _ _ => rfl) hk.entries
  have hw := map_eq_of_rewrites (f := (·.keywords.length)) (fun _ _ => rfl) hk.entries
  simp only [KnowledgeBase.lint, lintEntries_rewrites hk ∅ hk.entries, hk.entries.length_eq, hk.root, ha, hw,
    List.flatMap_def, hc]

theorem body_rewrites {entry entry' : KnowledgeEntry} (color : Bool) (h : entry.Rewrites SameLines entry') :
    Renderer.body entry false color = Renderer.body entry' false color := by
  cases h
  case intro content h =>
    have he : entry.content.isEmpty = content.isEmpty := by
      rw [Bool.eq_iff_iff, List.isEmpty_iff, List.isEmpty_iff, h.eq_nil_iff]
    have hm := congrFun (renderMarkdown_of_sameLines <| sameLines_untitledContent h) color
    simp only [Renderer.body, Bool.not_false, Bool.true_and, Bool.false_eq_true, if_false, Bool.false_and, he, hm]

end

theorem DiffersIn.eq {text output output' : Bytes} (h : DiffersIn text text output output') : output = output' := by
  obtain ⟨_, _, rfl, rfl⟩ := h
  rfl

theorem Environment.answer_validate_rewrites {K : Type} [Field K] [LinearOrder K] (environment : Environment K)
    {knowledgeRoot : Bytes → KnowledgeRoot} {question : Question}
    (h : ∀ path, (environment.knowledgeRoot path).Rewrites SameLines (knowledgeRoot path))
    (hc : question.command = .validate) :
    (environment.withRoot knowledgeRoot).answer question = environment.answer question := by
  have hk := environment.loadKnowledge_rewrites question.options keepsBlank_sameLines h
  have hl : environment.loadConcepts question.options =
    (environment.withRoot knowledgeRoot).loadConcepts question.options := rfl
  unfold answer commandAnswer
  simp only [hc, hk.report, hl, lint_rewrites _ _ hk]
  rfl

-- No run can tell how the lines of content files end, as long as it does not show them as they are.
theorem line_endings_are_not_seen {K : Type} [Field K] [LinearOrder K] (environment : Environment K)
    (knowledgeRoot : Bytes → KnowledgeRoot)
    (h : ∀ path, (environment.knowledgeRoot path).Rewrites SameLines (knowledgeRoot path)) {arguments : List Bytes}
    (hp : ∀ options, parseCommandLine arguments = .ok options → options.command = .search ∨ options.command = .show →
      options.json = false ∧ options.raw = false) :
    (environment.withRoot knowledgeRoot).runApplication arguments = environment.runApplication arguments := by
  obtain ⟨_, ho⟩ | ⟨options, hp', hc, ho⟩ := runApplication_cases K arguments
  case inl => rw [ho, ho]
  case inr =>
    have hk := environment.loadKnowledge_rewrites options keepsBlank_sameLines h
    have ha := environment.answer_rewrites options.question keepsBlank_sameLines h
    have he := environment.errors_rewrites options.question keepsBlank_sameLines h
    rw [ho, ho, Environment.runOptions_eq, Environment.runOptions_eq, he]
    by_cases hv : options.command = .validate
    case pos =>
      rw [environment.answer_validate_rewrites h hv]
      rfl
    case neg =>
      have ⟨hexit, hout⟩ := ha.output environment.numerics options.presentation environment.terminalColorEnabled
        options.command hk (environment.answer_not_validated hv)
      refine Outcome.mk.injEq .. ▸ ⟨?_, rfl, hexit.symm⟩
      rcases hout with ho | ⟨_, hshows, entry, entry', hr, hd⟩
      case inl => exact ho.symm
      case inr =>
        have ⟨hj, hr'⟩ := hp options hp' (Environment.command_of_showsEntry hc hshows)
        have hsame : options.presentation.shown environment.terminalColorEnabled entry =
            options.presentation.shown environment.terminalColorEnabled entry' := by
          simp only [Presentation.shown, CliOptions.presentation, hj, hr', Bool.false_eq_true, if_false]
          exact body_rewrites _ hr.rewrites
        exact (hsame ▸ hd).eq.symm

theorem Written.runApplication_crlf : (environment <| ascii "# Copying\r\n\r\nUse cp.\r\n").runApplication
      [ascii "copy", ascii "file"] =
    (environment <| ascii "# Copying\n\nUse cp.\n").runApplication [ascii "copy", ascii "file"] := by
  have h : SameLines (ascii "# Copying\n\nUse cp.\n") (ascii "# Copying\r\n\r\nUse cp.\r\n") :=
    sameLines_crlf (by decide)
  refine line_endings_are_not_seen (environment <| ascii "# Copying\n\nUse cp.\n")
    (fun _ => root <| ascii "# Copying\r\n\r\nUse cp.\r\n") (fun _ => rewrites h) ?_
  intro options hp _
  cases hp
  decide

end Howlinux
