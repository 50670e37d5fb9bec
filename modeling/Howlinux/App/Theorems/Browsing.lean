import Howlinux.App.Theorems.Options
import Howlinux.App.Theorems.Presentation
import Howlinux.Knowledge.Theorems.Related
import Howlinux.Search.Theorems.Aliases

open Bytes

namespace Howlinux

-- The entry with an id, asked for in the way that something else was asked for.
def CliOptions.showing (options : CliOptions) (entryId : Bytes) : CliOptions :=
  { options with command := .show, query := [], entryId }

theorem CliOptions.Expressible.showing {options : CliOptions} (h : options.Expressible)
    (hc : options.command = .search ∨ options.command = .list) (entryId : Bytes) :
    (options.showing entryId).Expressible where
  wellFormed     := h.wellFormed.of_limit_eq rfl
  implicit       := h.implicit
  explicit hx hn := by
    have := h.explicit hx hn
    simp [this] at hc
  rawOrJson hr hj := by
    have := h.rawOrJson hr hj
    rcases hc with hc | hc <;> simp [hc] at this
  query _        := rfl
  entryId hs     := absurd rfl hs

namespace KnowledgeBase

variable (knowledge : KnowledgeBase)

-- The ids that there is an entry for.
def Lists (id : Bytes) : Prop :=
  ∃ entry ∈ knowledge.entries, entry.id = id

-- The step from an entry to one of those it names as related.
def Links (id relatedId : Bytes) : Prop :=
  ∃ entry ∈ knowledge.entries, entry.id = id ∧ relatedId ∈ entry.related

end KnowledgeBase

namespace Environment

variable {K : Type} [Field K] [LinearOrder K] (environment : Environment K) {arguments : List Bytes}
  {options : CliOptions} {entryId : Bytes}

-- The knowledge base and the concepts that a command needs have been found.
structure Ready (question : Question) : Prop where
  rootAvailable : (environment.loadKnowledge question.options).report.rootAvailable
  usable        : (environment.loadConcepts question.options).report.usable

variable {environment}

theorem Ready.answer {question : Question} (h : environment.Ready question) :
    environment.answer question = environment.commandAnswer (environment.loadKnowledge question.options)
      (environment.loadConcepts question.options) question := by
  rw [Environment.answer]
  simp [h.rootAvailable, h.usable]

-- Every other run ends in a configuration error.
theorem ready_of_exitCode {question : Question}
    (h : (environment.answer question).exitCode ≠ kConfigurationError) : environment.Ready question := by
  rw [Environment.answer] at h
  split at h
  case isTrue      => exact absurd rfl h
  case isFalse hr  =>
    split at h
    case isTrue     => exact absurd rfl h
    case isFalse hu => exact ⟨by simpa using hr, by simpa using hu⟩

theorem ready_of_success (hp : parseCommandLine arguments = .ok options) (hh : options.command ≠ .help)
    (hv : options.command ≠ .version) (hz : (environment.runApplication arguments).exitCode = kSuccess) :
    environment.Ready options.question :=
  ready_of_exitCode fun hc => by
    rw [environment.runApplication_eq hp hh hv, runOptions_eq] at hz
    exact absurd (hc.symm.trans hz) (by decide)

theorem runApplication_showing (h : options.Expressible)
    (hc : options.command = .search ∨ options.command = .list) :
    environment.runApplication (options.showing entryId).arguments =
      environment.runOptions (options.showing entryId) :=
  environment.runApplication_eq (parseCommandLine_arguments <| h.showing hc entryId) (by simp [CliOptions.showing])
    (by simp [CliOptions.showing])

-- What is shown of an entry, if there is one.
theorem Ready.answer_showing (h : environment.Ready options.question) :
    let knowledge := environment.loadKnowledge options
    environment.answer (options.showing entryId).question =
      match knowledge.findById entryId with
      | none       => Answer.unknown entryId
      | some entry => Answer.found knowledge entry := by
  have hs : environment.Ready (options.showing entryId).question := ⟨h.rootAvailable, h.usable⟩
  rw [hs.answer, commandAnswer]
  rfl

omit [Field K] [LinearOrder K] in
theorem errors_showing (hc : options.command ≠ .validate) :
    environment.errors (options.showing entryId).question = environment.errors options.question := by
  have hs : (options.showing entryId).question.options.command ≠ .validate := by
    simp [CliOptions.showing, CliOptions.question, Question.options]
  have hq : options.question.options.command ≠ .validate := hc
  unfold errors loadErrors
  simp only [hs, hq, if_false]
  rfl

-- A confident ranking has an entry of the knowledge base at its front.
theorem mem_entries_of_selected [IsStrictOrderedRing K] {knowledge : KnowledgeBase} {concepts : ConceptDictionary}
    {text : Bytes} {selected : SearchResult K}
    (h : selected ∈ (environment.engine knowledge concepts).ranking
      ((environment.engine knowledge concepts).queryProcessor.process text)) :
    selected.entry ∈ knowledge.entries := by
  have hn := isNormal_process (environment.engine knowledge concepts).queryProcessor text
  have hm := ((SearchEngine.mem_ranking hn rfl).mp h).left
  have he : (environment.engine knowledge concepts).knowledge.entries = knowledge.entries := rfl
  rw [← he, ← SearchEngine.map_entry_allResults]
  exact List.mem_map_of_mem hm

end Environment

-- A machine whose knowledge base has one entry.
open Environment in
-- A confident search shows its entry in the same way in which `show` does, and a ranking after it if it
-- is asked to explain itself.
theorem confident_search_shows {K : Type} [Field K] [LinearOrder K] [IsStrictOrderedRing K]
    (environment : Environment K) {arguments : List Bytes} {options : CliOptions}
    (hp : parseCommandLine arguments = .ok options) (hs : options.command = .search)
    (hz : (environment.runApplication arguments).exitCode = kSuccess)
    (hg : ∀ value, environment.numerics.isFinite value → value ≠ 0 →
      Json.IsNumber (environment.numerics.general value)) :
    let search := environment.runApplication arguments
    ∃ entry ∈ (environment.loadKnowledge options).entries,
      let shown := environment.runApplication (options.showing entry.id).arguments
      shown.exitCode = kSuccess ∧ shown.error = search.error ∧
      (options.json = false → ∃ explanation, search.output = shown.output ++ explanation ∧
        (options.explain = false → explanation = [])) ∧
      (options.json → ∃ found document, WritesLine found search.output ∧ WritesLine document shown.output ∧
        found.member "entry" = document.member "entry") := by
  intro search
  have hr : environment.runApplication arguments = environment.runOptions options :=
    environment.runApplication_eq hp (by simp [hs]) (by simp [hs])
  have he := expressible_of_parseCommandLine hp
  have hready : environment.Ready options.question :=
    ready_of_success hp (by simp [hs]) (by simp [hs]) hz
  let knowledge := environment.loadKnowledge options
  let engine    := environment.engine knowledge (environment.loadConcepts options)
  let query     := engine.queryProcessor.process options.query
  have ha : environment.answer options.question = .ranked knowledge query (engine.ranking query) := by
    rw [hready.answer, commandAnswer, show options.question.command = .search from hs]
    rfl
  have hd : (({} : ResultPolicy K).decide (engine.ranking query)).status = .confident := by
    rw [hr, runOptions_eq, ha] at hz
    simpa [Answer.exitCode, kSuccess, kNoConfidentResult] using hz
  obtain ⟨front, rest, hf, hsel⟩ := ResultPolicy.selected_of_confident hd
  have hm : front.entry ∈ knowledge.entries := mem_entries_of_selected (hf ▸ List.mem_cons_self)
  have hshown : environment.answer (options.showing front.entry.id).question = .found knowledge front.entry := by
    rw [hready.answer_showing, findById_eq_some_iff.mpr ⟨hm, rfl⟩]
  refine ⟨front.entry, hm, ?_⟩
  rw [runApplication_showing he (.inl hs), runOptions_eq, hshown, errors_showing (by simp [hs])]
  dsimp only [search]
  rw [hr, runOptions_eq, ha]
  refine ⟨rfl, rfl, fun hj => ?text, fun hj => ?json⟩
  case text =>
    refine ⟨if options.explain then Renderer.explain environment.numerics
      (Answer.response options.presentation query (engine.ranking query)) options.limit else [], ?_,
      fun hx => by simp [hx]⟩
    have hj' : (options.showing front.entry.id).presentation.json = false := hj
    simp only [Answer.output, hj', show options.presentation.json = false from hj, Bool.false_eq_true, if_false,
      Answer.text, hd, hsel]
    rfl
  case json =>
    have hj' : (options.showing front.entry.id).presentation.json = true := hj
    simp only [Answer.output, hj', show options.presentation.json = true from hj, if_true]
    refine ⟨_, _, Answer.writes_document _ _ _ hg, Answer.writes_document _ _ _ hg, ?_⟩
    rw [Answer.document, Answer.document]
    exact congrArg some <| selected_of_confident hd hsel

theorem Stocked.search_shows :
    let search := environment.runApplication [ascii "copy", ascii "file"]
    ∃ entry ∈ (environment.loadKnowledge { query := ascii "copy file" }).entries,
      let shown := environment.runApplication
        (CliOptions.showing { query := ascii "copy file" } entry.id).arguments
      shown.exitCode = kSuccess ∧ shown.error = search.error :=
  have hp : parseCommandLine [ascii "copy", ascii "file"] = .ok { query := ascii "copy file" } := rfl
  have hg : ∀ value, environment.numerics.isFinite value → value ≠ 0 →
    Json.IsNumber (environment.numerics.general value) := fun value _ _ => isNumber_rational_general value
  have ⟨entry, hm, hz, he, _⟩ := confident_search_shows environment hp rfl (by decide +kernel) hg
  ⟨entry, hm, hz, he⟩

-- The entries are listed in the order in which they are kept.
theorem sortedEntries_eq (knowledge : KnowledgeBase) : sortedEntries knowledge = knowledge.entries := by
  refine List.Pairwise.insertionSort_eq <| knowledge.sorted.imp fun {left right} h => ?_
  simp [sortedBefore, h.ne', h.not_gt]

-- A list of the knowledge base names, in increasing order, exactly the ids that `show` finds an entry for.
theorem list_names_shown {K : Type} [Field K] [LinearOrder K] (environment : Environment K)
    {arguments : List Bytes} {options : CliOptions} (hp : parseCommandLine arguments = .ok options)
    (hl : options.command = .list) (hz : (environment.runApplication arguments).exitCode = kSuccess) :
    let listed := environment.runApplication arguments
    ∃ entries : List KnowledgeEntry, entries.Pairwise (·.id < ·.id) ∧
      (options.json = false → ∃ rows : List Bytes,
        listed.output = row "Knowledge entries: " (decimal entries.length) ++ rows.flatten ∧
        (entries ≠ [] → List.Forall₂ (fun entry line => line = row "  - "
          (humanSafe entry.title ++ ascii " (ID: " ++ humanSafe entry.id ++ ascii ")" ++
            if entry.category.isEmpty then [] else ascii " [" ++ humanSafe entry.category ++ ascii "]"))
          entries rows)) ∧
      (options.json → ∃ document, WritesLine document listed.output ∧
        document.member "entries" = some (.array <| entries.map Document.summary)) ∧
      ∀ id,
        let shown := environment.runApplication (options.showing id).arguments
        shown.error = listed.error ∧ shown.exitCode ≤ kNoConfidentResult ∧
        (shown.exitCode = kSuccess ↔ ∃ entry ∈ entries, entry.id = id) ∧
        ∀ entry ∈ entries, entry.id = id → options.json → WritesLine (Document.shown entry) shown.output := by
  intro listed
  have hr : environment.runApplication arguments = environment.runOptions options :=
    environment.runApplication_eq hp (by simp [hl]) (by simp [hl])
  have he := expressible_of_parseCommandLine hp
  have hready : environment.Ready options.question :=
    Environment.ready_of_success hp (by simp [hl]) (by simp [hl]) hz
  let knowledge := environment.loadKnowledge options
  have ha : environment.answer options.question = .listed knowledge := by
    rw [hready.answer, Environment.commandAnswer, show options.question.command = .list from hl]
    rfl
  dsimp only [listed]
  rw [hr, Environment.runOptions_eq, ha]
  refine ⟨knowledge.entries, knowledge.sorted, fun hj => ?text, fun hj => ?json, fun id => ?shown⟩
  case text =>
    simp only [Answer.output, show options.presentation.json = false from hj, Bool.false_eq_true, if_false,
      Answer.text, Renderer.list, sortedEntries_eq]
    split
    case isTrue hn =>
      exact ⟨[text "No knowledge entries are loaded."], by simp, fun h => absurd (List.isEmpty_iff.mp hn) h⟩
    case isFalse =>
      refine ⟨_, congrArg _ <| List.flatMap_def, fun _ => ?_⟩
      exact List.forall₂_map_right_iff.mpr <| List.forall₂_same.mpr fun entry _ => rfl
  case json =>
    simp only [Answer.output, show options.presentation.json = true from hj, if_true, Answer.json]
    refine ⟨_, Renderer.writes_list, ?_⟩
    rw [Document.list, sortedEntries_eq]
    rfl
  case shown =>
    rw [Environment.runApplication_showing he (.inr hl), Environment.runOptions_eq, hready.answer_showing,
      Environment.errors_showing (by simp [hl])]
    refine ⟨rfl, ?_⟩
    cases hf : knowledge.findById id
    case none =>
      have hn : ¬∃ entry ∈ knowledge.entries, entry.id = id := by
        rintro ⟨entry, hm, he⟩
        rw [findById_eq_some_iff.mpr ⟨hm, he⟩] at hf
        contradiction
      exact ⟨le_rfl, iff_of_false Nat.one_ne_zero hn, fun entry hm he => absurd ⟨entry, hm, he⟩ hn⟩
    case some found =>
      obtain ⟨hm, hi⟩ := findById_eq_some_iff.mp hf
      refine ⟨Nat.zero_le _, iff_of_true rfl ⟨found, hm, hi⟩, fun entry hm' hi' hj => ?_⟩
      obtain rfl : found = entry := by
        rw [findById_eq_some_iff.mpr ⟨hm', hi'⟩] at hf
        exact (Option.some.inj hf).symm
      have hj' : (options.showing id).presentation.json = true := hj
      simp only [Answer.output, hj', if_true, Answer.json]
      exact Renderer.writes_shown

theorem Stocked.list_names_shown_both :
    let listed := environment.runApplication [ascii "list"]
    ∃ entries : List KnowledgeEntry, entries.Pairwise (·.id < ·.id) ∧
      (∃ entry ∈ entries, entry.id = ascii "copy-file") ∧ (∃ entry ∈ entries, entry.id = ascii "copy-branch") ∧ ∀ id,
      let shown := environment.runApplication (CliOptions.showing { command := .list } id).arguments
      shown.error = listed.error ∧ (shown.exitCode = kSuccess ↔ ∃ entry ∈ entries, entry.id = id) := by
  intro listed
  have hp : parseCommandLine [ascii "list"] = .ok { command := .list } := rfl
  obtain ⟨entries, hs, _, _, hi⟩ := list_names_shown environment hp rfl (by decide +kernel)
  have hf : ∃ entry ∈ entries, entry.id = ascii "copy-file" :=
    (hi <| ascii "copy-file").right.right.left.mp (by decide +kernel)
  have hb : ∃ entry ∈ entries, entry.id = ascii "copy-branch" :=
    (hi <| ascii "copy-branch").right.right.left.mp (by decide +kernel)
  exact ⟨entries, hs, hf, hb, fun id => ⟨(hi id).left, (hi id).right.right.left⟩⟩

section

variable {parse : Bytes → YamlOutcome} {directory : Bytes} {outcome : KnowledgeRoot}
  {targets : LinkTargets} {order : HashOrder Bytes} {concepts : ConceptDictionary}

-- The load finds no id that leads nowhere, and the lint none that does not lead back.
theorem KnowledgeBase.Links.symm {knowledge : KnowledgeBase} {id relatedId : Bytes} (self : KnowledgeBase)
    (hk : knowledge = self.load parse directory outcome) (hd : knowledge.report.diagnostics = [])
    (hl : (knowledge.lint targets order concepts).diagnostics = []) (h : knowledge.Links id relatedId) :
    knowledge.Links relatedId id := by
  obtain ⟨entry, he, rfl, hr⟩ := h
  have hload : relatedDiagnostics knowledge.idLookup entry = [] := List.eq_nil_iff_forall_not_mem.mpr fun d hm => by
    subst hk
    have := (mem_diagnostics_load_iff.mpr <| List.mem_flatMap.mpr ⟨entry, he, hm⟩).left
    simp [hd] at this
  have hlint : lintRelated knowledge entry ∅ entry.related = [] :=
    List.eq_nil_iff_forall_not_mem.mpr fun d hm => by
      have := (@mem_diagnostics_lint_iff knowledge d targets order concepts).mpr <|
        List.mem_flatMap.mpr ⟨entry, he, hm⟩
      simp [hl] at this
  have hn : ∀ relatedId ∈ entry.related, ∃ other ∈ knowledge.entries, other.id = relatedId := by
    simpa [relatedDiagnostics, mem_idLookup] using hload
  obtain ⟨other, ho, hi⟩ := hn relatedId hr
  exact ⟨other, ho, hi, (lintRelated_eq_nil_iff.mp hlint).right.right.right relatedId hr other <|
    findById_eq_some_iff.mpr ⟨ho, hi⟩⟩

end

namespace Environment

section

variable {K : Type} [Field K] [LinearOrder K] {environment : Environment K} {options options' : CliOptions}

omit [Field K] [LinearOrder K] in
theorem knowledgePath_congr (hk : options'.knowledgePath = options.knowledgePath)
    (hx : options'.knowledgePathExplicit = options.knowledgePathExplicit) :
    environment.knowledgePath options' = environment.knowledgePath options := by
  simp only [knowledgePath, resolveKnowledgePath, hk, hx]

theorem exitCode_commandAnswer_le {knowledge : KnowledgeBase} {concepts : ConceptDictionary}
    {question : Question} :
    (environment.commandAnswer knowledge concepts question).exitCode ≤ kNoConfidentResult := by
  have hi (p : Prop) [Decidable p] : (if p then kSuccess else kNoConfidentResult) ≤ kNoConfidentResult := by
    split <;> simp [kSuccess, kNoConfidentResult]
  have hi' (p : Prop) [Decidable p] : (if p then kNoConfidentResult else kSuccess) ≤ kNoConfidentResult := by
    split <;> simp [kSuccess, kNoConfidentResult]
  unfold commandAnswer
  cases question.command
  case validate => exact hi' _
  case list     => exact Nat.zero_le _
  case «show»   =>
    dsimp only
    split
    case h_1 => exact le_rfl
    case h_2 => exact Nat.zero_le _
  all_goals exact hi _

theorem exitCode_commandAnswer_show {knowledge : KnowledgeBase} {concepts : ConceptDictionary}
    {question : Question} (h : question.command = .show) :
    (environment.commandAnswer knowledge concepts question).exitCode = kSuccess ↔
      knowledge.Lists question.entryId := by
  rw [commandAnswer, h]
  cases hf : knowledge.findById question.entryId
  case none =>
    refine iff_of_false Nat.one_ne_zero fun ⟨entry, hm, hi⟩ => ?_
    rw [findById_eq_some_iff.mpr ⟨hm, hi⟩] at hf
    contradiction
  case some entry => exact iff_of_true rfl ⟨entry, findById_eq_some_iff.mp hf⟩

-- A base without diagnostics leaves nothing to complain about, as long as it has entries.
omit [Field K] [LinearOrder K] in
theorem errors_eq_nil (hr : environment.Ready options.question)
    (hk : (environment.loadKnowledge options).report.diagnostics = [])
    (hc : (environment.loadConcepts options).report.diagnostics = [])
    (hn : (environment.loadKnowledge options).entries ≠ []) : environment.errors options.question = [] := by
  have hr : (environment.loadKnowledge options).report.rootAvailable := hr.rootAvailable
  simp [errors, loadErrors, hr, hk, hc, hn, emitDiagnostics]

end

end Environment

-- A base that validates can be walked along the related ids for any number of steps, and back again,
-- without an error.
theorem valid_base_is_navigable {K : Type} [Field K] [LinearOrder K] (environment : Environment K)
    {arguments : List Bytes} {options : CliOptions} (hp : parseCommandLine arguments = .ok options)
    (hv : options.command = .validate) (hz : (environment.runApplication arguments).exitCode = kSuccess) :
    let knowledge := environment.loadKnowledge options
    (∀ id relatedId, knowledge.Links id relatedId → knowledge.Links relatedId id) ∧
    (∀ id id', knowledge.Lists id → Relation.ReflTransGen knowledge.Links id id' → knowledge.Lists id') ∧
    ∀ arguments' options', parseCommandLine arguments' = .ok options' →
      options'.knowledgePath = options.knowledgePath →
      options'.knowledgePathExplicit = options.knowledgePathExplicit →
      let outcome := environment.runApplication arguments'
      outcome.exitCode ≤ kNoConfidentResult ∧ (knowledge.entries ≠ [] → outcome.error = []) ∧
      (options'.command = .show → (outcome.exitCode = kSuccess ↔ knowledge.Lists options'.entryId)) := by
  intro knowledge
  have hr : environment.runApplication arguments = environment.runOptions options :=
    environment.runApplication_eq hp (by simp [hv]) (by simp [hv])
  have hready : environment.Ready options.question :=
    Environment.ready_of_success hp (by simp [hv]) (by simp [hv]) hz
  let concepts := environment.loadConcepts options
  let lint     := knowledge.lint environment.targets environment.order concepts
  have ha : environment.answer options.question = .validated knowledge.report concepts.report lint := by
    rw [hready.answer, Environment.commandAnswer, show options.question.command = .validate from hv]
    rfl
  have hi : (knowledge.report.diagnostics = [] ∧ concepts.report.usable ∧ concepts.report.diagnostics = []) ∧
      lint.diagnostics = [] := by
    rw [hr, Environment.runOptions_eq, ha] at hz
    simpa [Answer.exitCode, kSuccess, kNoConfidentResult, KnowledgeLoadReport.hasIssues,
      ConceptLoadReport.hasIssues, KnowledgeLintReport.hasIssues] using hz
  obtain ⟨⟨hk, -, hc⟩, hl⟩ := hi
  have hsymm : ∀ id relatedId, knowledge.Links id relatedId → knowledge.Links relatedId id :=
    fun id relatedId h => h.symm default rfl hk hl
  refine ⟨hsymm, fun id id' hid hw => ?walk, fun arguments' options' hp' hpath hx => ?outcome⟩
  case walk =>
    induction hw
    case refl => exact hid
    case tail hs _ =>
      obtain ⟨entry, hm, hi, _⟩ := hsymm _ _ hs
      exact ⟨entry, hm, hi⟩
  case outcome =>
    have hready' : environment.Ready options'.question := by
      refine ⟨?_, ?_⟩
      · rw [Environment.loadKnowledge_question, Environment.loadKnowledge, Environment.knowledgePath_congr hpath hx]
        exact hready.rootAvailable
      · rw [Environment.loadConcepts_question, Environment.loadConcepts, Environment.knowledgePath_congr hpath hx]
        exact hready.usable
    have hknowledge : environment.loadKnowledge options' = knowledge := by
      rw [Environment.loadKnowledge, Environment.knowledgePath_congr hpath hx]
      rfl
    have hconcepts : environment.loadConcepts options' = concepts := by
      rw [Environment.loadConcepts, Environment.knowledgePath_congr hpath hx]
      rfl
    by_cases hh : options'.command = .help ∨ options'.command = .version
    case pos =>
      rw [Environment.runApplication, hp']
      rcases hh with hh | hh <;> simp [hh, kSuccess]
    case neg =>
      obtain ⟨hh, hv⟩ := not_or.mp hh
      rw [environment.runApplication_eq hp' hh hv, Environment.runOptions_eq, hready'.answer]
      refine ⟨Environment.exitCode_commandAnswer_le, fun hn => ?_, fun hs => ?_⟩
      · exact Environment.errors_eq_nil hready' (hknowledge ▸ hk) (hconcepts ▸ hc) (hknowledge ▸ hn)
      · rw [← hknowledge]
        exact Environment.exitCode_commandAnswer_show hs

-- The two entries lead to each other.
theorem Stocked.valid_base_is_navigable_related :
    let knowledge := environment.loadKnowledge { command := .validate }
    let shown (id : String) := environment.runApplication [ascii "show", ascii id]
    (environment.runApplication [ascii "validate"]).exitCode = kSuccess ∧
    knowledge.Links (ascii "copy-file") (ascii "copy-branch") ∧
    knowledge.Links (ascii "copy-branch") (ascii "copy-file") ∧
    (∀ id, Relation.ReflTransGen knowledge.Links (ascii "copy-file") id → knowledge.Lists id) ∧
    (shown "copy-branch").exitCode = kSuccess ∧ (shown "copy-branch").error = [] ∧
    (shown "copy-tape").exitCode = kNoConfidentResult ∧ (shown "copy-tape").error = [] := by
  intro knowledge shown
  have hp : parseCommandLine [ascii "validate"] = .ok { command := .validate } := rfl
  have hz : (environment.runApplication [ascii "validate"]).exitCode = kSuccess := by decide +kernel
  obtain ⟨hsymm, hwalk, hrun⟩ := valid_base_is_navigable environment hp rfl hz
  have hb : parseCommandLine [ascii "show", ascii "copy-branch"] =
    .ok { command := .show, entryId := ascii "copy-branch" } := rfl
  have ht : parseCommandLine [ascii "show", ascii "copy-tape"] =
    .ok { command := .show, entryId := ascii "copy-tape" } := rfl
  obtain ⟨_, heb, hsb⟩ := hrun _ _ hb rfl rfl
  obtain ⟨hxt, het, hst⟩ := hrun _ _ ht rfl rfl
  have hl : knowledge.Links (ascii "copy-file") (ascii "copy-branch") :=
    show ∃ entry ∈ knowledge.entries, entry.id = ascii "copy-file" ∧ ascii "copy-branch" ∈ entry.related by
      decide +kernel
  have hnt : ¬∃ entry ∈ knowledge.entries, entry.id = ascii "copy-tape" := by decide +kernel
  have hn : knowledge.entries ≠ [] := by decide +kernel
  have hlf : knowledge.Lists (ascii "copy-file") := by
    obtain ⟨entry, hm, hi, _⟩ := hl
    exact ⟨entry, hm, hi⟩
  have hw (id : Bytes) (h : Relation.ReflTransGen knowledge.Links (ascii "copy-file") id) : knowledge.Lists id :=
    hwalk _ id hlf h
  have hx : (shown "copy-tape").exitCode ≠ kSuccess := mt (hst rfl).mp hnt
  exact ⟨hz, hl, hsymm _ _ hl, hw, (hsb rfl).mpr <| hw _ <| .single hl, heb hn,
    Nat.le_antisymm hxt <| Nat.one_le_iff_ne_zero.mpr hx, het hn⟩

end Howlinux
