import Howlinux.App.Theorems.Browsing
import Howlinux.Library.Unambiguous

open Bytes
open Json (named)

namespace Howlinux

-- A line is the line of one value only.
theorem WritesLine.unique {value value' : Json} {output : Bytes} (h : WritesLine value output)
    (h' : WritesLine value' output) : value = value' := by
  obtain ⟨text, he, hw⟩ := h
  obtain ⟨text', he', hw'⟩ := h'
  obtain rfl : text = text' := List.append_cancel_right (he.symm.trans he')
  exact hw.isText.unique hw'.isText

namespace Document

-- A member of a document that is set.
def flag (name : String) (document : Json) : Bool :=
  match document.member name with
  | some (.bool value) => value
  | _                  => false

-- The exit code that a document tells. Diagnostics on their own are those of a configuration error.
def exitCode (document : Json) : ℕ :=
  match document.member "diagnostics", document.member "knowledge", document.member "concepts" with
  | some (.array diagnostics), some knowledge, some concepts =>
    if !flag "root_available" knowledge || !flag "usable" concepts then kConfigurationError
    else if diagnostics.isEmpty then kSuccess else kNoConfidentResult
  | some _, _, _ => kConfigurationError
  | none, _, _   =>
    match document.member "status" with
    | some (.string status) =>
      if status = "ok".toList ∨ status = "confident".toList then kSuccess else kNoConfidentResult
    | _ => kNoConfidentResult

section

variable {knowledgeReport : KnowledgeLoadReport} {conceptReport : ConceptLoadReport}
  {lintReport : KnowledgeLintReport}

theorem exitCode_validation : exitCode (validation knowledgeReport conceptReport lintReport) =
    if !knowledgeReport.rootAvailable || !conceptReport.usable then kConfigurationError
    else if knowledgeReport.hasIssues || conceptReport.hasIssues || lintReport.hasIssues then kNoConfidentResult
    else kSuccess := by
  have he : exitCode (validation knowledgeReport conceptReport lintReport) =
      if !knowledgeReport.rootAvailable || !conceptReport.usable then kConfigurationError
      else if ((Renderer.scopedDiagnostics knowledgeReport conceptReport lintReport).map
        fun item => diagnostic item.1 item.2).isEmpty then kSuccess else kNoConfidentResult := rfl
  rw [he]
  have hs : ((Renderer.scopedDiagnostics knowledgeReport conceptReport lintReport).map
      fun item => diagnostic item.1 item.2).isEmpty =
      (knowledgeReport.diagnostics.isEmpty && conceptReport.diagnostics.isEmpty &&
        lintReport.diagnostics.isEmpty) := by
    rw [Bool.eq_iff_iff]
    simp [Renderer.scopedDiagnostics, and_assoc]
  cases hu : conceptReport.usable
  case false => simp
  case true  =>
    rw [hs]
    simp only [KnowledgeLoadReport.hasIssues, ConceptLoadReport.hasIssues, KnowledgeLintReport.hasIssues, hu]
    cases knowledgeReport.diagnostics.isEmpty <;> cases conceptReport.diagnostics.isEmpty <;>
      cases lintReport.diagnostics.isEmpty <;> rfl

end

end Document

section

variable {K : Type} [Field K] [LinearOrder K] {environment : Environment K}

theorem Document.exitCode_search {numerics : Numerics K} {response : SearchResponse K} {decision : PolicyDecision K}
    {limit : ℕ} {explain : Bool} : exitCode (search numerics response decision limit explain) =
      if decision.status = .confident then kSuccess else kNoConfidentResult := by
  have he : exitCode (search numerics response decision limit explain) =
      match some (string <| statusName decision.status) with
      | some (.string status) =>
        if status = "ok".toList ∨ status = "confident".toList then kSuccess else kNoConfidentResult
      | _ => kNoConfidentResult := rfl
  rw [he]
  cases decision.status
  case confident => rw [show statusName .confident = ascii "confident" from rfl, string_ascii rfl]; rfl
  case uncertain => rw [show statusName .uncertain = ascii "uncertain" from rfl, string_ascii rfl]; rfl
  case noMatch => rw [show statusName .noMatch = ascii "no_match" from rfl, string_ascii rfl]; rfl

section

variable {command : CliCommand} {limit : ℕ} {explain : Bool} {numerics : Numerics K}

-- An answer agrees with the reports in it on what could be loaded.
def Answer.Agrees : Answer K → Prop
  | unavailable report                        => report.rootAvailable = false
  | unusable _ conceptReport                  => conceptReport.usable = false
  | validated knowledgeReport conceptReport _ => knowledgeReport.rootAvailable ∧ conceptReport.usable
  | _                                         => True

theorem Environment.agrees_answer (question : Question) : (environment.answer question).Agrees := by
  unfold answer
  dsimp only
  split
  case isTrue hr => exact (Bool.not_eq_true' _).mp hr
  case isFalse hr =>
    split
    case isTrue hu => exact (Bool.not_eq_true' _).mp hu
    case isFalse hu =>
      unfold commandAnswer
      cases question.command
      case validate => exact ⟨by simpa using hr, by simpa using hu⟩
      case «show»   =>
        dsimp only
        split <;> exact trivial
      all_goals exact trivial

-- The document of an answer tells the exit code of the run.
theorem Answer.exitCode_document {answer : Answer K} (h : answer.Agrees) :
    Document.exitCode (answer.document numerics command limit explain) = answer.exitCode := by
  have ho (status : String) (members : List (List Char × Json)) (hs : status.toList.all Json.isPlain)
      (hd : (Json.object (named "status" (Document.string <| ascii status) :: members)).member "diagnostics" = none) :
      Document.exitCode (.object <| named "status" (Document.string <| ascii status) :: members) =
        if status.toList = "ok".toList ∨ status.toList = "confident".toList then kSuccess
        else kNoConfidentResult := by
    rw [Document.string_ascii hs] at hd ⊢
    unfold Document.exitCode
    rw [hd]
    rfl
  unfold document
  cases answer
  case unavailable report =>
    dsimp only [exitCode]
    split
    case isTrue  => rw [Document.exitCode_validation, show report.rootAvailable = false from h]; rfl
    case isFalse => rfl
  case unusable _ conceptReport =>
    dsimp only [exitCode]
    split
    case isTrue  => rw [Document.exitCode_validation, show conceptReport.usable = false from h]; simp
    case isFalse => rfl
  case validated =>
    rw [Document.exitCode_validation, h.left, h.right]
    rfl
  case listed    => exact ho "ok" _ rfl rfl
  case found     => exact ho "ok" _ rfl rfl
  case unknown   => exact ho "not_found" _ rfl rfl
  case ranked    => exact Document.exitCode_search

end

-- A run that is asked for JSON prints exactly one document, and a reader of it needs no exit code.
theorem json_tells_exitCode {arguments : List Bytes} {options : CliOptions}
    (hp : parseCommandLine arguments = .ok options) (hj : options.json) (hh : options.command ≠ .help)
    (hv : options.command ≠ .version) (hg : ∀ value, environment.numerics.isFinite value → value ≠ 0 →
      Json.IsNumber (environment.numerics.general value)) :
    let outcome := environment.runApplication arguments
    ∃ document, (∀ other, WritesLine other outcome.output ↔ other = document) ∧
      Document.exitCode document = outcome.exitCode := by
  intro outcome
  have hr : outcome = _ := (environment.runApplication_eq hp hh hv).trans (environment.runOptions_eq options)
  have hw := Answer.writes_document options.command (environment.answer options.question) options.presentation hg
  have ho : outcome.output =
      (environment.answer options.question).json environment.numerics options.presentation options.command := by
    rw [hr]
    simp [Answer.output, show options.presentation.json = true from hj]
  rw [← ho] at hw
  refine ⟨_, fun other => ⟨fun h => h.unique hw, fun h => h ▸ hw⟩, ?_⟩
  rw [Answer.exitCode_document (environment.agrees_answer options.question), hr]

end

theorem Stocked.json_tells_exitCode_copy :
    let outcome := environment.runApplication (["--json", "copy", "file"].map ascii)
    outcome.exitCode = kSuccess ∧
    ∃ document, (∀ other, WritesLine other outcome.output ↔ other = document) ∧
      Document.exitCode document = outcome.exitCode := by
  have hp : parseCommandLine (["--json", "copy", "file"].map ascii) =
    .ok { json := true, query := ascii "copy file" } := rfl
  exact ⟨by decide +kernel, json_tells_exitCode hp rfl (by decide) (by decide) fun value _ _ =>
    isNumber_rational_general value⟩


-- What a JSON document keeps of an entry. The id is the one that the entry is asked for with.
def KnowledgeEntry.published (entry : KnowledgeEntry) : KnowledgeEntry where
  id              := entry.id
  title           := Utf8.repair entry.title
  type            := Utf8.repair entry.type
  command         := Utf8.repair entry.command
  aliases         := entry.aliases.map Utf8.repair
  keywords        := entry.keywords.map Utf8.repair
  related         := entry.related.map Utf8.repair
  intents         := entry.intents.map Utf8.repair
  difficulty      := Utf8.repair entry.difficulty
  platforms       := entry.platforms.map Utf8.repair
  tags            := entry.tags.map Utf8.repair
  examples        := entry.examples.map Utf8.repair
  category        := Utf8.repair entry.category
  sourceDirectory := []
  content         := Utf8.repair entry.content

section

variable {entry entry' : KnowledgeEntry} {values values' : List Bytes}

theorem Document.string_eq_iff {value value' : Bytes} :
    string value = string value' ↔ Utf8.repair value = Utf8.repair value' := by
  rw [string, string, Json.string.injEq, Utf8.repair_eq_iff]

theorem Document.strings_eq_iff : strings values = strings values' ↔
    values.map Utf8.repair = values'.map Utf8.repair := by
  rw [strings, strings, Json.array.injEq]
  induction values generalizing values'
  case nil => simp
  case cons value values hi =>
    cases values'
    case nil  => simp
    case cons => simp only [List.map_cons, List.cons.injEq, string_eq_iff, hi]

theorem Document.entry_eq_iff (hi : entry.id = entry'.id) :
    Document.entry entry = Document.entry entry' ↔ entry.published = entry'.published := by
  simp only [Document.entry, Json.object.injEq, named, List.cons.injEq, Prod.mk.injEq, true_and, and_true,
    string_eq_iff, strings_eq_iff, KnowledgeEntry.published, KnowledgeEntry.mk.injEq, hi]

-- Entries of valid UTF-8 are kept whole, but for the place where they are stored.
structure KnowledgeEntry.IsValid (entry : KnowledgeEntry) : Prop where
  strings : ∀ value ∈ [entry.title, entry.type, entry.command, entry.difficulty, entry.category, entry.content],
    Utf8.IsValid value
  lists   : ∀ values ∈ [entry.aliases, entry.keywords, entry.related, entry.intents, entry.platforms, entry.tags,
    entry.examples], ∀ value ∈ values, Utf8.IsValid value

theorem KnowledgeEntry.IsValid.published_eq (h : entry.IsValid) :
    entry.published = { entry with sourceDirectory := [] } := by
  have hl {values : List Bytes} (hv : ∀ value ∈ values, Utf8.IsValid value) : values.map Utf8.repair = values :=
    (List.map_congr_left fun value hm => (hv value hm).repair_eq).trans (List.map_id' _)
  obtain ⟨hs, hls⟩ := h
  simp only [List.forall_mem_cons] at hs hls
  simp [published, hs.1.repair_eq, hs.2.1.repair_eq, hs.2.2.1.repair_eq, hs.2.2.2.1.repair_eq,
    hs.2.2.2.2.1.repair_eq, hs.2.2.2.2.2.1.repair_eq, hl hls.1, hl hls.2.1, hl hls.2.2.1, hl hls.2.2.2.1,
    hl hls.2.2.2.2.1, hl hls.2.2.2.2.2.1, hl hls.2.2.2.2.2.2.1]

-- Two knowledge bases publish the same if every id finds the same in them.
theorem map_published_eq_iff {knowledge knowledge' : KnowledgeBase} :
    knowledge.entries.map (·.published) = knowledge'.entries.map (·.published) ↔
      ∀ id, (knowledge.findById id).map (·.published) = (knowledge'.findById id).map (·.published) := by
  have hsub {knowledge knowledge' : KnowledgeBase}
      (h : ∀ id, (knowledge.findById id).map (·.published) = (knowledge'.findById id).map (·.published)) :
      ∀ value ∈ knowledge.entries.map (·.published), value ∈ knowledge'.entries.map (·.published) := by
    intro value hv
    obtain ⟨entry, hm, rfl⟩ := List.mem_map.mp hv
    have he := h entry.id
    rw [findById_eq_some_iff.mpr ⟨hm, rfl⟩, Option.map_some] at he
    obtain ⟨entry', hf, hp⟩ := Option.map_eq_some_iff.mp he.symm
    exact hp ▸ List.mem_map_of_mem (findById_eq_some_iff.mp hf).left
  have hfound {knowledge knowledge' : KnowledgeBase} {id : Bytes} {entry : KnowledgeEntry}
      (h : knowledge.entries.map (·.published) = knowledge'.entries.map (·.published))
      (hf : knowledge.findById id = some entry) :
      (knowledge'.findById id).map (·.published) = some entry.published := by
    obtain ⟨hm, rfl⟩ := findById_eq_some_iff.mp hf
    obtain ⟨entry', hm', hp⟩ := List.mem_map.mp <| h ▸ List.mem_map_of_mem hm
    have hi : entry'.id = entry.id := (KnowledgeEntry.mk.inj hp).left
    rw [findById_eq_some_iff.mpr ⟨hm', hi⟩, Option.map_some, hp]
  have hs (knowledge : KnowledgeBase) : (knowledge.entries.map (·.published)).Pairwise (·.id < ·.id) :=
    List.pairwise_map.mpr knowledge.sorted
  constructor
  case mp =>
    intro h id
    cases hf : knowledge.findById id
    case some => rw [hfound h hf, Option.map_some]
    case none =>
      cases hf' : knowledge'.findById id
      case none => rfl
      case some =>
        have := hfound h.symm hf'
        simp [hf] at this
  case mpr =>
    intro h
    exact (hs knowledge).eq_of_mem_iff (hs knowledge') fun value => ⟨hsub h value, hsub (fun id => (h id).symm) value⟩

-- What `show` prints as JSON of what an id has found.
def Document.showing (id : Bytes) : Option KnowledgeEntry → Json
  | none       => notFound id
  | some entry => shown entry

theorem Document.showing_eq_iff {id : Bytes} {found found' : Option KnowledgeEntry}
    (h : ∀ entry ∈ found, entry.id = id) (h' : ∀ entry ∈ found', entry.id = id) :
    showing id found = showing id found' ↔ found.map (·.published) = found'.map (·.published) := by
  have hn (entry : KnowledgeEntry) : notFound id ≠ shown entry := by
    intro he
    have hs := congrArg (Json.member "status") he
    have ho : (notFound id).member "status" = some (string <| ascii "not_found") := rfl
    have ho' : (shown entry).member "status" = some (string <| ascii "ok") := rfl
    rw [ho, ho', string_ascii rfl, string_ascii rfl] at hs
    simp at hs
  cases found
  case none =>
    cases found'
    case none => simp
    case some => simpa [showing] using hn _
  case some entry =>
    cases found'
    case none        => simpa [showing] using (hn _).symm
    case some entry' =>
      have hi : entry.id = entry'.id := (h entry rfl).trans (h' entry' rfl).symm
      rw [Option.map_some, Option.map_some, Option.some.injEq, ← entry_eq_iff hi]
      simp [showing, shown, named]

end

section

variable {K : Type} [Field K] [LinearOrder K] {environment : Environment K} {options : CliOptions}

theorem Environment.Ready.writes_showing (h : environment.Ready options.question) (hj : options.json)
    (he : options.Expressible) (hc : options.command = .search ∨ options.command = .list) (id : Bytes)
    (hg : ∀ value, environment.numerics.isFinite value → value ≠ 0 →
      Json.IsNumber (environment.numerics.general value)) :
    WritesLine (Document.showing id <| (environment.loadKnowledge options).findById id)
      (environment.runApplication (options.showing id).arguments).output := by
  have hj' : (options.showing id).presentation.json = true := hj
  rw [runApplication_showing he hc, runOptions_eq, h.answer_showing]
  simp only [Answer.output, hj', if_true]
  have hw (answer : Answer K) := Answer.writes_document (options.showing id).question.command answer
    (options.showing id).presentation hg
  cases (environment.loadKnowledge options).findById id
  case none       => exact hw (.unknown id)
  case some entry => exact hw (.found _ entry)

end

-- The documents that `show` prints of two knowledge bases tell apart every two of their entries.
theorem json_catalog_lossless {K : Type} [Field K] [LinearOrder K] (environment environment' : Environment K)
    {arguments arguments' : List Bytes} {options options' : CliOptions}
    (hp : parseCommandLine arguments = .ok options) (hp' : parseCommandLine arguments' = .ok options')
    (hl : options.command = .list) (hl' : options'.command = .list) (hj : options.json) (hj' : options'.json)
    (hz : (environment.runApplication arguments).exitCode = kSuccess)
    (hz' : (environment'.runApplication arguments').exitCode = kSuccess)
    (hg : ∀ value, environment.numerics.isFinite value → value ≠ 0 →
      Json.IsNumber (environment.numerics.general value))
    (hg' : ∀ value, environment'.numerics.isFinite value → value ≠ 0 →
      Json.IsNumber (environment'.numerics.general value)) :
    let entries  := (environment.loadKnowledge options).entries
    let entries' := (environment'.loadKnowledge options').entries
    let same     := ∀ id, ∃ document,
      WritesLine document (environment.runApplication (options.showing id).arguments).output ∧
      WritesLine document (environment'.runApplication (options'.showing id).arguments).output
    (same ↔ entries.map (·.published) = entries'.map (·.published)) ∧
    ((∀ entry ∈ entries, entry.IsValid) → (∀ entry ∈ entries', entry.IsValid) →
      (same ↔ entries.map ({ · with sourceDirectory := [] }) = entries'.map ({ · with sourceDirectory := [] }))) := by
  intro entries entries' same
  have hready  := Environment.ready_of_success hp (by simp [hl]) (by simp [hl]) hz
  have hready' := Environment.ready_of_success hp' (by simp [hl']) (by simp [hl']) hz'
  have hw (id : Bytes)  := hready.writes_showing hj (expressible_of_parseCommandLine hp) (.inr hl) id hg
  have hw' (id : Bytes) := hready'.writes_showing hj' (expressible_of_parseCommandLine hp') (.inr hl') id hg'
  have hi (knowledge : KnowledgeBase) (id : Bytes) : ∀ entry ∈ knowledge.findById id, entry.id = id :=
    fun entry hm => (findById_eq_some_iff.mp hm).right
  have hs : same ↔ entries.map (·.published) = entries'.map (·.published) := by
    rw [map_published_eq_iff]
    refine forall_congr' fun id => ?_
    rw [← Document.showing_eq_iff (hi _ id) (hi _ id)]
    constructor
    case mp =>
      rintro ⟨document, h, h'⟩
      exact ((hw id).unique h).trans (h'.unique (hw' id))
    case mpr => exact fun he => ⟨_, hw id, he ▸ hw' id⟩
  refine ⟨hs, fun hv hv' => ?_⟩
  have hm {entries : List KnowledgeEntry} (hv : ∀ entry ∈ entries, entry.IsValid) :
      entries.map (·.published) = entries.map ({ · with sourceDirectory := [] }) :=
    List.map_congr_left fun entry he => (hv entry he).published_eq
  rw [hs, hm hv, hm hv']

-- A knowledge base that is stored somewhere else shows the same documents.
theorem Stocked.json_catalog_lossless_moved :
    let options : CliOptions := { command := .list, json := true }
    let moved : CliOptions := { options with knowledgePath := ascii "/moved", knowledgePathExplicit := true }
    ∀ id, ∃ document,
      WritesLine document (environment.runApplication (options.showing id).arguments).output ∧
      WritesLine document (environment.runApplication (moved.showing id).arguments).output :=
  have hp : parseCommandLine (["list", "--json"].map ascii) = .ok { command := .list, json := true } := rfl
  have hp' : parseCommandLine (["list", "--json", "--knowledge", "/moved"].map ascii) = .ok
    { command := .list, json := true, knowledgePath := ascii "/moved", knowledgePathExplicit := true } := rfl
  have hg : ∀ value, environment.numerics.isFinite value → value ≠ 0 →
    Json.IsNumber (environment.numerics.general value) := fun value _ _ => isNumber_rational_general value
  have h := json_catalog_lossless environment environment hp hp' rfl rfl rfl rfl (by decide +kernel)
    (by decide +kernel) hg hg
  h.left.mpr (by decide +kernel)

end Howlinux
