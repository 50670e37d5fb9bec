import Howlinux.App.Application
import Howlinux.Render.Theorems.Json

open Bytes
open Json (named)

namespace Howlinux

-- What a search tells in JSON: no more results than the limit, and an entry exactly when it is
-- confident, which is the one that the first result names.
structure SearchDocument (limit : ℕ) (document : Json) : Prop where
  entry_iff : (∃ entry, document.member "entry" = some (.object entry)) ↔
    document.member "status" = some (.string "confident".toList)
  id_first  : ∀ entry, document.member "entry" = some (.object entry) → ∃ first rest id,
    document.member "results" = some (.array (first :: rest)) ∧
    first.member "id" = some (.string id) ∧ (Json.object entry).member "id" = some (.string id)
  le_limit  : ∃ results, document.member "results" = some (.array results) ∧ results.length ≤ limit

-- What a run tells that has nothing to search in.
structure ErrorDocument (document : Json) : Prop where
  status : document.member "status" = some (.string "error".toList)
  entry  : document.member "entry" = none

theorem statusName_eq_confident_iff {status : ResultStatus} :
    Document.string (statusName status) = .string "confident".toList ↔ status = .confident := by
  have hs (name : String) (hn : name.toList.all Json.isPlain) :
      Document.string (ascii name) = .string name.toList := Document.string_ascii hn
  cases status
  case confident => exact iff_of_true (hs "confident" rfl) rfl
  case uncertain => exact iff_of_false (fun h => absurd ((hs "uncertain" rfl).symm.trans h) (by simp)) (by decide)
  case noMatch   => exact iff_of_false (fun h => absurd ((hs "no_match" rfl).symm.trans h) (by simp)) (by decide)

theorem errorDocument_configurationError {errorCode : String} {diagnostics : List Diagnostic} :
    ErrorDocument (Document.configurationError errorCode diagnostics) where
  status := congrArg some (Document.string_ascii rfl)
  entry  := rfl

theorem length_limitedResults_le {K : Type} {response : SearchResponse K} {limit : ℕ} (hl : 0 < limit) :
    (limitedResults response limit).length ≤ limit := by
  simp [limitedResults, hl.ne']

section

variable {K : Type} {results : List (SearchResult K)} {decision : PolicyDecision K} {front : SearchResult K}

theorem selected_of_not_confident (h : decision.status ≠ .confident) :
    Document.selected results decision = .null := by
  unfold Document.selected
  split
  case h_1 hc => contradiction
  case h_2    => rfl

theorem selected_of_confident (h : decision.status = .confident) (hs : decision.selected = some front) :
    Document.selected results decision = Document.entry front.entry := by
  rw [Document.selected, Renderer.selectedResult, h, hs]

end

section

variable {K : Type} [Zero K] [Add K] [Sub K] [Mul K] [Div K] [Min K] [LT K] [DecidableLT K] [LE K]
  [DecidableLE K] [DecidableEq K] [NatCast K] [OfScientific K]

-- An entry is only shown for a decision that selected the first result.
theorem selected_of_respond (engine : SearchEngine K) (query : Bytes) {limit : ℕ} (hl : 0 < limit)
    (hc : (engine.respond query limit).2.status = .confident) :
    ∃ front rest, limitedResults (engine.respond query limit).1 limit = front :: rest ∧
      (engine.respond query limit).2.selected = some front := by
  have ⟨front, rest, hr, hs⟩ := ResultPolicy.selected_of_confident hc
  have hm : 0 < min limit (front :: rest).length := lt_min hl (Nat.succ_pos _)
  refine ⟨front, rest.take (min limit (front :: rest).length - 1), ?_, hs⟩
  have hr : (engine.respond query limit).1.results = front :: rest := hr
  rw [limitedResults, if_neg hl.ne', hr, List.take_cons hm]

theorem searchDocument_search (engine : SearchEngine K) (query : Bytes) (explain : Bool) {limit : ℕ}
    (hl : 0 < limit) :
    SearchDocument limit (Document.search engine.numerics (engine.respond query limit).1
      (engine.respond query limit).2 limit explain) := by
  have hf := selected_of_respond engine query hl
  generalize engine.respond query limit = answer at hf
  have hstatus : (Document.search engine.numerics answer.1 answer.2 limit explain).member "status" =
      some (Document.string <| statusName answer.2.status) := rfl
  have hresults : (Document.search engine.numerics answer.1 answer.2 limit explain).member "results" =
      some (.array <| (limitedResults answer.1 limit).map <| Document.result engine.numerics explain) := rfl
  have hentry : (Document.search engine.numerics answer.1 answer.2 limit explain).member "entry" =
      some (Document.selected (limitedResults answer.1 limit) answer.2) := rfl
  have hle : ∃ results, (Document.search engine.numerics answer.1 answer.2 limit explain).member "results" =
      some (.array results) ∧ results.length ≤ limit :=
    ⟨_, hresults, by simpa using length_limitedResults_le hl⟩
  by_cases hc : answer.2.status = .confident
  case pos =>
    have ⟨front, rest, hr, hs⟩ := hf hc
    rw [selected_of_confident hc hs] at hentry
    rw [hr] at hresults
    refine ⟨?entry_iff, fun entry he => ⟨_, _, Utf8.decode front.entry.id, hresults, rfl, ?id_first⟩, hle⟩
    case entry_iff =>
      rw [hstatus, Option.some.injEq, statusName_eq_confident_iff]
      exact iff_of_true ⟨_, hentry⟩ hc
    case id_first =>
      rw [← Option.some.inj (hentry.symm.trans he)]
      rfl
  case neg =>
    rw [selected_of_not_confident hc] at hentry
    have hne (entry : List (List Char × Json)) : (Document.search engine.numerics answer.1 answer.2 limit
        explain).member "entry" ≠ some (.object entry) := by
      rw [hentry]
      simp
    refine ⟨?entry_iff, fun entry he => absurd he (hne entry), hle⟩
    case entry_iff =>
      rw [hstatus, Option.some.injEq, statusName_eq_confident_iff]
      exact iff_of_false (fun ⟨entry, he⟩ => hne entry he) hc

end

section

variable {diagnostic : Diagnostic} {diagnostics : List Diagnostic} {errorCode : String} {id : Bytes}

-- The quotation marks of a string are often part of the text around it.
theorem append_quote (before value after : Bytes) :
    before ++ ascii "\"" ++ value ++ (ascii "\"" ++ after) = before ++ Json.quote value ++ after := by
  rw [← List.append_assoc, List.append_assoc before, List.append_assoc before]
  rfl

-- The text between two strings.
theorem append_quote_quote (before value key : Bytes) :
    before ++ ascii "\"" ++ value ++ (ascii "\"" ++ (key ++ ascii "\"")) =
      before ++ Json.quote value ++ key ++ ascii "\"" := by
  rw [append_quote, ← List.append_assoc]

theorem writes_severity {severity : DiagnosticSeverity} :
    Writes (Document.string <| severityName severity)
      (Json.quote <| ascii <| if severity = .error then "error" else "warning") := by
  have hp (name : String) (hn : name.toList.all Json.isPlain) :
      Writes (Document.string <| ascii name) (Json.quote <| ascii name) := writes_plain hn
  cases severity
  case warning => exact hp "warning" rfl
  case error   => exact hp "error" rfl

theorem writes_notFound : WritesLine (Document.notFound id)
    (ascii "\x7b\"status\":\"not_found\",\"id\":\"" ++ escapeJson id ++ ascii "\"\x7d\n") := by
  have hs : ascii "\x7b\"status\":\"not_found\",\"id\":\"" = ascii "\x7b" ++ ascii "\"status\":" ++
      Json.quote (ascii "not_found") ++ ascii ",\"id\":" ++ ascii "\"" := rfl
  have he : ascii "\"\x7d\n" = ascii "\"" ++ ascii "\x7d\n" := rfl
  rw [hs, he, append_quote]
  exact Opens.first "status" rfl rfl (writes_plain rfl)
    |>.next "id" rfl rfl writes_string
    |>.closeLine

theorem writes_errorDiagnostic : Writes (Document.errorDiagnostic diagnostic) (errorDiagnosticJson diagnostic) := by
  have hs : ascii "\x7b\"severity\":\"" = ascii "\x7b" ++ ascii "\"severity\":" ++ ascii "\"" := rfl
  have hp : ascii "\",\"path\":\"" = ascii "\"" ++ (ascii ",\"path\":" ++ ascii "\"") := rfl
  have hi : ascii "\",\"entry_id\":\"" = ascii "\"" ++ (ascii ",\"entry_id\":" ++ ascii "\"") := rfl
  have hm : ascii "\",\"message\":\"" = ascii "\"" ++ (ascii ",\"message\":" ++ ascii "\"") := rfl
  have he : ascii "\"\x7d" = ascii "\"" ++ ascii "\x7d" := rfl
  rw [errorDiagnosticJson, hs, hp, hi, hm, he, append_quote_quote, append_quote_quote, append_quote_quote,
    append_quote]
  exact Opens.first "severity" rfl rfl writes_severity
    |>.next "path" rfl rfl writes_string
    |>.next "entry_id" rfl rfl writes_string
    |>.next "message" rfl rfl writes_string
    |>.close

theorem writes_configurationError : WritesLine (Document.configurationError errorCode diagnostics)
    (renderConfigurationErrorJson errorCode diagnostics) := by
  have hs : ascii "\x7b\"status\":\"error\",\"error\":\"" = ascii "\x7b" ++ ascii "\"status\":" ++
      Json.quote (ascii "error") ++ ascii ",\"error\":" ++ ascii "\"" := rfl
  have hd : ascii "\",\"diagnostics\":" = ascii "\"" ++ ascii ",\"diagnostics\":" := rfl
  rw [renderConfigurationErrorJson, hs, hd, append_quote]
  exact Opens.first "status" rfl rfl (writes_plain rfl)
    |>.next "error" rfl rfl writes_string
    |>.next "diagnostics" rfl rfl (writes_array fun _ _ => writes_errorDiagnostic)
    |>.closeLine

end

namespace Environment

section

variable {K : Type} (environment : Environment K) (knowledge : KnowledgeBase) (concepts : ConceptDictionary)
  {options : CliOptions} (hj : options.json)

include hj

theorem json_knowledgeUnavailable : ∃ document,
    WritesLine document (knowledgeUnavailable knowledge options).output ∧
      (options.command = .search → SearchDocument options.limit document ∨ ErrorDocument document) := by
  simp only [knowledgeUnavailable, hj, and_true, if_true]
  split
  case isTrue h  => exact ⟨_, Renderer.writes_validation, fun h' => absurd (h.symm.trans h') (by decide)⟩
  case isFalse h => exact ⟨_, writes_configurationError, fun _ => .inr errorDocument_configurationError⟩

theorem json_conceptsUnusable : ∃ document,
    WritesLine document (conceptsUnusable knowledge concepts options).output ∧
      (options.command = .search → SearchDocument options.limit document ∨ ErrorDocument document) := by
  simp only [conceptsUnusable, hj, if_true]
  split
  case isTrue h  => exact ⟨_, Renderer.writes_validation, fun h' => absurd (h.symm.trans h') (by decide)⟩
  case isFalse h => exact ⟨_, writes_configurationError, fun _ => .inr errorDocument_configurationError⟩

theorem json_runValidate : ∃ document,
    WritesLine document (environment.runValidate knowledge concepts options).output := by
  simp only [runValidate, hj, if_true]
  exact ⟨_, Renderer.writes_validation⟩

theorem json_runList : ∃ document, WritesLine document (runList knowledge options).output := by
  simp only [runList, hj, if_true]
  exact ⟨_, Renderer.writes_list⟩

theorem json_runShow : ∃ document, WritesLine document (environment.runShow knowledge options).output := by
  simp only [runShow, hj, if_true]
  cases knowledge.findById options.entryId
  case none       => exact ⟨_, writes_notFound⟩
  case some entry => exact ⟨_, Renderer.writes_shown⟩

end

variable {K : Type} [Zero K] [Add K] [Sub K] [Mul K] [Div K] [Min K] [LT K] [DecidableLT K] [LE K]
  [DecidableLE K] [DecidableEq K] [NatCast K] [OfScientific K] {environment : Environment K}
  {options : CliOptions} (hg : ∀ value, environment.numerics.isFinite value → value ≠ 0 →
    Json.IsNumber (environment.numerics.general value))
  (hj : options.json) (hl : 0 < options.limit)

include hg hj hl

theorem json_runSearch (knowledge : KnowledgeBase) (concepts : ConceptDictionary) : ∃ document,
    WritesLine document (environment.runSearch knowledge concepts options).output ∧
      SearchDocument options.limit document := by
  simp only [runSearch, hj, if_true]
  exact ⟨_, Renderer.writes_search hg,
    searchDocument_search (environment.engine knowledge concepts) options.query options.explain hl⟩

theorem json_runCommand (knowledge : KnowledgeBase) (concepts : ConceptDictionary) : ∃ document,
    WritesLine document (environment.runCommand knowledge concepts options).output ∧
      (options.command = .search → SearchDocument options.limit document ∨ ErrorDocument document) := by
  unfold runCommand
  split
  case h_1 h =>
    have ⟨document, hw⟩ := environment.json_runValidate knowledge concepts hj
    exact ⟨document, hw, fun h' => absurd (h.symm.trans h') (by decide)⟩
  case h_2 h =>
    have ⟨document, hw⟩ := json_runList knowledge hj
    exact ⟨document, hw, fun h' => absurd (h.symm.trans h') (by decide)⟩
  case h_3 h =>
    have ⟨document, hw⟩ := environment.json_runShow knowledge hj
    exact ⟨document, hw, fun h' => absurd (h.symm.trans h') (by decide)⟩
  case h_4 =>
    have ⟨document, hw, hs⟩ := json_runSearch hg hj hl knowledge concepts
    exact ⟨document, hw, fun _ => .inl hs⟩

theorem json_runOptions : ∃ document,
    WritesLine document (environment.runOptions options).output ∧
      (options.command = .search → SearchDocument options.limit document ∨ ErrorDocument document) := by
  rw [output_runOptions]
  split
  case isTrue => exact json_knowledgeUnavailable _ hj
  case isFalse =>
    split
    case isTrue  => exact json_conceptsUnusable _ _ hj
    case isFalse => exact json_runCommand hg hj hl _ _

end Environment

-- A run that is asked for JSON prints one document and a newline, whatever it runs into.
theorem output_isDocument {K : Type} [Zero K] [Add K] [Sub K] [Mul K] [Div K] [Min K] [LT K] [DecidableLT K]
    [LE K] [DecidableLE K] [DecidableEq K] [NatCast K] [OfScientific K] (environment : Environment K)
    {arguments : List Bytes} {options : CliOptions} (hp : parseCommandLine arguments = .ok options)
    (hj : options.json) (hh : options.command ≠ .help) (hv : options.command ≠ .version)
    (hg : ∀ value, environment.numerics.isFinite value → value ≠ 0 →
      Json.IsNumber (environment.numerics.general value)) :
    ∃ document, WritesLine document (environment.runApplication arguments).output ∧
      (options.command = .search → SearchDocument options.limit document ∨ ErrorDocument document) := by
  rw [Environment.runApplication, hp]
  dsimp only
  split
  case h_1 h => exact absurd h hh
  case h_2 h => exact absurd h hv
  case h_3   => exact Environment.json_runOptions hg hj (parseCommandLine_wellFormed hp).limit_pos

theorem isDigit_digit (n : ℕ) : Json.IsDigit (Numerics.digit n) := by
  have hd : ∀ d < 10, byte '0' ≤ byte '0' + UInt8.ofNat d ∧ byte '0' + UInt8.ofNat d ≤ byte '9' := by decide
  exact hd _ (Nat.mod_lt n (by decide))

theorem isNumber_rational_general (value : ℚ) : Json.IsNumber (Numerics.rational.general value) := by
  have hs : Numerics.minus value ∈ [[], ascii "-"] := by
    unfold Numerics.minus
    split
    case isTrue  => exact List.mem_cons_of_mem _ List.mem_cons_self
    case isFalse => exact List.mem_cons_self
  have hi := Json.isInteger_decimal (Numerics.hundredths value / 100)
  have hd (n : ℕ) := isDigit_digit n
  have hn {frac : Bytes} (hf : Json.IsFraction frac) :
      Json.IsNumber (Numerics.minus value ++ decimal (Numerics.hundredths value / 100) ++ frac) := by
    have := Json.IsNumber.intro hs hi hf .none
    rwa [List.append_nil] at this
  unfold Numerics.rational
  dsimp only
  split_ifs
  case pos => exact hn .none
  case pos => exact hn <| .digits (List.cons_ne_nil _ _) <| by simpa using hd _
  case neg => exact hn <| .digits (List.cons_ne_nil _ _) <| by simpa using ⟨hd _, hd _⟩

theorem Stocked.output_isDocument_search :
    let outcome := environment.runApplication (["--json", "copying", "file"].map ascii)
    outcome.exitCode = kNoConfidentResult ∧
    ∃ document, WritesLine document outcome.output ∧
      (CliCommand.search = .search → SearchDocument 5 document ∨ ErrorDocument document) := by
  have hp : parseCommandLine (["--json", "copying", "file"].map ascii) =
    .ok { json := true, query := ascii "copying file" } := rfl
  exact ⟨by decide +kernel, output_isDocument environment hp rfl (by decide) (by decide) fun value _ _ =>
    isNumber_rational_general value⟩

end Howlinux
