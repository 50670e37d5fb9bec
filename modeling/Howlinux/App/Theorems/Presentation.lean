import Howlinux.App.Theorems.Answer

open Bytes

namespace Howlinux

-- Documents of one answer. The limit cuts its results off, and nothing else depends on the limit or on
-- whether the ranking is explained.
structure CutsOff (document : ℕ → Bool → Json) : Prop where
  results : (∀ limit explain, (document limit explain).member "results" = none) ∨
    ∃ results : Bool → List Json, ∀ limit > 0, ∀ explain,
      (document limit explain).member "results" = some (.array <| (results explain).take limit)
  others  : ∀ name ≠ "results", ∀ limit limit' explain explain',
    (document limit explain).member name = (document limit' explain').member name

section

variable {K : Type} [Field K] [LinearOrder K] (numerics : Numerics K)

-- The document that is printed of an answer.
def Answer.document (command : CliCommand) (limit : ℕ) (explain : Bool) : Answer K → Json
  | unavailable report =>
    if command = .validate then
      Document.validation report {} {}
    else
      Document.configurationError "knowledge_unavailable" report.diagnostics
  | unusable knowledgeReport conceptReport =>
    if command = .validate then
      Document.validation knowledgeReport conceptReport {}
    else
      Document.configurationError "concepts_invalid" conceptReport.diagnostics
  | validated knowledgeReport conceptReport lintReport =>
    Document.validation knowledgeReport conceptReport lintReport
  | listed knowledge => Document.list knowledge
  | found _ entry => Document.shown entry
  | unknown id => Document.notFound id
  | ranked _ query ranking =>
    Document.search numerics { query, results := ranking.take (max limit 2) }
      (({} : ResultPolicy K).decide ranking) limit explain

variable {numerics} {command : CliCommand} {answer : Answer K}

theorem Answer.writes_document (command : CliCommand) (answer : Answer K) (presentation : Presentation)
    (hg : ∀ value, numerics.isFinite value → value ≠ 0 → Json.IsNumber (numerics.general value)) :
    WritesLine (answer.document numerics command presentation.limit presentation.explain)
      (answer.json numerics presentation command) := by
  unfold document json
  cases answer
  case unavailable =>
    dsimp only
    split
    case isTrue  => exact Renderer.writes_validation
    case isFalse => exact writes_configurationError
  case unusable =>
    dsimp only
    split
    case isTrue  => exact Renderer.writes_validation
    case isFalse => exact writes_configurationError
  case validated => exact Renderer.writes_validation
  case listed    => exact Renderer.writes_list
  case found     => exact Renderer.writes_shown
  case unknown   => exact writes_notFound
  case ranked    => exact Renderer.writes_search hg

omit [Field K] [LinearOrder K] in
-- What is printed of a ranking as results.
theorem limitedResults_take (query : QueryContext) {ranking : List (SearchResult K)} {limit : ℕ} (hl : 0 < limit) :
    limitedResults { query, results := ranking.take (max limit 2) } limit = ranking.take limit := by
  have hm : limit ≤ max limit 2 := le_max_left ..
  rw [limitedResults, if_neg hl.ne', List.take_take, List.length_take]
  rcases le_total limit ranking.length with h | h
  case inl => congr 1; omega
  case inr => rw [List.take_of_length_le (by omega), List.take_of_length_le h]

-- The entry of a confident answer does not depend on how many results are printed.
theorem selected_decide (results results' ranking : List (SearchResult K)) :
    Document.selected results (({} : ResultPolicy K).decide ranking) =
      Document.selected results' (({} : ResultPolicy K).decide ranking) := by
  by_cases hc : (({} : ResultPolicy K).decide ranking).status = .confident
  case pos =>
    have ⟨front, _, _, hs⟩ := ResultPolicy.selected_of_confident hc
    rw [selected_of_confident hc hs, selected_of_confident hc hs]
  case neg => rw [selected_of_not_confident hc, selected_of_not_confident hc]

theorem Json.member_cons {name key : String} {value : Json} {members : List (List Char × Json)} :
    (Json.object (Json.named key value :: members)).member name =
      if name = key then some value else (Json.object members).member name := by
  have hb : (name.toList == key.toList) = decide (name = key) := by
    rw [Bool.eq_iff_iff]
    simp [String.toList_inj]
  rw [Json.member, Json.named, List.lookup_cons, hb]
  by_cases h : name = key <;> simp [h, Json.member]

theorem Answer.cutsOff_document : CutsOff fun limit explain => answer.document numerics command limit explain := by
  unfold document
  cases answer
  case ranked knowledge query ranking =>
    refine ⟨.inr ⟨fun explain => ranking.map <| Document.result numerics explain, fun limit hl explain => ?_⟩,
      fun name hn limit limit' explain explain' => ?_⟩
    case refine_1 =>
      rw [← List.map_take, ← limitedResults_take query hl]
      rfl
    case refine_2 =>
      simp only [Document.search, Json.member_cons, hn, if_false]
      rw [selected_decide]
  all_goals
    refine ⟨.inl fun limit explain => ?_, fun _ _ _ _ _ _ => rfl⟩
    dsimp only
    first | rfl | (split <;> rfl)

end

section

variable {K : Type} [Field K] [LinearOrder K] (environment : Environment K) {arguments : List Bytes}
  {options : CliOptions}

def Environment.withColor (color : Bool) : Environment K :=
  { environment with terminalColorEnabled := color }

theorem Environment.runApplication_eq (hp : parseCommandLine arguments = .ok options)
    (hh : options.command ≠ .help) (hv : options.command ≠ .version) :
    environment.runApplication arguments = environment.runOptions options := by
  rw [runApplication, hp]
  dsimp only
  split
  case h_1 h => exact absurd h hh
  case h_2 h => exact absurd h hv
  case h_3   => rfl

variable (K) in
-- Only what needs a knowledge base depends on the machine.
theorem runApplication_cases (arguments : List Bytes) :
    (∃ outcome, ∀ environment : Environment K, environment.runApplication arguments = outcome) ∨
    ∃ options, parseCommandLine arguments = .ok options ∧ (options.command ≠ .help ∧ options.command ≠ .version) ∧
      ∀ environment : Environment K, environment.runApplication arguments = environment.runOptions options := by
  rcases hp : parseCommandLine arguments with error | options
  case error => exact .inl ⟨_, fun environment => by rw [Environment.runApplication, hp]⟩
  case ok =>
    by_cases hc : options.command = .help ∨ options.command = .version
    case pos =>
      rcases hc with hc | hc
      all_goals exact .inl ⟨_, fun environment => by
        simp only [Environment.runApplication, hp, hc]
        rfl⟩
    case neg =>
      obtain ⟨hh, hv⟩ := not_or.mp hc
      exact .inr ⟨options, rfl, ⟨hh, hv⟩, fun environment => environment.runApplication_eq hp hh hv⟩

end

-- Every question has one exit code, one text of errors and one document. How it is to be printed, and
-- whether the terminal shows colors, has no part in them.
theorem presentation_only_prints {K : Type} [Field K] [LinearOrder K] (environment : Environment K)
    (question : Question) (hg : ∀ value, environment.numerics.isFinite value → value ≠ 0 →
      Json.IsNumber (environment.numerics.general value)) :
    ∃ exitCode error document, CutsOff document ∧ ∀ arguments options color,
      parseCommandLine arguments = .ok options → options.question = question →
      let outcome := (environment.withColor color).runApplication arguments
      outcome.exitCode = exitCode ∧ outcome.error = error ∧
      (options.json → options.command ≠ .help → options.command ≠ .version →
        WritesLine (document options.limit options.explain) outcome.output) := by
  by_cases hc : question.command = .help ∨ question.command = .version
  case pos =>
    refine ⟨kSuccess, [], fun _ _ => .null, ⟨.inl fun _ _ => rfl, fun _ _ _ _ _ _ => rfl⟩, ?_⟩
    intro arguments options color hp hq
    subst hq
    have ho : ((environment.withColor color).runApplication arguments).exitCode = kSuccess ∧
        ((environment.withColor color).runApplication arguments).error = [] := by
      rw [Environment.runApplication, hp]
      have hc : options.command = .help ∨ options.command = .version := hc
      rcases hc with hc | hc <;> simp [hc]
    exact ⟨ho.left, ho.right, fun _ hh hv => absurd hc (not_or.mpr ⟨hh, hv⟩)⟩
  case neg =>
    refine ⟨(environment.answer question).exitCode, environment.errors question,
      fun limit explain => (environment.answer question).document environment.numerics question.command limit explain,
      Answer.cutsOff_document, ?_⟩
    intro arguments options color hp hq
    subst hq
    obtain ⟨hh, hv⟩ := not_or.mp hc
    rw [(environment.withColor color).runApplication_eq hp hh hv, Environment.runOptions_eq]
    refine ⟨rfl, rfl, fun hj _ _ => ?_⟩
    have hw := Answer.writes_document options.command (environment.answer options.question) options.presentation hg
    simp only [Answer.output, CliOptions.presentation, hj, if_true] at hw ⊢
    exact hw

theorem Stocked.presentation_only_prints_copying :
    let run (arguments : List String) := environment.runApplication (arguments.map ascii)
    let complete := run ["--json", "copying", "file"]
    let cut      := run ["--limit=1", "--explain", "--json", "copying", "file"]
    complete.exitCode = kNoConfidentResult ∧ cut.exitCode = complete.exitCode ∧ cut.error = complete.error ∧
    ∃ document, CutsOff document ∧ WritesLine (document 5 false) complete.output ∧
      WritesLine (document 1 true) cut.output := by
  let options : CliOptions := { json := true, query := ascii "copying file" }
  have hp : parseCommandLine (["--json", "copying", "file"].map ascii) = .ok options := rfl
  have hp' : parseCommandLine (["--limit=1", "--explain", "--json", "copying", "file"].map ascii) =
    .ok { options with limit := 1, explain := true } := rfl
  obtain ⟨_, _, document, hd, h⟩ := presentation_only_prints environment options.question fun value _ _ =>
    isNumber_rational_general value
  obtain ⟨hx, he, hw⟩ := h _ _ false hp rfl
  obtain ⟨hx', he', hw'⟩ := h _ _ false hp' rfl
  exact ⟨by decide +kernel, hx'.trans hx.symm, he'.trans he.symm, document, hd, hw rfl (by decide) (by decide),
    hw' rfl (by decide) (by decide)⟩

end Howlinux
