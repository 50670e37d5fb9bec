import Howlinux.App.Theorems.Contents
import Howlinux.Library.Spelling
import Howlinux.Query.Theorems.Spelling

open Bytes

namespace Howlinux

theorem spells_row {shown : Bytes → Bytes} (label : String) : Spells shown fun value => row label (shown value) :=
  .append (.append (.const fun _ _ => rfl) .value) (.const fun _ _ => rfl)

section

variable {K : Type} [Field K] [LinearOrder K] (engine : SearchEngine K) (query : QueryContext) (original : Bytes)

namespace SearchEngine

theorem ranking_spelled : engine.ranking (query.spelled original) = engine.ranking query :=
  rfl

theorem search_spelled {query query' : Bytes} (h : lexicalTokens query' = lexicalTokens query) (limit : ℕ) :
    engine.search query' limit =
      { query   := (engine.queryProcessor.process query).spelled query'
        results := (engine.search query limit).results } := by
  unfold search
  rw [engine.queryProcessor.process_spelled h]
  dsimp only
  rw [ranking_spelled]
  dsimp only [QueryContext.spelled]
  by_cases hw : (engine.queryProcessor.process query).tokens.isEmpty &&
    (engine.queryProcessor.process query).concepts.isEmpty
  case pos =>
    rw [if_pos hw]
    exact if_pos hw
  case neg =>
    rw [if_neg hw]
    exact if_neg hw

end SearchEngine

end

section

variable {K : Type} [Field K] [LinearOrder K] (numerics : Numerics K) (query : QueryContext)
  (results : List (SearchResult K)) (limit : ℕ)

omit [Field K] [LinearOrder K] in
theorem limitedResults_spelled (original : Bytes) :
    limitedResults { query := query.spelled original, results } limit = limitedResults { query, results } limit :=
  rfl

namespace Renderer

theorem spells_noMatch : Spells humanSafe noMatch :=
  .append (spells_row _) (.const fun _ _ => rfl)

omit [LinearOrder K] in
theorem spells_explain : Spells humanSafe fun original =>
    explain numerics { query := query.spelled original, results } limit := by
  unfold explain
  refine .append (.append (.append (.append (.append (.append ?_ (spells_row _)) ?_) ?_) ?_) ?_) ?_
  all_goals exact .const fun _ _ => rfl

omit [LinearOrder K] in
theorem spells_suggestions (explainRequested : Bool) : Spells humanSafe fun original =>
    suggestions numerics { query := query.spelled original, results } limit explainRequested := by
  unfold suggestions
  simp only [limitedResults_spelled]
  refine .append ?_ ?_
  case refine_1 =>
    by_cases hr : (limitedResults { query, results } limit).isEmpty
    case pos =>
      simp only [hr, if_true]
      exact spells_noMatch
    case neg =>
      simp only [hr, Bool.false_eq_true, if_false]
      refine .append (.append (.append (spells_row _) ?_) ?_) ?_
      all_goals exact .const fun _ _ => rfl
  case refine_2 =>
    cases explainRequested
    case false => exact .const fun _ _ => rfl
    case true  => exact .append (.const fun _ _ => rfl) (spells_explain numerics query results limit)

theorem spells_searchJson (decision : PolicyDecision K) (explainRequested : Bool) :
    Spells escapeJson fun original =>
      searchJson numerics { query := query.spelled original, results } decision limit explainRequested := by
  have hq : Spells escapeJson writeJsonString :=
    .append (.append (.const fun _ _ => rfl) .value) (.const fun _ _ => rfl)
  unfold searchJson
  refine .append (.append (.append (.append (.append (.append (.append (.append (.append (.append (.append (.append
    (.append ?_ ?_) ?_) ?_) hq) ?_) ?_) ?_) ?_) ?_) ?_) ?_) ?_) ?_
  all_goals exact .const fun _ _ => rfl

end Renderer

end

-- How the query is written where it is printed.
def CliOptions.shownQuery (options : CliOptions) : Bytes → Bytes :=
  if options.json then escapeJson else humanSafe

-- A run that reads no query shows none.
theorem exists_pieces {shown : Bytes → Bytes} {outcome : Outcome} {P : Bytes → Prop} {run : Bytes → Outcome}
    (h : ∀ query, run query = outcome) :
    ∃ pieces, ∀ query, P query → run query = { outcome with output := (shown query).intercalate pieces } :=
  ⟨[outcome.output], fun query _ => by rw [List.intercalate_singleton, h query]⟩

namespace Environment

section

variable {K : Type} [Field K] [LinearOrder K] (environment : Environment K) (knowledge : KnowledgeBase)
  (concepts : ConceptDictionary) (options : CliOptions)

-- What is printed of a response, the query as it was typed in.
theorem spells_output (query : QueryContext) (results : List (SearchResult K)) (decision : PolicyDecision K) :
    Spells options.shownQuery fun original =>
      if options.json then
        Renderer.searchJson environment.numerics { query := query.spelled original, results } decision options.limit
          options.explain
      else
        environment.searchText knowledge { options with query := original }
          { query := query.spelled original, results } decision := by
  unfold CliOptions.shownQuery
  by_cases hj : options.json
  case pos =>
    simp only [hj, if_true]
    exact Renderer.spells_searchJson ..
  case neg =>
    simp only [hj, Bool.false_eq_true, if_false]
    rcases decision with ⟨_ | _ | _, selected⟩
    case uncertain =>
      exact Renderer.spells_suggestions environment.numerics query results options.limit options.explain
    case noMatch   => exact Renderer.spells_noMatch
    case confident =>
      cases selected
      all_goals simp only [searchText]
      case none       => exact .const fun _ _ => rfl
      case some front =>
        refine .append ?_ ?_
        case refine_1 => exact .const fun _ _ => rfl
        case refine_2 =>
          by_cases he : options.explain
          case pos =>
            simp only [he, if_true]
            exact Renderer.spells_explain environment.numerics query results options.limit
          case neg =>
            simp only [he, Bool.false_eq_true, if_false]
            exact .const fun _ _ => rfl

theorem runSearch_spelled : ∃ pieces, ∀ query, lexicalTokens query = lexicalTokens options.query →
    environment.runSearch knowledge concepts { options with query } =
      { environment.runSearch knowledge concepts options with
        output := (options.shownQuery query).intercalate pieces } := by
  let engine := environment.engine knowledge concepts
  let results := (engine.search options.query (max options.limit 2)).results
  obtain ⟨pieces, hs⟩ := environment.spells_output knowledge options (engine.queryProcessor.process options.query)
    results (({} : ResultPolicy K).decide results)
  refine ⟨pieces, fun query h => ?_⟩
  rw [← hs query]
  unfold runSearch SearchEngine.respond
  dsimp only
  rw [SearchEngine.search_spelled _ h]

theorem runCommand_spelled : ∃ pieces, ∀ query, lexicalTokens query = lexicalTokens options.query →
    environment.runCommand knowledge concepts { options with query } =
      { environment.runCommand knowledge concepts options with
        output := (options.shownQuery query).intercalate pieces } := by
  obtain ⟨pieces, hs⟩ := environment.runSearch_spelled knowledge concepts options
  unfold runCommand
  -- The other commands do not read a query.
  cases options.command
  case validate => exact exists_pieces fun _ => rfl
  case list     => exact exists_pieces fun _ => rfl
  case «show»   => exact exists_pieces fun _ => rfl
  all_goals exact ⟨pieces, hs⟩

theorem runOptions_spelled : ∃ pieces, ∀ query, lexicalTokens query = lexicalTokens options.query →
    environment.runOptions { options with query } =
      { environment.runOptions options with output := (options.shownQuery query).intercalate pieces } := by
  obtain ⟨pieces, hs⟩ := environment.runCommand_spelled (environment.loadKnowledge options)
    (environment.loadConcepts options) options
  have hk (query : Bytes) :
    environment.loadKnowledge { options with query } = environment.loadKnowledge options := rfl
  have hc (query : Bytes) :
    environment.loadConcepts { options with query } = environment.loadConcepts options := rfl
  unfold runOptions
  simp only [hk, hc]
  split
  case isTrue  => exact exists_pieces fun _ => rfl
  case isFalse =>
    split
    case isTrue  => exact exists_pieces fun _ => rfl
    case isFalse =>
      refine ⟨pieces, fun query h => ?_⟩
      rw [hs query h]
      rfl

end

end Environment

-- A query is printed as it was typed in. Otherwise a run reads nothing but the tokens of its query.
theorem spelling_is_only_shown {K : Type} [Field K] [LinearOrder K] (environment : Environment K)
    {arguments : List Bytes} {options : CliOptions} (hp : parseCommandLine arguments = .ok options) :
    ∃ pieces, ∀ arguments' query, parseCommandLine arguments' = .ok { options with query } →
      lexicalTokens query = lexicalTokens options.query →
      environment.runApplication arguments' = { environment.runApplication arguments with
        output := (options.shownQuery query).intercalate pieces } := by
  by_cases hn : options.command = .help ∨ options.command = .version
  case pos =>
    -- Neither of them reads anything.
    refine ⟨[(environment.runApplication arguments).output], fun arguments' query hp' _ => ?_⟩
    rcases hn with hn | hn <;> simp [Environment.runApplication, hp, hp', hn]
  case neg =>
    obtain ⟨hh, hv⟩ := not_or.mp hn
    obtain ⟨pieces, hs⟩ := environment.runOptions_spelled options
    refine ⟨pieces, fun arguments' query hp' h => ?_⟩
    rw [environment.runApplication_eq hp hh hv, environment.runApplication_eq hp' hh hv]
    exact hs query h

theorem Written.spelling_of_copy : ∃ pieces,
    ((environment <| ascii "Use cp.").runApplication [ascii "copy", ascii "a", ascii "file"]).output =
      (humanSafe <| ascii "copy a file").intercalate pieces ∧
    (environment <| ascii "Use cp.").runApplication [ascii "COPY", ascii "a", ascii "File"] =
      { (environment <| ascii "Use cp.").runApplication [ascii "copy", ascii "a", ascii "file"] with
        output := (humanSafe <| ascii "COPY a File").intercalate pieces } := by
  have hp : parseCommandLine [ascii "copy", ascii "a", ascii "file"] = .ok { query := ascii "copy a file" } := rfl
  have hp' : parseCommandLine [ascii "COPY", ascii "a", ascii "File"] = .ok { query := ascii "COPY a File" } := rfl
  have hq : ascii "copy a file" = (ascii "COPY a File").map asciiLower := by decide
  obtain ⟨pieces, h⟩ := spelling_is_only_shown (environment <| ascii "Use cp.") hp
  refine ⟨pieces, ?_, ?_⟩
  case refine_1 => exact congrArg Outcome.output <| h _ _ hp rfl
  case refine_2 => exact h _ _ hp' <| by rw [hq, lexicalTokens_map_asciiLower]

end Howlinux
