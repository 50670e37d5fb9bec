import Howlinux.App.Application
import Howlinux.Search.Theorems.Policy

open Bytes

namespace Howlinux

variable {K : Type} [Field K] [LinearOrder K] [IsStrictOrderedRing K]

namespace SearchEngine

variable {engine : SearchEngine K}

omit [IsStrictOrderedRing K] in
-- The limit is cut off before the policy gets to see it.
theorem respond_decision (engine : SearchEngine K) (text : Bytes) (limit : ℕ) :
    (engine.respond text limit).2 =
      ({} : ResultPolicy K).decide (engine.ranking <| engine.queryProcessor.process text) := by
  have hl : 2 ≤ max limit 2 := le_max_right limit 2
  rw [respond, engine.search_eq text (by omega)]
  exact ResultPolicy.decide_take hl

end SearchEngine

theorem status_eq_uncertain_iff {status : ResultStatus} :
    status = .uncertain ↔ status ≠ .confident ∧ status ≠ .noMatch := by
  cases status <;> simp

namespace Environment

variable (environment : Environment K) (knowledge : KnowledgeBase) (concepts : ConceptDictionary)
  (options : CliOptions) (limit : ℕ)

omit [IsStrictOrderedRing K] in
theorem exitCode_runSearch_limit :
    (environment.runSearch knowledge concepts { options with limit }).exitCode =
      (environment.runSearch knowledge concepts options).exitCode := by
  simp only [runSearch, SearchEngine.respond_decision]

omit [IsStrictOrderedRing K] in
theorem exitCode_runCommand_limit :
    (environment.runCommand knowledge concepts { options with limit }).exitCode =
      (environment.runCommand knowledge concepts options).exitCode := by
  unfold runCommand
  dsimp only
  cases options.command
  case validate => rfl
  case list     => rfl
  case «show»   => rfl
  all_goals exact environment.exitCode_runSearch_limit knowledge concepts options limit

omit [IsStrictOrderedRing K] in
theorem exitCode_runOptions_limit :
    (environment.runOptions { options with limit }).exitCode = (environment.runOptions options).exitCode := by
  rw [exitCode_runOptions, exitCode_runOptions]
  exact ite_congr rfl (fun _ => rfl) fun _ => ite_congr rfl (fun _ => rfl) fun _ =>
    environment.exitCode_runCommand_limit _ _ options limit

end Environment

-- The policy decides over the whole knowledge base, and the limit has no part in it.
theorem decision_of_all_entries (environment : Environment K) (knowledge : KnowledgeBase)
    (concepts : ConceptDictionary) (options : CliOptions) :
    let engine   := environment.engine knowledge concepts
    let results  := engine.allResults (engine.queryProcessor.process options.query)
    let decision := (engine.respond options.query options.limit).2
    results.map (·.entry) = knowledge.entries ∧
    (∀ entry, decision.status = .confident ∧ decision.selected.map (·.entry) = some entry ↔
      ∃ result, result.entry = entry ∧ Outstanding results result) ∧
    (decision.status = .noMatch ↔ ∀ result ∈ results, result.score < 8) ∧
    (decision.status = .uncertain ↔
      (∃ result ∈ results, 8 ≤ result.score) ∧ ∀ result, ¬Outstanding results result) ∧
    (decision.status ≠ .confident → decision.selected = none) ∧
    ∀ limit, (engine.respond options.query limit).2 = decision ∧
      (environment.runOptions { options with limit }).exitCode =
        (environment.runOptions options).exitCode := by
  intro engine results decision
  have hd (limit : ℕ) := engine.respond_decision options.query limit
  have ⟨hnone, hconfident, hselected⟩ := SearchEngine.decide_ranking
    (isNormal_process engine.queryProcessor options.query) (rfl : engine.config = {})
  rw [← hd options.limit] at hnone hconfident hselected
  refine ⟨SearchEngine.map_entry_allResults, fun entry => ?entry, hnone, ?uncertain, hselected, fun limit =>
    ⟨(hd limit).trans (hd options.limit).symm, environment.exitCode_runOptions_limit options limit⟩⟩
  case entry =>
    constructor
    case mp =>
      intro ⟨hs, he⟩
      have ⟨result, hr, he⟩ := Option.map_eq_some_iff.mp he
      exact ⟨result, he, (hconfident result).mp ⟨hs, hr⟩⟩
    case mpr =>
      intro ⟨result, he, ho⟩
      have ⟨hs, hr⟩ := (hconfident result).mpr ho
      exact ⟨hs, by rw [hr, Option.map_some, he]⟩
  case uncertain =>
    have hc : decision.status ≠ .confident ↔ ∀ result, ¬Outstanding results result := by
      rw [← not_exists, not_iff_not]
      constructor
      case mp =>
        intro hs
        have ⟨front, _, _, hf⟩ := ResultPolicy.selected_of_confident hs
        exact ⟨front, (hconfident front).mp ⟨hs, hf⟩⟩
      case mpr => exact fun ⟨result, ho⟩ => ((hconfident result).mpr ho).left
    have hm : decision.status ≠ .noMatch ↔ ∃ result ∈ results, 8 ≤ result.score := by
      refine (not_congr hnone).trans ?_
      push Not
      rfl
    rw [status_eq_uncertain_iff, hc, hm, and_comm]

theorem Stocked.decision_of_all_entries_copy :
    let options : CliOptions := { query := ascii "copy file" }
    let knowledge := environment.loadKnowledge options
    let engine    := environment.engine knowledge default
    let results   := engine.allResults (engine.queryProcessor.process options.query)
    let decision  := (engine.respond options.query options.limit).2
    decision.status = .confident ∧
    results.map (·.entry) = knowledge.entries ∧
    (∀ entry, decision.status = .confident ∧ decision.selected.map (·.entry) = some entry ↔
      ∃ result, result.entry = entry ∧ Outstanding results result) ∧
    ∀ limit, (environment.runOptions { options with limit }).exitCode =
      (environment.runOptions options).exitCode := by
  intro options knowledge engine results decision
  obtain ⟨hr, hc, _, _, _, hl⟩ := decision_of_all_entries environment knowledge default options
  exact ⟨by decide +kernel, hr, hc, fun limit => (hl limit).right⟩

end Howlinux
