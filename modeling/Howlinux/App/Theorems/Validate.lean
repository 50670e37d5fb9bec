import Howlinux.App.Application
import Howlinux.Knowledge.Theorems.Store

open Bytes

namespace Howlinux

-- How a validation report starts.
def validationHead (json : Bool) (status : Bytes) : Bytes :=
  if json then ascii "\x7b\"status\":" ++ writeJsonString status else row "Validation status: " status

section

variable {knowledgeReport : KnowledgeLoadReport} {conceptReport : ConceptLoadReport}
  {lintReport : KnowledgeLintReport}

theorem validationHead_prefix_validationJson :
    validationHead true (validationStatus knowledgeReport conceptReport lintReport) <+:
      Renderer.validationJson knowledgeReport conceptReport lintReport := by
  simp only [validationHead, Renderer.validationJson, List.append_assoc, if_true]
  exact ⟨_, rfl⟩

theorem validationHead_prefix_validation :
    validationHead false (validationStatus knowledgeReport conceptReport lintReport) <+:
      Renderer.validation knowledgeReport conceptReport lintReport := by
  simp only [validationHead, Renderer.validation, List.append_assoc]
  exact ⟨_, rfl⟩

-- A load that skipped an entry has issues of its own.
theorem KnowledgeStore.Consistent.hasIssues {store : KnowledgeStore} (h : store.Consistent)
    (hs : store.report.skippedEntries ≠ 0) : store.report.hasIssues := by
  have ⟨attempts, _, _, hc, hr, hd⟩ := h.skipped
  have ⟨attempt, ha, hn⟩ := List.countP_pos_iff.mp (Nat.pos_of_ne_zero <| hc ▸ hs)
  have ⟨diagnostic, hm⟩ := List.exists_mem_of_ne_nil _ <| hr attempt ha (Option.isNone_iff_eq_none.mp hn)
  have hm := hd.subset <| List.mem_flatMap.mpr ⟨attempt, ha, hm⟩
  simp [KnowledgeLoadReport.hasIssues, List.ne_nil_of_mem hm]

-- With a root and usable concepts the renderer and the exit code look for the same issues.
theorem hasValidationIssues_eq (hr : knowledgeReport.rootAvailable) (hu : conceptReport.usable)
    (hs : knowledgeReport.skippedEntries ≠ 0 → knowledgeReport.hasIssues) :
    hasValidationIssues knowledgeReport conceptReport lintReport =
      (knowledgeReport.hasIssues || conceptReport.hasIssues || lintReport.hasIssues) := by
  simp only [hasValidationIssues, KnowledgeLoadReport.hasIssues, ConceptLoadReport.hasIssues] at hs ⊢
  by_cases h : knowledgeReport.skippedEntries = 0
  case pos => simp [hr, hu, h, Bool.or_assoc]
  case neg => simp [hs h]

-- What an exit code says about a validation, and what the status says about it.
structure Agrees (rootAvailable usable : Bool) (exitCode : ℕ) (status : Bytes) : Prop where
  valid         : exitCode = kSuccess ↔ status = ascii "valid"
  configuration : exitCode = kConfigurationError ↔ rootAvailable = false ∨ usable = false
  root          : rootAvailable = false → status = ascii "error"
  concepts      : rootAvailable = true → usable = false → status = ascii "invalid"
  remaining     : exitCode ≠ kSuccess → exitCode ≠ kConfigurationError →
    exitCode = kNoConfidentResult ∧ status = ascii "invalid"

theorem agrees_of_unavailable (conceptReport : ConceptLoadReport) (lintReport : KnowledgeLintReport)
    (hr : knowledgeReport.rootAvailable = false) {usable : Bool} :
    Agrees knowledgeReport.rootAvailable usable kConfigurationError
      (validationStatus knowledgeReport conceptReport lintReport) := by
  have hs : validationStatus knowledgeReport conceptReport lintReport = ascii "error" := by
    simp [validationStatus, hr]
  rw [hs, hr]
  exact ⟨by decide, by simp, by simp, by simp, by simp⟩

theorem agrees_of_unusable (lintReport : KnowledgeLintReport) (hr : knowledgeReport.rootAvailable)
    (hu : conceptReport.usable = false) :
    Agrees knowledgeReport.rootAvailable conceptReport.usable kConfigurationError
      (validationStatus knowledgeReport conceptReport lintReport) := by
  have hs : validationStatus knowledgeReport conceptReport lintReport = ascii "invalid" := by
    simp [validationStatus, hasValidationIssues, hr, hu]
  rw [hs, hr, hu]
  exact ⟨by decide, by simp, by simp, by simp, by simp⟩

theorem agrees_of_linted (lintReport : KnowledgeLintReport) (hr : knowledgeReport.rootAvailable)
    (hu : conceptReport.usable) (hs : knowledgeReport.skippedEntries ≠ 0 → knowledgeReport.hasIssues) :
    Agrees knowledgeReport.rootAvailable conceptReport.usable
      (if knowledgeReport.hasIssues || conceptReport.hasIssues || lintReport.hasIssues then
        kNoConfidentResult else kSuccess)
      (validationStatus knowledgeReport conceptReport lintReport) := by
  have hs : validationStatus knowledgeReport conceptReport lintReport = ascii
      (if knowledgeReport.hasIssues || conceptReport.hasIssues || lintReport.hasIssues then
        "invalid" else "valid") := by
    simp [validationStatus, hasValidationIssues_eq hr hu hs, hr]
  rw [hs, hr, hu]
  split
  case isTrue  => exact ⟨by decide, by decide, by simp, by simp, fun _ _ => ⟨rfl, rfl⟩⟩
  case isFalse => exact ⟨by decide, by decide, by simp, by simp, fun h => absurd rfl h⟩

end

-- The exit code of a validation and the status it renders never disagree.
theorem validate_agrees {K : Type} [Zero K] [Add K] [Sub K] [Mul K] [Div K] [Min K] [LT K] [DecidableLT K]
    [LE K] [DecidableLE K] [DecidableEq K] [NatCast K] [OfScientific K] (environment : Environment K)
    {arguments : List Bytes} {options : CliOptions} (hp : parseCommandLine arguments = .ok options)
    (hv : options.command = .validate)
    (hr : options.json ∨ (environment.loadKnowledge options).report.rootAvailable) :
    let outcome   := environment.runApplication arguments
    let knowledge := environment.loadKnowledge options
    let concepts  := environment.loadConcepts options
    ∃ status, validationHead options.json status <+: outcome.output ∧
      Agrees knowledge.report.rootAvailable concepts.report.usable outcome.exitCode status := by
  have ha : environment.runApplication arguments = environment.runOptions options := by
    rw [Environment.runApplication, hp]
    simp only [hv]
  have hs : (environment.loadKnowledge options).report.skippedEntries ≠ 0 →
      (environment.loadKnowledge options).report.hasIssues :=
    (KnowledgeStore.consistent_load _ _ _).hasIssues
  simp only [ha, Environment.output_runOptions, Environment.exitCode_runOptions]
  generalize environment.loadKnowledge options = knowledge at hr hs
  generalize environment.loadConcepts options = concepts
  cases ha : knowledge.report.rootAvailable
  case false =>
    have hj : options.json := by simpa [ha] using hr
    refine ⟨_, ?_, ha ▸ agrees_of_unavailable {} {} ha⟩
    simpa [Environment.knowledgeUnavailable, hv, hj] using validationHead_prefix_validationJson
  case true =>
    cases hu : concepts.report.usable
    case false =>
      refine ⟨_, ?_, ha ▸ hu ▸ agrees_of_unusable {} ha hu⟩
      cases hj : options.json
      case false => simpa [Environment.conceptsUnusable, hv, hj] using validationHead_prefix_validation
      case true  => simpa [Environment.conceptsUnusable, hv, hj] using validationHead_prefix_validationJson
    case true =>
      have hl := agrees_of_linted (knowledge.lint environment.targets environment.order concepts) ha hu hs
      rw [ha, hu] at hl
      refine ⟨_, ?_, by simpa [Environment.runCommand, Environment.runValidate, hv] using hl⟩
      cases hj : options.json
      case false =>
        simpa [Environment.runCommand, Environment.runValidate, hv, hj] using validationHead_prefix_validation
      case true =>
        simpa [Environment.runCommand, Environment.runValidate, hv, hj] using
          validationHead_prefix_validationJson

theorem Stocked.validate_agrees_related :
    let options : CliOptions := { command := .validate, json := true }
    let outcome := environment.runApplication [ascii "validate", ascii "--json"]
    (environment.loadKnowledge options).entries.length = 2 ∧
    ∃ status, validationHead options.json status <+: outcome.output ∧
      Agrees (environment.loadKnowledge options).report.rootAvailable
        (environment.loadConcepts options).report.usable outcome.exitCode status := by
  have hp : parseCommandLine [ascii "validate", ascii "--json"] =
    .ok { command := .validate, json := true } := rfl
  exact ⟨by decide +kernel, validate_agrees environment hp rfl (.inl rfl)⟩

end Howlinux
