import Howlinux.App.Application
import Howlinux.Render.Theorems.Text

open Bytes

namespace Howlinux

namespace Environment

section

variable {K : Type} (environment : Environment K) (options : CliOptions)

-- The run ends in the message that there is no entry with the id it was asked for.
structure NamesUnknownEntry : Prop where
  command       : options.command = .show
  rootAvailable : (environment.loadKnowledge options).report.rootAvailable
  usable        : (environment.loadConcepts options).report.usable
  findById      : (environment.loadKnowledge options).findById options.entryId = none

end

section

variable {K : Type} {environment : Environment K} {options : CliOptions} {knowledge : KnowledgeBase}
  {concepts : ConceptDictionary}

theorem isSafe_printHelp : IsSafe printHelp := by
  have hl : ∀ line ∈ helpLines, IsSafe (ascii line) := by decide +kernel
  exact .append (.append rfl rfl) <| .flatMap fun line h => .append (hl line h) rfl

theorem isSafe_knowledgeUnavailable (hj : options.json = false) :
    IsSafe (knowledgeUnavailable knowledge options).output := by
  simp [knowledgeUnavailable, hj]

theorem isSafe_conceptsUnusable (hj : options.json = false) :
    IsSafe (conceptsUnusable knowledge concepts options).output := by
  simp only [conceptsUnusable, hj, Bool.false_eq_true, if_false]
  exact .ite (fun _ => Renderer.isSafe_validation ..) fun _ => .nil

theorem isSafe_runValidate (hj : options.json = false) :
    IsSafe (environment.runValidate knowledge concepts options).output := by
  simp only [runValidate, hj, Bool.false_eq_true, if_false]
  exact Renderer.isSafe_validation ..

theorem isSafe_runList (hj : options.json = false) : IsSafe (runList knowledge options).output := by
  simp only [runList, hj, Bool.false_eq_true, if_false]
  exact Renderer.isSafe_list knowledge

-- The one text that gets out as it came in.
theorem isSafe_runShow_iff (hj : options.json = false) (hr : options.raw = false)
    (hc : environment.terminalColorEnabled = false) :
    IsSafe (environment.runShow knowledge options).output ↔
      (knowledge.findById options.entryId = none → IsSafe options.entryId) := by
  simp only [runShow, hj, hr, hc, Bool.false_eq_true, if_false]
  cases knowledge.findById options.entryId
  case none       => simp +decide
  case some entry => simp [Renderer.isSafe_entry]

theorem isSafe_searchText [Add K]
    (hn : ∀ value, environment.numerics.isFinite value → IsSafe (environment.numerics.fixed value))
    (hr : options.raw = false) (hc : environment.terminalColorEnabled = false)
    (response : SearchResponse K) (decision : PolicyDecision K) :
    IsSafe (environment.searchText knowledge options response decision) := by
  unfold searchText
  split
  case h_1 selected _ _ =>
    rw [hr, hc]
    exact (Renderer.isSafe_entry selected.entry knowledge).append <|
      .ite (fun _ => Renderer.isSafe_explain hn response _) fun _ => .nil
  case h_2 => exact .nil
  case h_3 => exact Renderer.isSafe_suggestions hn response _ _
  case h_4 => exact Renderer.isSafe_noMatch

end

section

variable {K : Type} [Zero K] [Add K] [Sub K] [Mul K] [Div K] [Min K] [LT K] [DecidableLT K] [LE K]
  [DecidableLE K] [DecidableEq K] [NatCast K] [OfScientific K] {environment : Environment K}
  {knowledge : KnowledgeBase} {concepts : ConceptDictionary} {options : CliOptions}
  (hn : ∀ value, environment.numerics.isFinite value → IsSafe (environment.numerics.fixed value))
  (hj : options.json = false) (hr : options.raw = false) (hc : environment.terminalColorEnabled = false)

include hn hj hr hc

theorem isSafe_runSearch : IsSafe (environment.runSearch knowledge concepts options).output := by
  simp only [runSearch, hj, Bool.false_eq_true, if_false]
  exact isSafe_searchText hn hr hc ..

theorem isSafe_runCommand_iff :
    IsSafe (environment.runCommand knowledge concepts options).output ↔
      (options.command = .show → knowledge.findById options.entryId = none → IsSafe options.entryId) := by
  unfold runCommand
  split
  case h_1 h => exact iff_of_true (isSafe_runValidate hj) fun h' => absurd (h.symm.trans h') (by decide)
  case h_2 h => exact iff_of_true (isSafe_runList hj) fun h' => absurd (h.symm.trans h') (by decide)
  case h_3 h => exact (isSafe_runShow_iff hj hr hc).trans ⟨fun h' _ => h', fun h' => h' h⟩
  case h_4 h => exact iff_of_true (isSafe_runSearch hn hj hr hc) fun h' => absurd h' h

theorem isSafe_runOptions_iff : IsSafe (environment.runOptions options).output ↔
    (environment.NamesUnknownEntry options → IsSafe options.entryId) := by
  rw [output_runOptions]
  split
  case isTrue h =>
    exact iff_of_true (isSafe_knowledgeUnavailable hj) fun hu => absurd hu.rootAvailable (by simpa using h)
  case isFalse ha =>
    split
    case isTrue h =>
      exact iff_of_true (isSafe_conceptsUnusable hj) fun hu => absurd hu.usable (by simpa using h)
    case isFalse hb =>
      rw [isSafe_runCommand_iff hn hj hr hc]
      simp only [Bool.not_eq_true', Bool.not_eq_false] at ha hb
      constructor
      case mp  => exact fun h hu => h hu.command hu.findById
      case mpr => exact fun h hs hf => h ⟨hs, ha, hb, hf⟩

end

end Environment

variable {K : Type} [Zero K] [Add K] [Sub K] [Mul K] [Div K] [Min K] [LT K] [DecidableLT K] [LE K]
  [DecidableLE K] [DecidableEq K] [NatCast K] [OfScientific K]

-- In plain text, no byte of the data reaches the terminal unescaped, apart from those of an unknown id.
theorem output_isSafe_iff (environment : Environment K) {arguments : List Bytes} {options : CliOptions}
    (hp : parseCommandLine arguments = .ok options) (hj : options.json = false) (hr : options.raw = false)
    (hc : environment.terminalColorEnabled = false)
    (hn : ∀ value, environment.numerics.isFinite value → IsSafe (environment.numerics.fixed value)) :
    IsSafe (environment.runApplication arguments).output ↔
      (environment.NamesUnknownEntry options → IsSafe options.entryId) := by
  rw [Environment.runApplication, hp]
  dsimp only
  split
  case h_1 h => exact iff_of_true Environment.isSafe_printHelp fun hu => absurd (h.symm.trans hu.command) (by decide)
  case h_2 h => exact iff_of_true (by rfl) fun hu => absurd (h.symm.trans hu.command) (by decide)
  case h_3   => exact Environment.isSafe_runOptions_iff hn hj hr hc

theorem isSafe_rational_fixed (value : ℚ) : IsSafe (Numerics.rational.fixed value) := by
  have hm : IsSafe (Numerics.minus value) := .ite (fun _ => rfl) fun _ => .nil
  have hd (n : ℕ) : isSafeByte (Numerics.digit n) :=
    have hs : ∀ d < 10, isSafeByte (byte '0' + UInt8.ofNat d) := by decide
    hs _ (Nat.mod_lt n (by decide))
  refine .append (.append hm isSafe_decimal) ?_
  simp +decide [IsSafe, hd]

namespace Environment

-- An id that resets the terminal, and a harmless one.
def resetting : Bytes := [0x1B, byte 'c']

def harmless : Bytes := ascii "nothing"

def asking (entryId : Bytes) : CliOptions :=
  { command := .show, entryId }

theorem output_isSafe_show : IsSafe (bare.runApplication [ascii "show", harmless]).output :=
  (output_isSafe_iff bare (rfl : parseCommandLine _ = .ok (asking harmless)) rfl rfl rfl
    fun value _ => isSafe_rational_fixed value).mpr fun _ => by decide

theorem output_not_isSafe_show :
    parseCommandLine [ascii "show", resetting] = .ok (asking resetting) ∧
    (asking resetting).json = false ∧ (asking resetting).raw = false ∧
    (bare.loadKnowledge <| asking resetting).report.rootAvailable ∧
    bare.terminalColorEnabled = false ∧
    (∀ value, bare.numerics.isFinite value → IsSafe (bare.numerics.fixed value)) ∧
    ¬IsSafe (bare.runApplication [ascii "show", resetting]).output :=
  ⟨rfl, rfl, rfl, by decide +kernel, rfl, fun value _ => isSafe_rational_fixed value, by decide +kernel⟩

end Environment

end Howlinux
