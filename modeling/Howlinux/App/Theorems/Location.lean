import Howlinux.App.Theorems.Options
import Howlinux.App.Theorems.Presentation
import Howlinux.Knowledge.Theorems.Paths

open Bytes

namespace Howlinux

-- What is documented of `weakly_canonical`.
structure Paths.Lawful (paths : Paths) : Prop where
  absolute : ∀ path canonical, isAbsolute path → paths.weaklyCanonical path = some canonical → isAbsolute canonical
  normal   : ∀ path canonical, paths.weaklyCanonical path = some canonical → lexicallyNormal canonical = canonical

-- The operating system does not know a path by another name.
def Paths.Settled (paths : Paths) (path : Bytes) : Prop :=
  paths.weaklyCanonical path = none ∨ paths.weaklyCanonical path = some path

section

variable {paths : Paths} {value currentDirectory currentDirectory' : Bytes}

theorem isAbsolute_iff : isAbsolute value ↔ value.head? = some (byte '/') := by
  simp [isAbsolute]

theorem isAbsolute_absolute (hc : isAbsolute currentDirectory) : isAbsolute (absolute value currentDirectory) := by
  unfold absolute
  split
  case isTrue h => exact h
  case isFalse =>
    rw [isAbsolute_iff] at hc ⊢
    have hn : currentDirectory ≠ [] := fun hn => by simp [hn] at hc
    obtain ⟨b, rest, rfl⟩ := List.exists_cons_of_ne_nil hn
    unfold slash
    split <;> exact hc

theorem isAbsolute_normalizedAbsolute (hl : paths.Lawful) (hc : isAbsolute currentDirectory) :
    isAbsolute (normalizedAbsolute paths value currentDirectory) := by
  have ha := @isAbsolute_absolute value currentDirectory hc
  unfold normalizedAbsolute
  rcases hw : paths.weaklyCanonical (absolute value currentDirectory) with _ | canonical
  all_goals simp only [hw, Option.getD_none, Option.getD_some]
  case none => exact isAbsolute_iff.mpr <| head_lexicallyNormal <| isAbsolute_iff.mp ha
  case some => exact hl.absolute _ _ ha hw

theorem lexicallyNormal_normalizedAbsolute (hl : paths.Lawful) :
    lexicallyNormal (normalizedAbsolute paths value currentDirectory) =
      normalizedAbsolute paths value currentDirectory := by
  unfold normalizedAbsolute
  rcases hw : paths.weaklyCanonical (absolute value currentDirectory) with _ | canonical
  all_goals simp only [hw, Option.getD_none, Option.getD_some]
  case none => exact lexicallyNormal_lexicallyNormal _
  case some => exact hl.normal _ _ hw

-- A path that was resolved once is resolved to itself, from any directory.
theorem normalizedAbsolute_normalizedAbsolute (hl : paths.Lawful) (hc : isAbsolute currentDirectory)
    (hs : paths.Settled (normalizedAbsolute paths value currentDirectory)) :
    normalizedAbsolute paths (normalizedAbsolute paths value currentDirectory) currentDirectory' =
      normalizedAbsolute paths value currentDirectory := by
  have ha := @isAbsolute_normalizedAbsolute _ value _ hl hc
  have hn := @lexicallyNormal_normalizedAbsolute _ value currentDirectory hl
  generalize normalizedAbsolute paths value currentDirectory = root at ha hn hs
  unfold normalizedAbsolute
  simp only [absolute, ha, if_true]
  rcases hs with hs | hs <;> simp [hs, hn]

theorem exists_normalizedAbsolute (environment : Option Bytes) (options : CliOptions) (executablePath : Bytes) :
    ∃ value, resolveKnowledgePath paths currentDirectory environment options executablePath =
      normalizedAbsolute paths value currentDirectory := by
  unfold resolveKnowledgePath
  dsimp only
  split_ifs <;> exact ⟨_, rfl⟩

end

section

variable {K : Type} [Field K] [LinearOrder K]

-- The options of a run that names the path it found.
def CliOptions.locatedAt (options : CliOptions) (root : Bytes) : CliOptions :=
  { options with knowledgePath := root, knowledgePathExplicit := true }

theorem CliOptions.Expressible.locatedAt {options : CliOptions} (h : options.Expressible) {root : Bytes} (hr : root ≠ []) :
    (options.locatedAt root).Expressible where
  wellFormed   := h.wellFormed.of_limit_eq rfl
  implicit hi  := nomatch hi
  explicit _ h := absurd h hr
  rawOrJson    := h.rawOrJson
  query        := h.query
  entryId      := h.entryId

-- The same machine, with the program somewhere else and run from somewhere else.
def Environment.elsewhere (environment : Environment K) (executablePath currentDirectory : Bytes)
    (howlinuxKnowledge : Option Bytes) : Environment K :=
  { environment with executablePath, currentDirectory, howlinuxKnowledge }

theorem Environment.runOptions_elsewhere (environment : Environment K) {options : CliOptions}
    {executablePath currentDirectory : Bytes} {howlinuxKnowledge : Option Bytes}
    (hp : (environment.elsewhere executablePath currentDirectory howlinuxKnowledge).knowledgePath
      (options.locatedAt (environment.knowledgePath options)) = environment.knowledgePath options) :
    (environment.elsewhere executablePath currentDirectory howlinuxKnowledge).runOptions
      (options.locatedAt (environment.knowledgePath options)) = environment.runOptions options := by
  unfold runOptions loadErrors loadKnowledge loadConcepts
  rw [hp]
  rfl

end

-- Where a run starts from and what HOWLINUX_KNOWLEDGE says have a part in nothing but the path of the
-- knowledge base: a run that is given the path another run has found does the same.
theorem run_is_repeatable {K : Type} [Field K] [LinearOrder K] (environment : Environment K)
    (hl : environment.paths.Lawful) (hc : isAbsolute environment.currentDirectory) {arguments : List Bytes}
    {options : CliOptions} (hp : parseCommandLine arguments = .ok options)
    (hs : environment.paths.Settled (environment.knowledgePath options))
    (executablePath currentDirectory : Bytes) (howlinuxKnowledge : Option Bytes) :
    (environment.elsewhere executablePath currentDirectory howlinuxKnowledge).runApplication
      (options.locatedAt (environment.knowledgePath options)).arguments = environment.runApplication arguments := by
  obtain ⟨value, hv⟩ := @exists_normalizedAbsolute environment.paths environment.currentDirectory
    environment.howlinuxKnowledge options environment.executablePath
  have hr : environment.knowledgePath options =
    normalizedAbsolute environment.paths value environment.currentDirectory := hv
  have hne : environment.knowledgePath options ≠ [] := fun hn => by
    have ha := @isAbsolute_normalizedAbsolute _ value _ hl hc
    rw [← hr, hn] at ha
    contradiction
  have hk : (environment.elsewhere executablePath currentDirectory howlinuxKnowledge).knowledgePath
      (options.locatedAt (environment.knowledgePath options)) = environment.knowledgePath options := by
    rw [hr] at hs ⊢
    exact normalizedAbsolute_normalizedAbsolute hl hc hs
  have he := expressible_of_parseCommandLine hp
  have hp' := parseCommandLine_arguments (he.locatedAt hne)
  rw [Environment.runApplication, Environment.runApplication, hp, hp']
  dsimp only
  rw [environment.runOptions_elsewhere hk]
  rfl

-- A machine whose paths are all known by their normal forms.
def Environment.plain : Environment ℚ :=
  { Environment.bare with paths := { weaklyCanonical := some ∘ lexicallyNormal, isDirectory _ := true } }

theorem Environment.lawful_plain : Environment.plain.paths.Lawful where
  absolute path canonical h hc := by
    cases hc
    exact isAbsolute_iff.mpr <| head_lexicallyNormal <| isAbsolute_iff.mp h
  normal path canonical hc := by
    cases hc
    exact lexicallyNormal_lexicallyNormal path

theorem Environment.run_is_repeatable_list :
    (plain.elsewhere (ascii "./howlinux") (ascii "/tmp") (some <| ascii "other")).runApplication
      (CliOptions.locatedAt { command := .list } <| plain.knowledgePath { command := .list }).arguments =
    plain.runApplication [ascii "list"] :=
  run_is_repeatable plain lawful_plain (by decide) rfl (.inr <| by decide +kernel) _ _ _

end Howlinux
