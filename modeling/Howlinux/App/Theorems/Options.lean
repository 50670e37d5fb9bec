import Howlinux.App.Theorems.Arguments

open Bytes List

namespace Howlinux

-- The options that some argument list asks for.
structure CliOptions.Expressible (options : CliOptions) : Prop where
  wellFormed : options.WellFormed
  implicit   : options.knowledgePathExplicit = false → options.knowledgePath = []
  explicit   : options.knowledgePathExplicit → options.knowledgePath = [] → options.command = .validate
  rawOrJson  : options.raw → options.json → options.command = .help ∨ options.command = .version
  query      : options.command ≠ .search → options.query = []
  entryId    : options.command ≠ .show → options.entryId = []

namespace CliOptions

def flag (name : String) (value : Bool) : List Bytes :=
  if value then [ascii name] else []

variable (options : CliOptions)

-- A path to be validated is given as a positional argument, since it may be empty there.
def knowledgeArguments : List Bytes :=
  if options.knowledgePathExplicit && options.command ≠ .validate then
    [ascii "--knowledge=" ++ options.knowledgePath]
  else
    []

def commandArguments : List Bytes :=
  match options.command with
  | .search   => [ascii "search", ascii "--", options.query]
  | .list     => [ascii "list"]
  | .show     => [ascii "show", ascii "--", options.entryId]
  | .validate =>
    ascii "validate" :: if options.knowledgePathExplicit then [ascii "--", options.knowledgePath] else []
  | .help     => [ascii "--help"]
  | .version  => [ascii "--version"]

-- An argument list that asks for the options.
def arguments : List Bytes :=
  options.knowledgeArguments ++ (ascii "--limit=" ++ decimal options.limit) :: (flag "--explain" options.explain ++
    (flag "--json" options.json ++ (flag "--raw" options.raw ++ options.commandArguments)))

end CliOptions

section

variable {state : CliState} {options : CliOptions} {rest : List Bytes} {n : ℕ}

theorem foldl_decimal (n : ℕ) :
    (decimal n).foldl (fun parsed b => parsed * 10 + (b - byte '0').toNat) 0 = n := by
  have hd : ∀ d < 10, (byte (Nat.digitChar d) - byte '0').toNat = d := by decide
  induction n using Nat.strongRecOn
  case ind n hi =>
    by_cases hn : n < 10
    case pos =>
      rw [decimal, Nat.toDigits_of_lt_base hn]
      simpa using hd n hn
    case neg =>
      have hq := hi (n / 10) (by omega)
      rw [decimal] at hq
      rw [decimal, Nat.toDigits_of_base_le (by decide) (by omega), map_append, foldl_append, hq, map_singleton,
        foldl_cons, foldl_nil, hd _ (Nat.mod_lt n (by decide))]
      omega

theorem parseLimit_decimal (hp : 0 < n) (hm : n ≤ maximumLimit) : parseLimit (decimal n) = some n := by
  have hd : (decimal n).all isAsciiDigit := all_eq_true.mpr fun b hb => by
    simpa [isAsciiDigit] using digit_of_mem_decimal hb
  have he : (decimal n).isEmpty = false := isEmpty_eq_false_iff.mpr fun he => by
    have := foldl_decimal n
    rw [he, foldl_nil] at this
    omega
  have hr : ¬(n = 0 ∨ maximumLimit < n) := by omega
  simp only [parseLimit, he, hd, foldl_decimal, hr, Bool.not_true, Bool.or_self, Bool.false_eq_true, if_false]

-- A flag sets its option, and leaves the others as they are.
theorem parseArguments_flag (name : String) (set : CliOptions → Bool → CliOptions)
    (hf : ∀ options, set options false = options)
    (ht : ∀ state rest, parseArguments state (ascii name :: rest) =
      parseArguments { state with options := set state.options true } rest) (state : CliState) (value : Bool)
    (rest : List Bytes) : parseArguments state (CliOptions.flag name value ++ rest) =
      parseArguments { state with options := set state.options value } rest := by
  cases value
  case false => rw [hf]; rfl
  case true  => exact ht state rest

theorem parseArguments_limit_decimal (hw : options.WellFormed) :
    parseArguments state ((ascii "--limit=" ++ decimal options.limit) :: rest) =
      parseArguments { state with options := { state.options with limit := options.limit } } rest := by
  have hl : startsWith (ascii "--limit=" ++ decimal options.limit) (ascii "--limit=") := by
    simp [startsWith, isPrefixOf_iff_prefix]
  rw [parseArguments_limit hl, drop_left, CliState.setLimit, parseLimit_decimal hw.limit_pos hw.limit_le]
  rfl

theorem parseCommandLine_knowledgeArguments (h : options.Expressible) :
    parseCommandLine (options.knowledgeArguments ++ rest) =
      if options.command = .validate then
        parseCommandLine rest
      else
        parseArguments { options := {
          knowledgePath         := options.knowledgePath
          knowledgePathExplicit := options.knowledgePathExplicit } } rest := by
  unfold CliOptions.knowledgeArguments
  by_cases hv : options.command = .validate
  case pos => simp [hv]
  case neg =>
    cases hx : options.knowledgePathExplicit
    case false => simp [hv, h.implicit hx, parseCommandLine]
    case true  =>
      have hn : options.knowledgePath.isEmpty = false :=
        isEmpty_eq_false_iff.mpr fun hn => hv (h.explicit hx hn)
      have hk : startsWith (ascii "--knowledge=" ++ options.knowledgePath) (ascii "--knowledge=") := by
        simp [startsWith, isPrefixOf_iff_prefix]
      simp only [hv, if_false, decide_true, Bool.and_self, if_true, singleton_append, ne_eq, not_false_eq_true,
        parseCommandLine, parseArguments_knowledge hk, drop_left, CliState.setKnowledge, hn, Bool.false_eq_true]
      rfl

-- The positional arguments of a command ask for nothing else.
theorem parseArguments_commandArguments {read : CliOptions} (h : options.Expressible)
    (hr : options.command ≠ .help → options.command ≠ .version → (read.raw && read.json) = false)
    (hk : options.command = .validate → read.knowledgePathExplicit = false ∧ read.knowledgePath = []) :
    parseArguments { options := read } options.commandArguments = .ok
      { read with
        command               := options.command
        query                 := if options.command = .search then options.query else read.query
        entryId               := if options.command = .show then options.entryId else read.entryId
        knowledgePath         :=
          if options.command = .validate then options.knowledgePath else read.knowledgePath
        knowledgePathExplicit :=
          if options.command = .validate then options.knowledgePathExplicit else read.knowledgePathExplicit } := by
  unfold CliOptions.commandArguments
  cases hc : options.command
  case search =>
    have hp : parseArguments { options := read } [ascii "search", ascii "--", options.query] =
        CliState.finish { options := read, positional := [ascii "search", options.query] } := rfl
    simp [hp, CliState.finish, hr (by simp [hc]) (by simp [hc]), join]
  case list =>
    have hp : parseArguments { options := read } [ascii "list"] =
        CliState.finish { options := read, positional := [ascii "list"] } := rfl
    simp +decide [hp, CliState.finish, hr (by simp [hc]) (by simp [hc])]
  case «show» =>
    have hp : parseArguments { options := read } [ascii "show", ascii "--", options.entryId] =
        CliState.finish { options := read, positional := [ascii "show", options.entryId] } := rfl
    simp +decide [hp, CliState.finish, hr (by simp [hc]) (by simp [hc])]
  case validate =>
    have ⟨hx, hn⟩ := hk hc
    cases he : options.knowledgePathExplicit
    case false =>
      have hp : parseArguments { options := read } [ascii "validate"] =
          CliState.finish { options := read, positional := [ascii "validate"] } := rfl
      simp +decide [hp, CliState.finish, hr (by simp [hc]) (by simp [hc]), h.implicit he, hx, hn]
    case true =>
      have hp : parseArguments { options := read } [ascii "validate", ascii "--", options.knowledgePath] =
          CliState.finish { options := read, positional := [ascii "validate", options.knowledgePath] } := rfl
      simp +decide [hp, CliState.finish, hr (by simp [hc]) (by simp [hc]), hx]
  case help    => rfl
  case version => rfl

-- The arguments are read back as the options they were made from.
theorem parseCommandLine_arguments (h : options.Expressible) :
    parseCommandLine options.arguments = .ok options := by
  have hr : options.command ≠ .help → options.command ≠ .version → (options.raw && options.json) = false := by
    intro hh hv
    refine Bool.eq_false_iff.mpr fun ht => ?_
    rw [Bool.and_eq_true] at ht
    exact (h.rawOrJson ht.left ht.right).elim hh hv
  rw [CliOptions.arguments, parseCommandLine_knowledgeArguments h, parseCommandLine,
    parseArguments_limit_decimal h.wellFormed, parseArguments_limit_decimal h.wellFormed]
  have hexplain := parseArguments_flag "--explain"
    (fun options value => { options with explain := options.explain || value }) (by simp)
    fun state rest => by rw [parseArguments.eq_def, Bool.or_true]; rfl
  have hjson := parseArguments_flag "--json"
    (fun options value => { options with json := options.json || value }) (by simp)
    fun state rest => by rw [parseArguments.eq_def, Bool.or_true]; rfl
  have hraw := parseArguments_flag "--raw"
    (fun options value => { options with raw := options.raw || value }) (by simp)
    fun state rest => by rw [parseArguments.eq_def, Bool.or_true]; rfl
  simp only [hexplain, hjson, hraw, Bool.false_or]
  have hq : (if options.command = .search then options.query else []) = options.query := by
    split
    case isTrue     => rfl
    case isFalse hs => exact (h.query hs).symm
  have hi : (if options.command = .show then options.entryId else []) = options.entryId := by
    split
    case isTrue     => rfl
    case isFalse hs => exact (h.entryId hs).symm
  split
  case isTrue hv =>
    rw [parseArguments_commandArguments h (by exact hr) (by simp), hq, hi, if_pos hv, if_pos hv]
  case isFalse hv =>
    rw [parseArguments_commandArguments h (by exact hr) (absurd · hv), hq, hi, if_neg hv, if_neg hv]

-- What the loop has gathered before it comes to the command.
structure CliOptions.Gathered (options : CliOptions) : Prop where
  wellFormed : options.WellFormed
  implicit   : options.knowledgePathExplicit = false → options.knowledgePath = []
  explicit   : options.knowledgePathExplicit → options.knowledgePath ≠ []
  query      : options.query = []
  entryId    : options.entryId = []

namespace CliOptions.Gathered

variable {value : Bytes} {state' : CliState}

theorem setKnowledge (hg : state.options.Gathered) (h : state.setKnowledge value = .ok state') :
    state'.options.Gathered := by
  unfold CliState.setKnowledge at h
  split at h
  case isTrue     => contradiction
  case isFalse hv =>
    split at h
    case isTrue  => contradiction
    case isFalse =>
      cases h
      exact ⟨hg.wellFormed.of_limit_eq rfl, by simp, fun _ => by simpa using hv, hg.query, hg.entryId⟩

theorem setLimit (hg : state.options.Gathered) (h : state.setLimit value = .ok state') :
    state'.options.Gathered := by
  have hw := CliState.setLimit_wellFormed h
  unfold CliState.setLimit at h
  split at h
  case h_1 => contradiction
  case h_2 =>
    cases h
    exact ⟨hw, hg.implicit, hg.explicit, hg.query, hg.entryId⟩

-- Help and version take the options as they are.
theorem expressible {command : CliCommand} (hg : options.Gathered)
    (h : (options.raw && options.json) = false ∨ command = .help ∨ command = .version) {query entryId : Bytes}
    (hq : command ≠ .search → query = []) (he : command ≠ .show → entryId = []) :
    { options with command, query, entryId }.Expressible where
  wellFormed         := hg.wellFormed.of_limit_eq rfl
  implicit           := hg.implicit
  explicit hx hn     := absurd hn (hg.explicit hx)
  rawOrJson hr hj    := h.resolve_left (by simp_all)
  query              := hq
  entryId            := he

theorem finish (hg : state.options.Gathered) (h : state.finish = .ok options) : options.Expressible := by
  unfold CliState.finish at h
  dsimp only at h
  split at h
  case h_1 => contradiction
  case h_2 =>
    split at h
    case isTrue     => contradiction
    case isFalse hr =>
      have hr : (state.options.raw && state.options.json) = false := by simpa using hr
      repeat' split at h
      all_goals cases h
      case h_2.isFalse.refl =>
        exact ⟨hg.wellFormed.of_limit_eq rfl, by simp, fun _ _ => rfl, fun h h' => by simp_all, fun _ => hg.query,
          fun _ => hg.entryId⟩
      all_goals exact hg.expressible (.inl hr) (by simp [hg.query]) (by simp [hg.entryId])

theorem parseArguments {arguments : List Bytes} (hg : state.options.Gathered) :
    Howlinux.parseArguments state arguments = .ok options → options.Expressible := by
  fun_induction Howlinux.parseArguments state arguments
  case case1 => exact hg.finish
  case case2 =>
    refine finish ?_
    rwa [CliState.options_foldl_push]
  case case3 | case4 =>
    intro h
    cases h
    exact hg.expressible (by simp) (fun _ => hg.query) fun _ => hg.entryId
  case case8 | case11 | case14 =>
    intro h
    contradiction
  case case9 hi | case10 hi =>
    intro h
    obtain ⟨_, hs, h⟩ := exists_of_bind_eq_ok h
    exact hi _ (hg.setKnowledge hs) h
  case case12 hi | case13 hi =>
    intro h
    obtain ⟨_, hs, h⟩ := exists_of_bind_eq_ok h
    exact hi _ (hg.setLimit hs) h
  case case5 hi | case6 hi | case7 hi | case15 hi =>
    exact hi ⟨hg.wellFormed.of_limit_eq rfl, hg.implicit, hg.explicit, hg.query, hg.entryId⟩

end CliOptions.Gathered

theorem expressible_of_parseCommandLine {arguments : List Bytes}
    (h : parseCommandLine arguments = .ok options) : options.Expressible :=
  CliOptions.Gathered.parseArguments ⟨⟨by decide, by decide⟩, by simp, by simp, rfl, rfl⟩ h

end

-- The options that argument lists ask for are exactly the expressible ones, and these are the options
-- that are read back from their own arguments.
theorem parseCommandLine_range (options : CliOptions) :
    ((∃ arguments, parseCommandLine arguments = .ok options) ↔ options.Expressible) ∧
    (options.Expressible ↔ parseCommandLine options.arguments = .ok options) where
  left  := ⟨fun ⟨_, h⟩ => expressible_of_parseCommandLine h, fun h => ⟨_, parseCommandLine_arguments h⟩⟩
  right := ⟨parseCommandLine_arguments, expressible_of_parseCommandLine⟩

end Howlinux
