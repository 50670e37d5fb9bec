import Howlinux.Knowledge.Diagnostics
import Howlinux.Search.Index

open Bytes

namespace Howlinux

def kVersion : Bytes := ascii "1.2.0"

def kInstallDataDirectory : Bytes := ascii "share"

inductive CliCommand
  | search
  | list
  | «show»
  | validate
  | help
  | version
  deriving DecidableEq, Repr

structure CliOptions where
  command               : CliCommand := .search
  knowledgePath         : Bytes := []
  knowledgePathExplicit : Bool := false
  limit                 : ℕ := ({} : SearchConfig ℚ).defaultLimit
  explain               : Bool := false
  json                  : Bool := false
  raw                   : Bool := false
  query                 : Bytes := []
  entryId               : Bytes := []
  deriving DecidableEq, Repr

def maximumLimit : ℕ :=
  ({} : SearchConfig ℚ).maximumLimit

def join (values : List Bytes) (first : ℕ) : Bytes :=
  (ascii " ").intercalate (values.drop first)

-- The number is read without a bound. One that `size_t` cannot hold is above the limit as well.
def parseLimit (value : Bytes) : Option ℕ :=
  if value.isEmpty || !value.all isAsciiDigit then
    none
  else
    let parsed := value.foldl (fun parsed b => parsed * 10 + (b - byte '0').toNat) 0
    if parsed = 0 ∨ maximumLimit < parsed then none else some parsed

-- What the loop over the arguments has gathered.
structure CliState where
  options            : CliOptions := {}
  positional         : List Bytes := []
  forceImplicitQuery : Bool := false

namespace CliState

variable (state : CliState)

def push (argument : Bytes) : CliState where
  options            := state.options
  positional         := state.positional ++ [argument]
  forceImplicitQuery := state.forceImplicitQuery

def setKnowledge (value : Bytes) : Except Bytes CliState :=
  if value.isEmpty then
    .error <| ascii "--knowledge requires a non-empty path"
  else if state.options.knowledgePathExplicit then
    .error <| ascii "--knowledge may only be specified once"
  else
    .ok { state with options := { state.options with knowledgePath := value, knowledgePathExplicit := true } }

def setLimit (value : Bytes) : Except Bytes CliState :=
  match parseLimit value with
  | none       => .error <| ascii "--limit must be an integer from 1 to " ++ decimal maximumLimit
  | some limit => .ok { state with options := { state.options with limit } }

-- The command that the positional arguments ask for.
def finish : Except Bytes CliOptions :=
  let options := state.options
  match state.positional with
  | [] => .error <| ascii "missing query or command"
  | command :: arguments =>
    if options.raw && options.json then
      .error <| ascii "--raw and --json cannot be combined"
    else if state.forceImplicitQuery then
      .ok { options with command := .search, query := join state.positional 0 }
    else if command = ascii "search" then
      if arguments.isEmpty then
        .error <| ascii "search requires a query"
      else
        .ok { options with command := .search, query := join state.positional 1 }
    else if command = ascii "list" then
      if arguments.isEmpty then
        .ok { options with command := .list }
      else
        .error <| ascii "list does not accept positional arguments"
    else if command = ascii "show" then
      match arguments with
      | [entryId] => .ok { options with command := .show, entryId }
      | _         => .error <| ascii "show requires exactly one entry ID"
    else if command = ascii "validate" then
      match arguments with
      | []     => .ok { options with command := .validate }
      | [path] =>
        if options.knowledgePathExplicit then
          .error <| ascii "specify the validation path either positionally or with --knowledge"
        else
          .ok { options with command := .validate, knowledgePath := path, knowledgePathExplicit := true }
      | _      => .error <| ascii "validate accepts at most one knowledge path"
    else
      .ok { options with command := .search, query := join state.positional 0 }

end CliState

-- The loop over the arguments up to `--`. Help and version end it at once.
def parseArguments (state : CliState) : List Bytes → Except Bytes CliOptions
  | [] => state.finish
  | argument :: rest =>
    if argument = ascii "--" then
      { rest.foldl CliState.push state with forceImplicitQuery := state.positional.isEmpty }.finish
    else if argument = ascii "--help" ∨ argument = ascii "-h" then
      .ok { state.options with command := .help }
    else if argument = ascii "--version" ∨ argument = ascii "-V" then
      .ok { state.options with command := .version }
    else if argument = ascii "--explain" then
      parseArguments { state with options := { state.options with explain := true } } rest
    else if argument = ascii "--json" then
      parseArguments { state with options := { state.options with json := true } } rest
    else if argument = ascii "--raw" then
      parseArguments { state with options := { state.options with raw := true } } rest
    else if argument = ascii "--knowledge" then
      match rest with
      | []            => .error <| ascii "--knowledge requires a path"
      | value :: rest => do parseArguments (← state.setKnowledge value) rest
    else if startsWith argument (ascii "--knowledge=") then do
      parseArguments (← state.setKnowledge <| argument.drop (ascii "--knowledge=").length) rest
    else if argument = ascii "--limit" then
      match rest with
      | []            => .error <| ascii "--limit requires an integer"
      | value :: rest => do parseArguments (← state.setLimit value) rest
    else if startsWith argument (ascii "--limit=") then do
      parseArguments (← state.setLimit <| argument.drop (ascii "--limit=").length) rest
    else if 1 < argument.length ∧ argument.head? = byte '-' then
      .error <| ascii "unknown option: " ++ argument ++ ascii " (use -- before query flags)"
    else
      parseArguments (state.push argument) rest

def parseCommandLine (arguments : List Bytes) : Except Bytes CliOptions :=
  parseArguments {} arguments

-- What the operating system knows of paths. `none` stands for an error.
structure Paths where
  weaklyCanonical : Bytes → Option Bytes
  isDirectory     : Bytes → Bool

def parentPath (path : Bytes) : Bytes :=
  let directory := path.rdropWhile (· != byte '/')
  let parent    := directory.rdropWhile (· == byte '/')
  if path.all (· == byte '/') then path else if parent.isEmpty then directory.take 1 else parent

section

variable (paths : Paths) (value currentDirectory : Bytes)

def absolute : Bytes :=
  if isAbsolute value then value else slash currentDirectory value

def normalizedAbsolute : Bytes :=
  let combined := absolute value currentDirectory
  (paths.weaklyCanonical combined).getD (lexicallyNormal combined)

-- `environment` is the value of `HOWLINUX_KNOWLEDGE`.
def resolveKnowledgePath (environment : Option Bytes) (options : CliOptions) (executablePath : Bytes) :
    Bytes :=
  let knowledge := ascii "knowledge"
  if options.knowledgePathExplicit then
    normalizedAbsolute paths options.knowledgePath currentDirectory
  else if environment.any (!·.isEmpty) then
    normalizedAbsolute paths (environment.getD []) currentDirectory
  else
    let executableDirectory := parentPath <| normalizedAbsolute paths executablePath currentDirectory
    let candidates := [
      slash executableDirectory knowledge,
      slash (slash (slash (parentPath executableDirectory) kInstallDataDirectory) (ascii "howlinux")) knowledge,
      slash currentDirectory knowledge]
    normalizedAbsolute paths ((candidates.find? paths.isDirectory).getD <| slash currentDirectory knowledge)
      currentDirectory

end

def helpLines : List String := [
  " - offline Linux knowledge search",
  "",
  "Usage:",
  "  howlinux [options] <query...>",
  "  howlinux [options] search <query...>",
  "  howlinux [options] list",
  "  howlinux [options] show <entry-id>",
  "  howlinux [options] validate [path]",
  "",
  "Options:",
  "  -h, --help              Show this help and exit",
  "  -V, --version           Show the version and exit",
  "      --knowledge <path>  Use this knowledge directory",
  "      --limit <n>         Return at most n results (1-100, default 5)",
  "      --explain           Show ranking components and match reasons",
  "      --json              Emit stable, ANSI-free JSON",
  "      --raw               Show original Markdown without rendering",
  "      --                  Treat all following arguments as query text",
  "",
  "Examples:",
  "  howlinux rename folder",
  "  howlinux --explain 'what does chmod 755 mean'",
  "  howlinux --knowledge /srv/howlinux/knowledge validate",
  "  howlinux search -- --recursive",
  "",
  "howlinux reads local YAML/Markdown only. It never executes shown commands",
  "and never uses a network or generative AI."]

def printHelp : Bytes :=
  ascii "howlinux " ++ kVersion ++ helpLines.flatMap fun line => ascii line ++ [byte '\n']

-- The limit of a search never leaves its range.
structure CliOptions.WellFormed (options : CliOptions) : Prop where
  limit_pos : 0 < options.limit
  limit_le  : options.limit ≤ maximumLimit

section

variable {state state' : CliState} {options : CliOptions} {arguments : List Bytes} {value : Bytes} {limit : ℕ}

theorem parseLimit_range (h : parseLimit value = some limit) : 0 < limit ∧ limit ≤ maximumLimit := by
  unfold parseLimit at h
  split at h
  case isTrue  => contradiction
  case isFalse =>
    dsimp only at h
    split at h
    case isTrue     => contradiction
    case isFalse hr =>
      cases h
      exact ⟨Nat.pos_of_ne_zero fun h => hr (.inl h), not_lt.mp fun h => hr (.inr h)⟩

theorem CliOptions.WellFormed.of_limit_eq {options options' : CliOptions} (h : options.WellFormed)
    (hl : options'.limit = options.limit) : options'.WellFormed :=
  ⟨hl ▸ h.limit_pos, hl ▸ h.limit_le⟩

namespace CliState

theorem setKnowledge_wellFormed (hw : state.options.WellFormed) (h : state.setKnowledge value = .ok state') :
    state'.options.WellFormed := by
  unfold setKnowledge at h
  split_ifs at h
  cases h
  exact hw.of_limit_eq rfl

theorem setLimit_wellFormed (h : state.setLimit value = .ok state') : state'.options.WellFormed := by
  unfold setLimit at h
  split at h
  case h_1    => contradiction
  case h_2 hl =>
    cases h
    exact ⟨(parseLimit_range hl).left, (parseLimit_range hl).right⟩

theorem finish_wellFormed (hw : state.options.WellFormed) (h : state.finish = .ok options) :
    options.WellFormed := by
  refine hw.of_limit_eq ?_
  unfold finish at h
  dsimp only at h
  repeat' split at h
  all_goals cases h
  all_goals rfl

theorem options_foldl_push : (arguments.foldl push state).options = state.options := by
  induction arguments generalizing state
  case nil               => rfl
  case cons arg rest hi  => exact hi

end CliState

theorem exists_of_bind_eq_ok {ε α β : Type} {x : Except ε α} {f : α → Except ε β} {b : β}
    (h : x >>= f = .ok b) : ∃ a, x = .ok a ∧ f a = .ok b := by
  cases x
  case error => contradiction
  case ok a  => exact ⟨a, rfl, h⟩

theorem parseArguments_wellFormed (hw : state.options.WellFormed) :
    parseArguments state arguments = .ok options → options.WellFormed := by
  fun_induction parseArguments state arguments
  case case1 => exact CliState.finish_wellFormed hw
  case case2 => exact CliState.finish_wellFormed (hw.of_limit_eq <| congrArg _ CliState.options_foldl_push)
  case case3 | case4 =>
    intro h
    cases h
    exact hw.of_limit_eq rfl
  case case8 | case11 | case14 =>
    intro h
    contradiction
  case case9 hi | case10 hi =>
    intro h
    have ⟨_, hs, h⟩ := exists_of_bind_eq_ok h
    exact hi _ (CliState.setKnowledge_wellFormed hw hs) h
  case case12 hi | case13 hi =>
    intro h
    have ⟨_, hs, h⟩ := exists_of_bind_eq_ok h
    exact hi _ (CliState.setLimit_wellFormed hs) h
  case case5 hi | case6 hi | case7 hi | case15 hi => exact hi <| hw.of_limit_eq rfl

theorem parseCommandLine_wellFormed (h : parseCommandLine arguments = .ok options) : options.WellFormed :=
  parseArguments_wellFormed ⟨by decide, by decide⟩ h

end

end Howlinux
