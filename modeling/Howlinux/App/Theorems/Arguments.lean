import Howlinux.App.Cli

open Bytes List

namespace Howlinux

-- An argument list, taken apart into its options, its positional arguments, and what starts with `--`.
structure Arrangement where
  options    : List Bytes := []
  positional : List Bytes := []
  rest       : List Bytes := []

namespace Arrangement

def list (arrangement : Arrangement) : List Bytes :=
  arrangement.options ++ (arrangement.positional ++ arrangement.rest)

def addOption (argument : Bytes) (arrangement : Arrangement) : Arrangement :=
  { arrangement with options := argument :: arrangement.options }

def addPositional (argument : Bytes) (arrangement : Arrangement) : Arrangement :=
  { arrangement with positional := argument :: arrangement.positional }

end Arrangement

def flags : List Bytes :=
  ["--help", "-h", "--version", "-V", "--explain", "--json", "--raw"].map ascii

def valueOptions : List Bytes :=
  ["--knowledge", "--limit"].map ascii

-- An option that is a single argument.
def isOption (argument : Bytes) : Bool :=
  flags.contains argument || valueOptions.any fun option => startsWith argument (option ++ ascii "=")

-- Options come first, and values are joined to their options.
def arrange : List Bytes → Arrangement
  | [] => {}
  | argument :: rest =>
    if argument = ascii "--" then
      { rest := argument :: rest }
    else if argument ∈ valueOptions then
      match rest with
      | []            => { positional := [argument] }
      | value :: rest => (arrange rest).addOption (argument ++ ascii "=" ++ value)
    else if isOption argument then
      (arrange rest).addOption argument
    else
      (arrange rest).addPositional argument

section

variable {argument value : Bytes} {state : CliState} {rest : List Bytes} {options : CliOptions}

-- A value option with its value is none of the other arguments.
theorem notMem_of_startsWith {start : Bytes} {others : List Bytes} (h : startsWith argument start)
    (ho : others.all fun other => !startsWith other start) : argument ∉ others := by
  intro hm
  have := all_eq_true.mp ho argument hm
  simp [h] at this

theorem not_startsWith_knowledge (h : startsWith argument (ascii "--limit=")) :
    startsWith argument (ascii "--knowledge=") = false := by
  by_contra hk
  have hl := isPrefixOf_iff_prefix.mp h
  have hk := isPrefixOf_iff_prefix.mp (Bool.not_eq_false _ ▸ hk)
  exact absurd (prefix_of_prefix_length_le hl hk (by decide)) (by decide)

theorem parseArguments_knowledge (h : startsWith argument (ascii "--knowledge=")) :
    parseArguments state (argument :: rest) =
      state.setKnowledge (argument.drop (ascii "--knowledge=").length) >>= (parseArguments · rest) := by
  have hn : argument ∉ ascii "--" :: (flags ++ valueOptions) := notMem_of_startsWith h rfl
  simp only [flags, valueOptions, map_cons, map_nil, cons_append, nil_append, mem_cons, not_mem_nil,
    or_false, not_or] at hn
  rw [parseArguments.eq_def]
  simp only [hn, h, or_self, if_true, if_false]

theorem parseArguments_limit (h : startsWith argument (ascii "--limit=")) :
    parseArguments state (argument :: rest) =
      state.setLimit (argument.drop (ascii "--limit=").length) >>= (parseArguments · rest) := by
  have hn : argument ∉ ascii "--" :: (flags ++ valueOptions) := notMem_of_startsWith h rfl
  simp only [flags, valueOptions, map_cons, map_nil, cons_append, nil_append, mem_cons, not_mem_nil,
    or_false, not_or] at hn
  rw [parseArguments.eq_def]
  simp only [hn, h, not_startsWith_knowledge h, or_self, if_true, if_false, Bool.false_eq_true]

-- What an option does to the options that were read so far. Help and version end the loop.
theorem exists_effect (h : isOption argument) : ∃ effect : CliOptions → Except Bytes CliOptions,
    (∀ state rest, parseArguments state (argument :: rest) = effect state.options) ∨
    ∀ state rest, parseArguments state (argument :: rest) =
      effect state.options >>= fun options => parseArguments { state with options } rest := by
  simp only [isOption, flags, valueOptions, map_cons, map_nil, Bool.or_eq_true, any_cons, any_nil,
    contains_eq_mem, decide_eq_true_eq, mem_cons, not_mem_nil, or_false, Bool.false_eq_true] at h
  rcases h with (rfl | rfl | rfl | rfl | rfl | rfl | rfl) | h | h
  · refine ⟨fun options => .ok { options with command := .help }, .inl fun _ _ => ?_⟩
    rw [parseArguments.eq_def]
    rfl
  · refine ⟨fun options => .ok { options with command := .help }, .inl fun _ _ => ?_⟩
    rw [parseArguments.eq_def]
    rfl
  · refine ⟨fun options => .ok { options with command := .version }, .inl fun _ _ => ?_⟩
    rw [parseArguments.eq_def]
    rfl
  · refine ⟨fun options => .ok { options with command := .version }, .inl fun _ _ => ?_⟩
    rw [parseArguments.eq_def]
    rfl
  · refine ⟨fun options => .ok { options with explain := true }, .inr fun _ _ => ?_⟩
    rw [parseArguments.eq_def]
    rfl
  · refine ⟨fun options => .ok { options with json := true }, .inr fun _ _ => ?_⟩
    rw [parseArguments.eq_def]
    rfl
  · refine ⟨fun options => .ok { options with raw := true }, .inr fun _ _ => ?_⟩
    rw [parseArguments.eq_def]
    rfl
  · refine ⟨fun options => (CliState.setKnowledge { options } <|
      argument.drop (ascii "--knowledge=").length).map (·.options), .inr fun state rest => ?_⟩
    rw [parseArguments_knowledge h]
    simp only [CliState.setKnowledge]
    split_ifs <;> rfl
  · refine ⟨fun options => (CliState.setLimit { options } <|
      argument.drop (ascii "--limit=").length).map (·.options), .inr fun state rest => ?_⟩
    rw [parseArguments_limit h]
    unfold CliState.setLimit
    split <;> rfl

theorem parseArguments_value (h : argument ∈ valueOptions) :
    parseArguments state (argument :: value :: rest) =
      parseArguments state ((argument ++ ascii "=" ++ value) :: rest) := by
  simp only [valueOptions, map_cons, map_nil, mem_cons, not_mem_nil, or_false] at h
  rcases h with rfl | rfl
  · have hj : startsWith (ascii "--knowledge" ++ ascii "=" ++ value) (ascii "--knowledge=") := rfl
    rw [parseArguments_knowledge hj, parseArguments.eq_def]
    rfl
  · have hj : startsWith (ascii "--limit" ++ ascii "=" ++ value) (ascii "--limit=") := rfl
    rw [parseArguments_limit hj, parseArguments.eq_def]
    rfl

-- An option is read wherever it stands.
theorem parseArguments_option {arguments arguments' : List Bytes} (ho : isOption argument)
    (h : parseArguments state (argument :: arguments) = .ok options)
    (hi : ∀ state, parseArguments state arguments = .ok options →
      parseArguments state arguments' = .ok options) :
    parseArguments state (argument :: arguments') = .ok options := by
  have ⟨effect, he⟩ := exists_effect ho
  cases he
  case inl he => rw [he, ← h, he]
  case inr he =>
    rw [he] at h ⊢
    have ⟨options, hs, h⟩ := exists_of_bind_eq_ok h
    rw [hs]
    exact hi _ h

-- What is left are unknown options and positional arguments.
theorem parseArguments_other (hn : argument ≠ ascii "--") (hv : argument ∉ valueOptions)
    (ho : isOption argument = false) : parseArguments state (argument :: rest) =
      if 1 < argument.length ∧ argument.head? = byte '-' then
        .error <| ascii "unknown option: " ++ argument ++ ascii " (use -- before query flags)"
      else
        parseArguments (state.push argument) rest := by
  simp only [isOption, flags, valueOptions, map_cons, map_nil, Bool.or_eq_false_iff, any_cons, any_nil,
    contains_eq_mem, decide_eq_false_iff_not, mem_cons, not_mem_nil, or_false, not_or] at ho hv
  have hk : startsWith argument (ascii "--knowledge=") = false := ho.right.left
  have hl : startsWith argument (ascii "--limit=") = false := ho.right.right.left
  rw [parseArguments.eq_def]
  simp only [hn, ho.left, hv, hk, hl, or_self, if_false, Bool.false_eq_true]

-- An argument that is neither an option nor taken for one.
structure IsPositional (argument : Bytes) : Prop where
  not_end     : argument ≠ ascii "--"
  not_value   : argument ∉ valueOptions
  not_option  : isOption argument = false
  not_unknown : ¬(1 < argument.length ∧ argument.head? = byte '-')

theorem IsPositional.parseArguments (h : IsPositional argument) :
    parseArguments state (argument :: rest) = parseArguments (state.push argument) rest := by
  rw [parseArguments_other h.not_end h.not_value h.not_option, if_neg h.not_unknown]

theorem IsPositional.parseArguments_append {read : List Bytes} (h : IsPositional argument)
    (ho : ∀ option ∈ read, isOption option) :
    Howlinux.parseArguments state (read ++ argument :: rest) =
      Howlinux.parseArguments (state.push argument) (read ++ rest) := by
  induction read generalizing state
  case nil => exact h.parseArguments
  case cons option read hi =>
    have ⟨hf, ho⟩ := forall_mem_cons.mp ho
    have ⟨effect, he⟩ := exists_effect hf
    rw [cons_append, cons_append]
    cases he
    case inl he => rw [he, he, CliState.push]
    case inr he =>
      rw [he, he]
      exact bind_congr fun options => hi ho

theorem isOption_value (h : argument ∈ valueOptions) : isOption (argument ++ ascii "=" ++ value) := by
  simp only [valueOptions, map_cons, map_nil, mem_cons, not_mem_nil, or_false] at h
  rcases h with rfl | rfl
  · exact Bool.or_eq_true_iff.mpr <| .inr rfl
  · exact Bool.or_eq_true_iff.mpr <| .inr rfl

theorem isOption_of_mem_arrange {arguments : List Bytes} :
    ∀ option ∈ (arrange arguments).options, isOption option := by
  fun_induction arrange arguments
  case case1 => simp
  case case2 => simp
  case case3 => simp
  case case4 hv _ _ hi => exact forall_mem_cons.mpr ⟨isOption_value hv, hi⟩
  case case5 ho hi => exact forall_mem_cons.mpr ⟨ho, hi⟩
  case case6 hi => exact hi

-- Every accepted list can be arranged, from any state of the loop on.
theorem parseArguments_arrange {arguments : List Bytes} (h : parseArguments state arguments = .ok options) :
    parseArguments state (arrange arguments).list = .ok options := by
  fun_induction arrange arguments generalizing state
  case case1 => exact h
  case case2 => exact h
  case case3 => exact h
  case case4 hv _ _ hi =>
    rw [parseArguments_value hv] at h
    exact parseArguments_option (isOption_value hv) h fun _ => hi
  case case5 ho hi => exact parseArguments_option ho h fun _ => hi
  case case6 hn hv ho hi =>
    rw [Bool.not_eq_true] at ho
    rw [parseArguments_other hn hv ho] at h
    split at h
    case isTrue     => contradiction
    case isFalse hu =>
      have hp : IsPositional _ := ⟨hn, hv, ho, hu⟩
      rw [Arrangement.list, Arrangement.addPositional, cons_append,
        hp.parseArguments_append isOption_of_mem_arrange]
      exact hi h

end

-- Options commute with positional arguments, and their two spellings agree.
theorem parseCommandLine_arrange {arguments : List Bytes} {options : CliOptions}
    (h : parseCommandLine arguments = .ok options) :
    parseCommandLine (arrange arguments).list = .ok options :=
  parseArguments_arrange h

theorem parseCommandLine_arrange_find :
    parseCommandLine (["--limit=3", "--json", "find", "file", "--", "--raw"].map ascii) =
      .ok { json := true, limit := 3, query := ascii "find file --raw" } :=
  have h : parseCommandLine (["find", "--limit", "3", "file", "--json", "--", "--raw"].map ascii) =
    .ok { json := true, limit := 3, query := ascii "find file --raw" } := rfl
  parseCommandLine_arrange h

end Howlinux
