import Howlinux.Concepts.Groups

open Bytes

namespace Howlinux

-- The phrases of a dictionary are non-empty and already normalized.
structure IsPhrase (phrase : Bytes) : Prop where
  ne_nil : phrase ≠ []
  normal : normalizePhrase phrase = phrase

theorem normalizePhrase_normalizePhrase (source : Bytes) :
    normalizePhrase (normalizePhrase source) = normalizePhrase source := by
  simp [normalizePhrase, tokenize_joinTokens]

theorem isPhrase_normalizePhrase {source : Bytes} (h : normalizePhrase source ≠ []) :
    IsPhrase (normalizePhrase source) :=
  ⟨h, normalizePhrase_normalizePhrase source⟩

theorem IsPhrase.tokens_ne_nil {phrase : Bytes} (h : IsPhrase phrase) :
    tokenize phrase true false ≠ [] := by
  intro hn
  have := h.normal
  simp [normalizePhrase, hn, joinTokens, h.ne_nil.symm] at this

section

variable {path canonical : Bytes} {phrases : PhraseMap}

theorem isPhrase_of_mem_readAliases {localAliases : Finset Bytes} {items : List Yaml} {phrase : Bytes}
    (h : phrase ∈ (readAliases path canonical localAliases items).2) : IsPhrase phrase := by
  fun_induction readAliases path canonical localAliases items <;> simp at h
  case case4 hn _ _ _ hr hi =>
    cases h
    case inl h => exact h ▸ isPhrase_normalizePhrase (by simpa using hn)
    case inr h => simp_all
  all_goals simp_all

theorem isPhrase_of_mem_readGroups {items : List (Yaml × Yaml)} {group : ParsedConceptGroup}
    (h : group ∈ (readGroups path phrases items).2) :
    IsPhrase group.canonical ∧ ∀ phrase ∈ group.aliases, IsPhrase phrase := by
  induction items generalizing phrases
  case nil => simp [readGroups] at h
  case cons item items hi =>
    have hs {phrases : PhraseMap} (h : group ∈ (readGroups path phrases items).2) := hi h
    obtain ⟨name, value⟩ := item
    cases name
    case scalar sourceName =>
      by_cases hn : normalizePhrase sourceName = []
      case pos => exact hs (by simpa [readGroups, hn] using h)
      case neg =>
        cases hl : phrases.lookup (normalizePhrase sourceName)
        case some => exact hs (by simpa [readGroups, hn, hl] using h)
        case none =>
          cases value
          case sequence aliases =>
            simp only [readGroups, List.isEmpty_iff, hn, if_false, hl, List.mem_cons] at h
            rcases h with rfl | h
            · exact ⟨isPhrase_normalizePhrase hn, fun phrase hm => isPhrase_of_mem_readAliases hm⟩
            · exact hs h
          all_goals exact hs (by simpa [readGroups, hn, hl] using h)
    all_goals exact hs (by simpa [readGroups] using h)

theorem perm_sortGroups (groups : List ParsedConceptGroup) : (sortGroups groups).Perm groups :=
  List.perm_sortBy ..

theorem mem_sortGroups {groups : List ParsedConceptGroup} {group : ParsedConceptGroup} :
    group ∈ sortGroups groups ↔ group ∈ groups :=
  (perm_sortGroups groups).mem_iff

theorem lookup_canonicalPhrases {groups : List ParsedConceptGroup} {phrase : Bytes} :
    (canonicalPhrases groups).lookup phrase =
      if phrase ∈ groups.map (·.canonical) then some phrase else none := by
  rw [canonicalPhrases, Finmap.lookup_foldl_emplace, Finmap.lookup_empty, Option.none_or]
  cases h : groups.find? fun group => group.canonical = phrase
  case none       => simpa using List.find?_eq_none.mp h
  case some group =>
    have hc : group.canonical = phrase := by simpa using List.find?_some h
    have hm : phrase ∈ groups.map (·.canonical) := List.mem_map.mpr ⟨group, List.mem_of_find?_eq_some h, hc⟩
    rw [if_pos hm, Option.map_some, hc]

theorem mem_canonicalPhrases {groups : List ParsedConceptGroup} {phrase : Bytes} :
    phrase ∈ canonicalPhrases groups ↔ phrase ∈ groups.map (·.canonical) := by
  rw [Finmap.mem_iff, lookup_canonicalPhrases]
  split <;> simp_all

theorem mem_of_mem_mapAliases {pairs : List (Bytes × Bytes)} {phrase : Bytes}
    (h : phrase ∈ (mapAliases path phrases pairs).2) :
    phrase ∈ phrases ∨ ∃ pair ∈ pairs, pair.2 = phrase := by
  fun_induction mapAliases path phrases pairs
  case case1 => exact .inl h
  all_goals
    simp only [List.mem_cons, exists_eq_or_imp]
    grind [Finmap.mem_insert]

theorem mem_aliasPairs {groups : List ParsedConceptGroup} {pair : Bytes × Bytes} :
    pair ∈ aliasPairs groups ↔
      ∃ group ∈ groups, group.canonical = pair.1 ∧ pair.2 ∈ group.aliases := by
  simp only [aliasPairs, List.mem_flatMap, List.mem_map, Prod.ext_iff]
  grind

end

structure ConceptMatch where
  canonical   : Bytes
  phrase      : Bytes
  tokenOffset : ℕ
  tokenLength : ℕ
  deriving DecidableEq, Repr

structure ConceptLoadReport where
  filePresent    : Bool := false
  usable         : Bool := true
  conceptsLoaded : ℕ := 0
  diagnostics    : List Diagnostic := []
  deriving DecidableEq, Repr

def ConceptLoadReport.hasIssues (report : ConceptLoadReport) : Bool :=
  !report.usable || !report.diagnostics.isEmpty

structure PhraseDefinition where
  phrase    : Bytes
  canonical : Bytes
  tokens    : List Bytes
  deriving DecidableEq, Repr

def PhraseDefinition.before (left right : PhraseDefinition) : Bool :=
  if left.tokens.length != right.tokens.length then
    left.tokens.length > right.tokens.length
  else if left.phrase != right.phrase then
    left.phrase < right.phrase
  else
    left.canonical < right.canonical

def definePhrase (phrases : PhraseMap) (phrase : Bytes) : Option PhraseDefinition :=
  (phrases.lookup phrase).map fun canonical =>
    { phrase, canonical, tokens := tokenize phrase true false }

-- The phrases come in the order in which the hash table is walked.
def phraseDefinitions (order : HashOrder Bytes) (phrases : PhraseMap) : List PhraseDefinition :=
  ((order.list phrases.keys).filterMap (definePhrase phrases)).sortBy PhraseDefinition.before

def PhraseDefinition.key (definition : PhraseDefinition) : ℕᵒᵈ ×ₗ Bytes ×ₗ Bytes :=
  toLex (OrderDual.toDual definition.tokens.length, toLex (definition.phrase, definition.canonical))

theorem PhraseDefinition.before_comparesBy : List.ComparesBy before key := by
  intro a b
  simp only [before, key, Prod.Lex.toLex_lt_toLex, OrderDual.toDual_lt_toDual,
    EmbeddingLike.apply_eq_iff_eq]
  grind

theorem mem_phraseDefinitions {order : HashOrder Bytes} {phrases : PhraseMap}
    {definition : PhraseDefinition} :
    definition ∈ phraseDefinitions order phrases ↔
      phrases.lookup definition.phrase = some definition.canonical ∧
        definition.tokens = tokenize definition.phrase true false := by
  simp only [phraseDefinitions, List.mem_sortBy, List.mem_filterMap, order.mem, definePhrase,
    Option.map_eq_some_iff, Finmap.mem_keys]
  constructor
  · rintro ⟨phrase, _, canonical, hc, rfl⟩
    exact ⟨hc, rfl⟩
  · rintro ⟨hc, ht⟩
    exact ⟨_, Finmap.mem_of_lookup_eq_some hc, _, hc, by rw [← ht]⟩

theorem phraseDefinitions_order (order order' : HashOrder Bytes) (phrases : PhraseMap) :
    phraseDefinitions order phrases = phraseDefinitions order' phrases := by
  apply List.sortBy_eq_of_perm PhraseDefinition.before_comparesBy
  case hp => exact (order.perm order' _).filterMap _
  case hi =>
    intro a ha b hb h
    have ⟨_, hta⟩ := mem_phraseDefinitions.mp (List.mem_sortBy.mpr ha : a ∈ phraseDefinitions order _)
    have ⟨_, htb⟩ := mem_phraseDefinitions.mp (List.mem_sortBy.mpr hb : b ∈ phraseDefinitions order _)
    simp only [PhraseDefinition.key, EmbeddingLike.apply_eq_iff_eq, Prod.mk.injEq] at h
    cases a
    cases b
    simp_all

-- A dictionary can only be built from proper phrases, and its definitions are those of its map.
structure ConceptDictionary where
  phraseToCanonical : PhraseMap := ∅
  definitions       : List PhraseDefinition := []
  report            : ConceptLoadReport := {}
  isPhrase          : ∀ phrase ∈ phraseToCanonical, IsPhrase phrase
  definitions_eq    : ∀ order, definitions = phraseDefinitions order phraseToCanonical

namespace ConceptDictionary

def empty (report : ConceptLoadReport) : ConceptDictionary where
  report             := report
  isPhrase _ h       := absurd h Finmap.notMem_empty
  definitions_eq _   := by
    symm
    simp [List.eq_nil_iff_forall_not_mem, mem_phraseDefinitions]

instance : Inhabited ConceptDictionary where
  default := empty {}

variable (dictionary : ConceptDictionary)

theorem mem_definitions {definition : PhraseDefinition} :
    definition ∈ dictionary.definitions ↔
      dictionary.phraseToCanonical.lookup definition.phrase = some definition.canonical ∧
        definition.tokens = tokenize definition.phrase true false := by
  rw [dictionary.definitions_eq .sorted, mem_phraseDefinitions]

variable {dictionary}

theorem tokens_ne_nil {definition : PhraseDefinition} (h : definition ∈ dictionary.definitions) :
    definition.tokens ≠ [] := by
  have ⟨hc, ht⟩ := dictionary.mem_definitions.mp h
  exact ht ▸ (dictionary.isPhrase _ <| Finmap.mem_of_lookup_eq_some hc).tokens_ne_nil

theorem joinTokens_tokens {definition : PhraseDefinition} (h : definition ∈ dictionary.definitions) :
    joinTokens definition.tokens = definition.phrase := by
  have ⟨hc, ht⟩ := dictionary.mem_definitions.mp h
  rw [ht]
  exact (dictionary.isPhrase _ <| Finmap.mem_of_lookup_eq_some hc).normal

end ConceptDictionary

-- What the file system and the YAML parser answer about the concepts file.
inductive ConceptsFile
  | inspectError (message : Bytes)
  | missing
  | irregular (error : Option Bytes)
  | document (outcome : YamlOutcome)

def isConceptsKey (item : Yaml × Yaml) : Bool :=
  match item.1 with
  | .scalar key => key == ascii "concepts"
  | _           => false

def hasErrors (diagnostics : List Diagnostic) : Bool :=
  diagnostics.any (·.severity = .error)

namespace ConceptDictionary

def unusable (filePresent : Bool) (diagnostics : List Diagnostic) : ConceptDictionary :=
  empty { filePresent, usable := false, diagnostics }

-- The phrases of sorted groups, with the errors of collisions and of cycles.
def mapPhrases (path : Bytes) (groups : List ParsedConceptGroup) : List Diagnostic × PhraseMap :=
  let (collisions, phrases) := mapAliases path (canonicalPhrases groups) (aliasPairs groups)
  (collisions ++ detectCycles groups path, phrases)

theorem isPhrase_of_mem_mapPhrases {path : Bytes} {items : List (Yaml × Yaml)} {phrase : Bytes}
    (h : phrase ∈ (mapPhrases path <| sortGroups (readGroups path ∅ items).2).2) :
    IsPhrase phrase := by
  cases mem_of_mem_mapAliases h
  case inl h =>
    have ⟨group, hg, he⟩ := List.mem_map.mp <| mem_canonicalPhrases.mp h
    exact he ▸ (isPhrase_of_mem_readGroups <| mem_sortGroups.mp hg).left
  case inr h =>
    have ⟨pair, hp, he⟩ := h
    have ⟨group, hg, _, ha⟩ := mem_aliasPairs.mp hp
    exact he ▸ (isPhrase_of_mem_readGroups <| mem_sortGroups.mp hg).right _ ha

-- The `concepts` mapping, below a root whose own errors are `diagnostics`.
def loadGroups (order : HashOrder Bytes) (path : Bytes) (diagnostics : List Diagnostic)
    (items : List (Yaml × Yaml)) : ConceptDictionary :=
  let groups := sortGroups (readGroups path ∅ items).2
  let diagnostics := diagnostics ++ (readGroups path ∅ items).1 ++ (mapPhrases path groups).1
  if hasErrors diagnostics then
    unusable true diagnostics
  else {
    phraseToCanonical := (mapPhrases path groups).2
    definitions       := phraseDefinitions order (mapPhrases path groups).2
    report            := { filePresent := true, conceptsLoaded := groups.length, diagnostics }
    isPhrase _        := isPhrase_of_mem_mapPhrases
    definitions_eq _  := phraseDefinitions_order .. }

-- A repeated `concepts` key is an error, and its last value is the one that is read.
def loadRoot (order : HashOrder Bytes) (path : Bytes) (root : Yaml) : ConceptDictionary :=
  match root with
  | .map items =>
    match (items.filter isConceptsKey).reverse with
    | [] => unusable true [addError path [] (ascii "concepts YAML must contain a 'concepts' mapping")]
    | (_, concepts) :: earlier =>
      let diagnostics := if earlier.isEmpty then [] else
        [addError path [] (ascii "duplicate 'concepts' definitions at the YAML root")]
      match concepts with
      | .map groups => loadGroups order path diagnostics groups
      | _ => unusable true <|
        diagnostics ++ [addError path [] (ascii "'concepts' must be a mapping")]
  | _ => unusable true [addError path [] (ascii "concepts YAML root must be a mapping")]

-- `load` forgets what the dictionary held before and leaves its report in the new one.
def load (order : HashOrder Bytes) (path : Bytes) (file : ConceptsFile) (_ : ConceptDictionary) :
    ConceptDictionary :=
  match file with
  | .inspectError message =>
    unusable false [addError path [] (ascii "cannot inspect concepts file: " ++ message)]
  | .missing => empty {}
  | .irregular (some message) =>
    unusable true [addError path [] (ascii "cannot inspect concepts file: " ++ message)]
  | .irregular none =>
    unusable true [addError path [] (ascii "concepts path is not a regular file")]
  | .document (.yamlException what) =>
    unusable true [addError path [] (ascii "cannot parse concepts YAML: " ++ what)]
  | .document (.exception what) =>
    unusable true [addError path [] (ascii "cannot read concepts file: " ++ what)]
  | .document (.node root) => loadRoot order path root

variable (dictionary : ConceptDictionary)

-- The definitions are sorted longest-first.
def select (tokens : List Bytes) : Option PhraseDefinition :=
  dictionary.definitions.find? (·.tokens.isPrefixOf tokens)

def detectFrom (offset : ℕ) : List Bytes → List ConceptMatch
  | [] => []
  | token :: rest =>
    match h : dictionary.select (token :: rest) with
    | none => detectFrom (offset + 1) rest
    | some selected =>
      { canonical   := selected.canonical
        phrase      := selected.phrase
        tokenOffset := offset
        tokenLength := selected.tokens.length } ::
      detectFrom (offset + selected.tokens.length) ((token :: rest).drop selected.tokens.length)
termination_by tokens => tokens.length
decreasing_by
  · simp
  · have := tokens_ne_nil <| List.mem_of_find?_eq_some h
    have := List.length_pos_iff.mpr this
    simp only [List.length_drop, List.length_cons]
    omega

def detect (orderedTokens : List Bytes) : List ConceptMatch :=
  dictionary.detectFrom 0 orderedTokens

def canonicalForPhrase (phrase : Bytes) : Option Bytes :=
  dictionary.phraseToCanonical.lookup (normalizePhrase phrase)

end ConceptDictionary

end Howlinux
