import Howlinux.Concepts.Dictionary

open Bytes List

namespace Howlinux

-- A group as an author writes it: a name and its aliases, both scalars.
structure SourceGroup where
  name    : Bytes
  aliases : List Bytes

namespace SourceGroup

def canonical (group : SourceGroup) : Bytes :=
  normalizePhrase group.name

def phrases (group : SourceGroup) : List Bytes :=
  group.aliases.map normalizePhrase

def toYaml (group : SourceGroup) : Yaml × Yaml :=
  (.scalar group.name, .sequence <| group.aliases.map .scalar)

def parsed (group : SourceGroup) : ParsedConceptGroup where
  canonical  := group.canonical
  sourceName := group.name
  aliases    := group.phrases

-- What makes a concepts file consistent.
structure Consistent (groups : List SourceGroup) : Prop where
  canonical_ne_nil : ∀ group ∈ groups, group.canonical ≠ []
  canonical_nodup  : (groups.map canonical).Nodup
  alias_ne_nil     : ∀ group ∈ groups, ∀ phrase ∈ group.phrases, phrase ≠ []
  alias_nodup      : ∀ group ∈ groups, group.phrases.Nodup
  alias_foreign    : ∀ group ∈ groups, ∀ phrase ∈ group.phrases, phrase ≠ group.canonical →
    ∀ other ∈ groups, other.canonical ≠ group.canonical →
      phrase ≠ other.canonical ∧ phrase ∉ other.phrases

-- The map such a file describes.
def Maps (groups : List SourceGroup) (phrase canonical : Bytes) : Prop :=
  ∃ group ∈ groups, group.canonical = canonical ∧ (phrase = canonical ∨ phrase ∈ group.phrases)

end SourceGroup

open SourceGroup

section

variable {path canonical : Bytes}

theorem readAliases_scalars_eq {localAliases : Finset Bytes} {aliases : List Bytes} :
    (readAliases path canonical localAliases (aliases.map .scalar)).1 = [] ↔
      (∀ phrase ∈ aliases.map normalizePhrase, phrase ≠ [] ∧ phrase ∉ localAliases) ∧
        (aliases.map normalizePhrase).Nodup := by
  induction aliases generalizing localAliases
  case nil => simp [readAliases]
  case cons hd tl hi =>
    by_cases he : normalizePhrase hd = []
    case pos => simp [readAliases, he]
    case neg =>
      by_cases hl : normalizePhrase hd ∈ localAliases
      case pos => simp [readAliases, he, hl]
      case neg =>
        simp only [map_cons, readAliases, List.isEmpty_iff, he, if_false, hl, hi, mem_cons, nodup_cons,
          Finset.mem_insert]
        grind

theorem readAliases_scalars_snd {localAliases : Finset Bytes} {aliases : List Bytes}
    (h : (readAliases path canonical localAliases (aliases.map .scalar)).1 = []) :
    (readAliases path canonical localAliases (aliases.map .scalar)).2 =
      aliases.map normalizePhrase := by
  induction aliases generalizing localAliases
  case nil => simp [readAliases]
  case cons hd tl hi =>
    by_cases he : normalizePhrase hd = []
    case pos => simp [readAliases, he] at h
    case neg =>
      by_cases hl : normalizePhrase hd ∈ localAliases
      case pos => simp [readAliases, he, hl] at h
      case neg =>
        simp only [map_cons, readAliases, List.isEmpty_iff, he, if_false, hl] at h ⊢
        simp [hi h]

theorem severity_of_mem_readAliases {localAliases : Finset Bytes} {items : List Yaml}
    {diagnostic : Diagnostic} (h : diagnostic ∈ (readAliases path canonical localAliases items).1) :
    diagnostic.severity = .error := by
  fun_induction readAliases path canonical localAliases items <;> grind [addError]

-- The conditions `readGroups` checks, while `canonicalSources` holds the names of earlier groups.
structure Readable (canonicalSources : PhraseMap) (groups : List SourceGroup) : Prop where
  canonical_ne_nil : ∀ group ∈ groups, group.canonical ≠ []
  canonical_fresh  : ∀ group ∈ groups, group.canonical ∉ canonicalSources
  canonical_nodup  : (groups.map SourceGroup.canonical).Nodup
  alias_ne_nil     : ∀ group ∈ groups, ∀ phrase ∈ group.phrases, phrase ≠ []
  alias_nodup      : ∀ group ∈ groups, group.phrases.Nodup

variable {canonicalSources : PhraseMap} {groups : List SourceGroup}

theorem readable_cons {group : SourceGroup} :
    Readable canonicalSources (group :: groups) ↔ group.canonical ≠ [] ∧
      group.canonical ∉ canonicalSources ∧ (∀ phrase ∈ group.phrases, phrase ≠ []) ∧
      group.phrases.Nodup ∧ Readable (canonicalSources.insert group.canonical group.name) groups := by
  constructor
  case mp =>
    intro ⟨h₁, h₂, h₃, h₄, h₅⟩
    simp only [mem_cons, forall_eq_or_imp, map_cons, nodup_cons, mem_map, not_exists] at h₁ h₂ h₃ h₄ h₅
    exact ⟨h₁.left, h₂.left, h₄.left, h₅.left, h₁.right, by grind [Finmap.mem_insert], h₃.right, h₄.right,
      h₅.right⟩
  case mpr =>
    intro ⟨h₁, h₂, h₃, h₄, ⟨h₅, h₆, h₇, h₈, h₉⟩⟩
    constructor <;> grind [Finmap.mem_insert]

theorem readGroups_eq_nil_iff :
    (readGroups path canonicalSources (groups.map toYaml)).1 = [] ↔
      Readable canonicalSources groups := by
  induction groups generalizing canonicalSources
  case nil => exact ⟨fun _ => by constructor <;> simp, fun _ => by simp [readGroups]⟩
  case cons hd tl hi =>
    rw [readable_cons]
    by_cases he : hd.canonical = []
    case pos =>
      have : normalizePhrase hd.name = [] := he
      simp [readGroups, toYaml, this, he]
    case neg =>
      have hn : normalizePhrase hd.name ≠ [] := he
      by_cases hf : hd.canonical ∈ canonicalSources
      case pos =>
        obtain ⟨source, hs⟩ := Finmap.mem_iff.mp (show normalizePhrase hd.name ∈ _ from hf)
        simp [readGroups, toYaml, hn, hs, hf]
      case neg =>
        have hs := Finmap.lookup_eq_none.mpr (show normalizePhrase hd.name ∉ _ from hf)
        simp only [map_cons, toYaml, readGroups, List.isEmpty_iff, hn, if_false, hs, append_eq_nil_iff,
          readAliases_scalars_eq]
        have hf : normalizePhrase hd.name ∉ canonicalSources := hf
        simp [hf, hn, hi, SourceGroup.canonical, SourceGroup.phrases, and_assoc]

theorem readGroups_snd (h : Readable canonicalSources groups) :
    (readGroups path canonicalSources (groups.map toYaml)).2 = groups.map parsed := by
  induction groups generalizing canonicalSources
  case nil => simp [readGroups]
  case cons hd tl hi =>
    obtain ⟨(he : normalizePhrase hd.name ≠ []), hf, hn, hu, ht⟩ := readable_cons.mp h
    have hs := Finmap.lookup_eq_none.mpr (show normalizePhrase hd.name ∉ _ from hf)
    have ha : (readAliases path (normalizePhrase hd.name) ∅ (hd.aliases.map .scalar)).1 = [] :=
      readAliases_scalars_eq.mpr ⟨fun phrase hp => ⟨hn phrase hp, by simp⟩, hu⟩
    simp only [map_cons, toYaml, readGroups, List.isEmpty_iff, he, if_false, hs,
      readAliases_scalars_snd ha]
    exact congrArg _ <| hi ht

theorem severity_of_mem_readGroups {items : List (Yaml × Yaml)} {diagnostic : Diagnostic}
    (h : diagnostic ∈ (readGroups path canonicalSources items).1) : diagnostic.severity = .error := by
  have hs := @severity_of_mem_readAliases
  induction items generalizing canonicalSources
  case nil => simp [readGroups] at h
  case cons item items hi =>
    obtain ⟨name, value⟩ := item
    cases name
    case scalar sourceName =>
      by_cases hn : normalizePhrase sourceName = []
      case pos => grind [readGroups, addError]
      case neg =>
        cases hl : canonicalSources.lookup (normalizePhrase sourceName)
        case some => grind [readGroups, addError]
        case none => cases value <;> grind [readGroups, addError]
    all_goals grind [readGroups, addError]

theorem severity_of_mem_mapAliases {phrases : PhraseMap} {pairs : List (Bytes × Bytes)}
    {diagnostic : Diagnostic} (h : diagnostic ∈ (mapAliases path phrases pairs).1) :
    diagnostic.severity = .error := by
  fun_induction mapAliases path phrases pairs <;> grind [addError]

end

-- No alias that is foreign to its own group's canonical belongs to another group.
def Unambiguous (groups : List ParsedConceptGroup) : Prop :=
  ∀ group ∈ groups, ∀ phrase ∈ group.aliases, phrase ≠ group.canonical →
    ∀ other ∈ groups, other.canonical ≠ group.canonical →
      phrase ≠ other.canonical ∧ phrase ∉ other.aliases

def ParsedConceptGroup.foreign (group : ParsedConceptGroup) : List Bytes :=
  group.aliases.filter (· != group.canonical)

variable {path : Bytes} {phrases : PhraseMap} {pairs : List (Bytes × Bytes)}

theorem mapAliases_eq_nil_iff :
    (mapAliases path phrases pairs).1 = [] ↔
      (∀ pair ∈ pairs, pair.2 ≠ pair.1 → pair.2 ∉ phrases) ∧
        ((pairs.filter fun pair => pair.2 != pair.1).map (·.2)).Nodup := by
  fun_induction mapAliases path phrases pairs
  case case1 => simp
  case case2 hi => simp_all
  case case3 canonical phrase rest hn existing he _ _ _ _ =>
    have := Finmap.mem_of_lookup_eq_some he
    simp [hn, this]
  case case4 canonical phrase rest hn he hi =>
    have := Finmap.lookup_eq_none.mp he
    have hf : (phrase != canonical) = true := by simpa using hn
    simp only [hi, filter_cons, hf, if_true, map_cons, nodup_cons, mem_cons, forall_eq_or_imp,
      Finmap.mem_insert, mem_map, mem_filter, bne_iff_ne]
    grind

theorem lookup_mapAliases {phrase canonical : Bytes} (h : (mapAliases path phrases pairs).1 = []) :
    (mapAliases path phrases pairs).2.lookup phrase = some canonical ↔
      phrases.lookup phrase = some canonical ∨ ((canonical, phrase) ∈ pairs ∧ phrase ≠ canonical) := by
  fun_induction mapAliases path phrases pairs
  case case1 => simp
  case case2 hi =>
    rw [hi h]
    grind
  case case3 => simp at h
  case case4 canonical' phrase' rest hn he hi =>
    rw [hi h]
    by_cases hp : phrase = phrase'
    case pos =>
      subst hp
      simp only [he, Finmap.lookup_insert, Option.some.injEq, mem_cons, Prod.mk.injEq]
      grind
    case neg => simp [Finmap.lookup_insert_of_ne _ hp, hp]

variable {groups : List ParsedConceptGroup}

theorem foreign_aliasPairs :
    ((aliasPairs groups).filter fun pair => pair.2 != pair.1).map (·.2) =
      groups.flatMap (·.foreign) := by
  simp only [aliasPairs, filter_flatMap, map_flatMap, filter_map, map_map]
  exact congrArg groups.flatMap <| funext fun group => by simp [ParsedConceptGroup.foreign]; rfl

theorem nodup_foreign_iff (hc : (groups.map (·.canonical)).Nodup)
    (ha : ∀ group ∈ groups, group.aliases.Nodup) :
    (groups.flatMap (·.foreign)).Nodup ↔ ∀ group ∈ groups, ∀ other ∈ groups,
      other.canonical ≠ group.canonical → group.foreign.Disjoint other.foreign := by
  have hc := pairwise_map.mp hc
  rw [nodup_flatMap]
  constructor
  case mp =>
    intro ⟨_, hd⟩ group hg other ho hn
    have hs : Std.Symm (Function.onFun Disjoint ParsedConceptGroup.foreign) :=
      ⟨fun _ _ h => h.symm⟩
    exact hd.forall hg ho (by grind)
  case mpr =>
    intro h
    refine ⟨fun group hg => (ha group hg).filter _, ?_⟩
    exact hc.imp_of_mem fun hg ho hn => h _ hg _ ho (Ne.symm hn)

theorem mapAliases_aliasPairs_eq_nil_iff (hc : (groups.map (·.canonical)).Nodup)
    (ha : ∀ group ∈ groups, group.aliases.Nodup) :
    (mapAliases path (canonicalPhrases groups) (aliasPairs groups)).1 = [] ↔ Unambiguous groups := by
  rw [mapAliases_eq_nil_iff, foreign_aliasPairs, nodup_foreign_iff hc ha]
  simp only [Prod.forall, mem_aliasPairs, mem_canonicalPhrases, mem_map, Unambiguous,
    disjoint_left, ParsedConceptGroup.foreign, mem_filter, bne_iff_ne]
  constructor
  case mp =>
    intro ⟨hn, hd⟩ group hg phrase hp hf other ho he
    have hc := fun e => hn _ _ ⟨group, hg, rfl, hp⟩ hf ⟨other, ho, e⟩
    exact ⟨fun e => hc e.symm, by grind⟩
  case mpr =>
    intro h
    exact ⟨by grind, by grind⟩

theorem detectCycles_of_unambiguous (h : Unambiguous groups) : detectCycles groups path = [] := by
  apply detectCycles_eq_nil
  intro canonical
  rw [eq_nil_iff_forall_not_mem]
  intro destination hd
  have ⟨group, hg, he, ha, hn, hm⟩ := mem_destinations_conceptGraph.mp hd
  have ⟨other, ho, hc⟩ := mem_map.mp hm
  subst he hc
  exact (h group hg _ ha hn other ho hn).left rfl

theorem mapPhrases_eq_nil_iff (hc : (groups.map (·.canonical)).Nodup)
    (ha : ∀ group ∈ groups, group.aliases.Nodup) :
    (ConceptDictionary.mapPhrases path groups).1 = [] ↔ Unambiguous groups := by
  simp only [ConceptDictionary.mapPhrases, append_eq_nil_iff, mapAliases_aliasPairs_eq_nil_iff hc ha]
  exact and_iff_left_of_imp detectCycles_of_unambiguous

theorem lookup_mapPhrases {phrase canonical : Bytes} (hc : (groups.map (·.canonical)).Nodup)
    (ha : ∀ group ∈ groups, group.aliases.Nodup) (hu : Unambiguous groups) :
    (ConceptDictionary.mapPhrases path groups).2.lookup phrase = some canonical ↔
      ∃ group ∈ groups, group.canonical = canonical ∧
        (phrase = canonical ∨ phrase ∈ group.aliases) := by
  have h : (mapAliases path (canonicalPhrases groups) (aliasPairs groups)).1 = [] :=
    (mapAliases_aliasPairs_eq_nil_iff hc ha).mpr hu
  simp only [ConceptDictionary.mapPhrases, lookup_mapAliases h, lookup_canonicalPhrases, mem_aliasPairs]
  grind

section

variable {order : HashOrder Bytes} {path : Bytes} {groups groups' : List SourceGroup}
  {items items' : List (Yaml × Yaml)}

-- The root holds one `concepts` mapping, of scalar names to sequences of scalars.
def Describes (items : List (Yaml × Yaml)) (groups : List SourceGroup) : Prop :=
  items.filter isConceptsKey = [(.scalar <| ascii "concepts", .map <| groups.map toYaml)]

theorem readable_iff : Readable ∅ groups ↔ (∀ group ∈ groups, group.canonical ≠ []) ∧
    (groups.map SourceGroup.canonical).Nodup ∧
    (∀ group ∈ groups, ∀ phrase ∈ group.phrases, phrase ≠ []) ∧
    ∀ group ∈ groups, group.phrases.Nodup where
  mp h  := ⟨h.canonical_ne_nil, h.canonical_nodup, h.alias_ne_nil, h.alias_nodup⟩
  mpr h := ⟨h.left, by simp [Finmap.notMem_empty], h.right.left, h.right.right.left, h.right.right.right⟩

theorem consistent_iff :
    Consistent groups ↔ Readable ∅ groups ∧ Unambiguous (sortGroups <| groups.map parsed) := by
  have hu : Unambiguous (sortGroups <| groups.map parsed) ↔ ∀ group ∈ groups,
      ∀ phrase ∈ group.phrases, phrase ≠ group.canonical → ∀ other ∈ groups,
        other.canonical ≠ group.canonical → phrase ≠ other.canonical ∧ phrase ∉ other.phrases := by
    simp [Unambiguous, mem_sortGroups, parsed]
  rw [readable_iff, hu]
  exact ⟨fun ⟨h₁, h₂, h₃, h₄, h₅⟩ => ⟨⟨h₁, h₂, h₃, h₄⟩, h₅⟩, fun ⟨⟨h₁, h₂, h₃, h₄⟩, h₅⟩ => ⟨h₁, h₂, h₃, h₄, h₅⟩⟩

theorem nodup_canonical_sortGroups (h : Readable ∅ groups) :
    ((sortGroups <| groups.map parsed).map (·.canonical)).Nodup := by
  rw [((perm_sortGroups <| groups.map parsed).map (·.canonical)).nodup_iff, map_map]
  exact h.canonical_nodup

theorem nodup_aliases_sortGroups (h : Readable ∅ groups) :
    ∀ group ∈ sortGroups <| groups.map parsed, group.aliases.Nodup := by
  simpa [mem_sortGroups, parsed] using h.alias_nodup

theorem hasErrors_append {l₁ l₂ : List Diagnostic} :
    hasErrors (l₁ ++ l₂) = (hasErrors l₁ || hasErrors l₂) := by
  simp [hasErrors]

theorem hasErrors_eq_false_iff {diagnostics : List Diagnostic}
    (h : ∀ diagnostic ∈ diagnostics, diagnostic.severity = .error) :
    hasErrors diagnostics = false ↔ diagnostics = [] := by
  cases diagnostics <;> simp_all [hasErrors]

theorem hasErrors_readGroups :
    hasErrors (readGroups path ∅ (groups.map toYaml)).1 = false ↔ Readable ∅ groups := by
  rw [hasErrors_eq_false_iff fun _ => severity_of_mem_readGroups, readGroups_eq_nil_iff]

theorem hasErrors_mapPhrases (h : Readable ∅ groups) :
    hasErrors (ConceptDictionary.mapPhrases path <| sortGroups <| groups.map parsed).1 = false ↔
      Unambiguous (sortGroups <| groups.map parsed) := by
  have hn := nodup_canonical_sortGroups h
  have ha := nodup_aliases_sortGroups h
  constructor
  case mp =>
    intro he
    simp only [ConceptDictionary.mapPhrases, hasErrors_append, Bool.or_eq_false_iff] at he
    have := (hasErrors_eq_false_iff fun _ => severity_of_mem_mapAliases).mp he.left
    exact (mapAliases_aliasPairs_eq_nil_iff hn ha).mp this
  case mpr =>
    intro hu
    rw [(mapPhrases_eq_nil_iff hn ha).mpr hu]
    rfl

variable (order path)

theorem hasErrors_loadGroups :
    hasErrors ([] ++ (readGroups path ∅ (groups.map toYaml)).1 ++
      (ConceptDictionary.mapPhrases path <|
        sortGroups (readGroups path ∅ (groups.map toYaml)).2).1) = false ↔ Consistent groups := by
  rw [hasErrors_append, Bool.or_eq_false_iff, nil_append, hasErrors_readGroups, consistent_iff]
  refine and_congr_right fun hr => ?_
  rw [readGroups_snd hr, hasErrors_mapPhrases hr]

theorem load_eq_loadGroups (h : Describes items groups) (self : ConceptDictionary) :
    ConceptDictionary.load order path (.document <| .node <| .map items) self =
      ConceptDictionary.loadGroups order path [] (groups.map toYaml) := by
  have h : items.filter isConceptsKey = _ := h
  simp [ConceptDictionary.load, ConceptDictionary.loadRoot, h]

theorem loadGroups_of_not_consistent (h : ¬Consistent groups) :
    ∃ diagnostics, ConceptDictionary.loadGroups order path [] (groups.map toYaml) =
      ConceptDictionary.unusable true diagnostics := by
  have he := mt (hasErrors_loadGroups path).mp h
  unfold ConceptDictionary.loadGroups
  exact ⟨_, if_pos <| Bool.not_eq_false _ ▸ he⟩

theorem loadGroups_of_consistent (h : Consistent groups) :
    let dictionary := ConceptDictionary.loadGroups order path [] (groups.map toYaml)
    dictionary.report.usable ∧ dictionary.report.conceptsLoaded = groups.length ∧
    ∀ phrase target, dictionary.phraseToCanonical.lookup phrase = some target ↔
      Maps groups phrase target := by
  have ⟨hr, hu⟩ := consistent_iff.mp h
  have hs : (readGroups path ∅ (groups.map toYaml)).2 = groups.map parsed := readGroups_snd hr
  have he := (hasErrors_loadGroups path).mpr h
  unfold ConceptDictionary.loadGroups
  rw [if_neg (by simpa using he)]
  refine ⟨rfl, ?_, fun phrase target => ?_⟩
  case refine_1 =>
    simp [hs, (perm_sortGroups _).length_eq]
  case refine_2 =>
    simp only [hs]
    rw [lookup_mapPhrases (nodup_canonical_sortGroups hr) (nodup_aliases_sortGroups hr) hu]
    simp [mem_sortGroups, parsed, Maps]

-- Consistency and the described map do not depend on the order of the groups.
theorem SourceGroup.Consistent.perm (hp : groups.Perm groups') (h : Consistent groups) : Consistent groups' where
  canonical_ne_nil group hg := h.canonical_ne_nil group (hp.mem_iff.mpr hg)
  canonical_nodup           := (hp.map _).nodup_iff.mp h.canonical_nodup
  alias_ne_nil group hg     := h.alias_ne_nil group (hp.mem_iff.mpr hg)
  alias_nodup group hg      := h.alias_nodup group (hp.mem_iff.mpr hg)
  alias_foreign group hg phrase hm hn other ho :=
    h.alias_foreign group (hp.mem_iff.mpr hg) phrase hm hn other (hp.mem_iff.mpr ho)

theorem SourceGroup.Maps.perm {phrase target : Bytes} (hp : groups.Perm groups') (h : Maps groups phrase target) :
    Maps groups' phrase target :=
  have ⟨group, hg, hm⟩ := h
  ⟨group, hp.mem_iff.mp hg, hm⟩

-- Two dictionaries that answer every query alike.
structure Agree (left right : ConceptDictionary) : Prop where
  usable            : left.report.usable = right.report.usable
  conceptsLoaded    : left.report.conceptsLoaded = right.report.conceptsLoaded
  phraseToCanonical : left.phraseToCanonical = right.phraseToCanonical
  definitions       : left.definitions = right.definitions

theorem agree_of_phraseToCanonical {left right : ConceptDictionary}
    (hu : left.report.usable = right.report.usable)
    (hc : left.report.conceptsLoaded = right.report.conceptsLoaded)
    (hp : left.phraseToCanonical = right.phraseToCanonical) : Agree left right where
  usable            := hu
  conceptsLoaded    := hc
  phraseToCanonical := hp
  definitions       := by rw [left.definitions_eq .sorted, right.definitions_eq .sorted, hp]

theorem loadGroups_agree (order' : HashOrder Bytes) (path' : Bytes) (hp : groups.Perm groups') :
    Agree (ConceptDictionary.loadGroups order path [] (groups.map toYaml))
      (ConceptDictionary.loadGroups order' path' [] (groups'.map toYaml)) := by
  by_cases h : Consistent groups
  case pos =>
    have ⟨hu, hc, hm⟩ := loadGroups_of_consistent order path h
    have ⟨hu', hc', hm'⟩ := loadGroups_of_consistent order' path' (h.perm hp)
    apply agree_of_phraseToCanonical
    case hu => rw [hu, hu']
    case hc => rw [hc, hc', hp.length_eq]
    case hp =>
      refine Finmap.ext_lookup fun phrase => Option.ext fun target => ?_
      rw [hm, hm']
      exact ⟨.perm hp, .perm hp.symm⟩
  case neg =>
    have ⟨_, he⟩ := loadGroups_of_not_consistent order path h
    have ⟨_, he'⟩ := loadGroups_of_not_consistent order' path'
      fun hc => h (hc.perm hp.symm)
    exact agree_of_phraseToCanonical (by rw [he, he']; rfl) (by rw [he, he']; rfl) (by rw [he, he']; rfl)

-- A concepts file is accepted exactly when it is consistent, whatever its order.
theorem load_usable_iff_consistent (self : ConceptDictionary) (h : Describes items groups) :
    let dictionary := ConceptDictionary.load order path (.document <| .node <| .map items) self
    (dictionary.report.usable ↔ Consistent groups) ∧
    (dictionary.report.usable →
      dictionary.report.conceptsLoaded = groups.length ∧
      ∀ phrase target, dictionary.phraseToCanonical.lookup phrase = some target ↔
        Maps groups phrase target) ∧
    (¬dictionary.report.usable →
      dictionary.report.conceptsLoaded = 0 ∧ dictionary.phraseToCanonical = ∅ ∧
      dictionary.definitions = []) ∧
    ∀ order' path' self' items' groups', Describes items' groups' → groups.Perm groups' →
      Agree dictionary
        (ConceptDictionary.load order' path' (.document <| .node <| .map items') self') := by
  simp only [load_eq_loadGroups order path h]
  have hp : ∀ order' path' self' items' groups', Describes items' groups' → groups.Perm groups' →
      Agree (ConceptDictionary.loadGroups order path [] (groups.map toYaml))
        (ConceptDictionary.load order' path' (.document <| .node <| .map items') self') := by
    intro order' path' self' items' groups' h' hp
    rw [load_eq_loadGroups order' path' h']
    exact loadGroups_agree order path order' path' hp
  by_cases hc : Consistent groups
  case pos =>
    have ⟨hu, hl, hm⟩ := loadGroups_of_consistent order path hc
    exact ⟨iff_of_true hu hc, fun _ => ⟨hl, hm⟩, absurd hu, hp⟩
  case neg =>
    have ⟨_, he⟩ := loadGroups_of_not_consistent order path hc
    rw [he] at hp ⊢
    have hu : ¬(ConceptDictionary.unusable true ‹_›).report.usable := Bool.false_ne_true
    exact ⟨iff_of_false hu hc, fun h => absurd h hu, fun _ => ⟨rfl, rfl, rfl⟩, hp⟩

theorem load_usable_iff_consistent_delete :
    let groups := [⟨ascii "Delete", [ascii "remove", ascii "delete", ascii "get rid of"]⟩,
      ⟨ascii "the folder", [ascii "directory"]⟩].map toYaml
    (ConceptDictionary.load .sorted (ascii "concepts.yaml")
      (.document <| .node <| .map [(.scalar <| ascii "concepts", .map groups)]) default).report.usable :=
  (load_usable_iff_consistent .sorted (ascii "concepts.yaml") default (by rfl)).left.mpr
    (by constructor <;> decide +kernel)

end

end Howlinux
