import Howlinux.Knowledge.Lint
import Howlinux.Search.Theorems.Candidates

open Bytes List

namespace Howlinux

-- A diagnostic that the aliases of one entry, or of two, read alike.
inductive IsAliasDiagnostic (diagnostic : Diagnostic) : Prop
  | duplicate : diagnostic.message = duplicateAliasMessage normalized → IsAliasDiagnostic diagnostic
  | collision : diagnostic.message = aliasCollisionMessage normalized source → IsAliasDiagnostic diagnostic

def AliasClean (diagnostics : List Diagnostic) : Prop :=
  ∀ diagnostic ∈ diagnostics, ¬IsAliasDiagnostic diagnostic

section

variable {entry : KnowledgeEntry} {localAliases : Finset Bytes} {phrase key value : Bytes}
  {seen : Finmap fun _ : Bytes => Bytes} {aliases : List Bytes}

theorem aliasClean_append {l₁ l₂ : List Diagnostic} :
    AliasClean (l₁ ++ l₂) ↔ AliasClean l₁ ∧ AliasClean l₂ := by
  simp only [AliasClean, mem_append, or_imp, forall_and]

theorem eq_id_of_aliasCollision {source : Option Bytes} {normalized : Bytes}
    (h : AliasClean (aliasCollision entry normalized source)) : ∀ id ∈ source, id = entry.id := by
  intro id hs
  cases hs
  by_contra hn
  simp only [aliasCollision, if_neg hn] at h
  exact h _ mem_cons_self (.collision rfl)

-- An alias that was seen before was seen in the same entry.
structure LintedAliases (entry : KnowledgeEntry) (seen after : Finmap fun _ : Bytes => Bytes)
    (phrase : Bytes) : Prop where
  before : ∀ id ∈ seen.lookup (normalizedSearchPhrase phrase), id = entry.id
  after  : after.lookup (normalizedSearchPhrase phrase) = some entry.id

theorem lookup_lintAliases (h : seen.lookup key = some value) :
    (lintAliases entry localAliases seen aliases).aliasesByNormalizedValue.lookup key = some value := by
  fun_induction lintAliases entry localAliases seen aliases
  case case1         => exact h
  case case2 _ hi    => exact hi h
  case case3 _ _ hi  => exact hi h
  case case4 hi      =>
    refine hi ?_
    rw [Finmap.lookup_emplace]
    split
    case isTrue he => rw [← he, h, Option.getD_some]
    case isFalse   => exact h

theorem lintedAliases_of_clean (h : AliasClean (lintAliases entry localAliases seen aliases).diagnostics)
    (hp : phrase ∈ aliases) (hn : normalizedSearchPhrase phrase ≠ []) :
    normalizedSearchPhrase phrase ∉ localAliases ∧ LintedAliases entry seen
      (lintAliases entry localAliases seen aliases).aliasesByNormalizedValue phrase := by
  fun_induction lintAliases entry localAliases seen aliases
  case case1 => simp at hp
  case case2 he hi =>
    obtain ⟨_, h⟩ := aliasClean_append.mp h
    cases mem_cons.mp hp
    case inl hp => subst hp; exact absurd (List.isEmpty_iff.mp he) hn
    case inr hp => exact hi h hp
  case case3 =>
    obtain ⟨h, _⟩ := aliasClean_append.mp h
    exact absurd (.duplicate rfl) (h _ mem_cons_self)
  case case4 seen first rest normalized he hl collision lint hi =>
    obtain ⟨hc, h⟩ := aliasClean_append.mp h
    have hc := eq_id_of_aliasCollision hc
    cases mem_cons.mp hp
    case inl hp =>
      subst hp
      refine ⟨hl, hc, lookup_lintAliases ?_⟩
      rw [Finmap.lookup_emplace, if_pos rfl]
      cases hs : seen.lookup normalized
      case none => rfl
      case some id => rw [Option.getD_some, hc id hs]
    case inr hp =>
      obtain ⟨hm, hb, ha⟩ := hi h hp
      simp only [Finset.mem_insert, not_or] at hm
      refine ⟨hm.right, ?_, ha⟩
      rw [Finmap.lookup_emplace, if_neg hm.left] at hb
      exact hb

variable {targets : LinkTargets} {knowledge : KnowledgeBase} {entries : List KnowledgeEntry}

-- What the clean part of a report says about the entries from some point on.
structure LintedEntries (seen : Finmap fun _ : Bytes => Bytes) (entries : List KnowledgeEntry) : Prop where
  before   : ∀ entry ∈ entries, ∀ phrase ∈ entry.aliases, normalizedSearchPhrase phrase ≠ [] →
    ∀ id ∈ seen.lookup (normalizedSearchPhrase phrase), id = entry.id
  pairwise : entries.Pairwise fun left right => ∀ phrase ∈ left.aliases, ∀ phrase' ∈ right.aliases,
    normalizedSearchPhrase phrase ≠ [] →
    normalizedSearchPhrase phrase = normalizedSearchPhrase phrase' → left.id = right.id

theorem lintedEntries_of_clean (h : AliasClean (lintEntries targets knowledge seen entries)) :
    LintedEntries seen entries := by
  induction entries generalizing seen
  case nil => exact ⟨by simp, .nil⟩
  case cons entry entries hi =>
    simp only [lintEntries, aliasClean_append] at h
    obtain ⟨⟨⟨⟨⟨ha, _⟩, _⟩, _⟩, _⟩, hr⟩ := h
    obtain ⟨hb, hp⟩ := hi hr
    have hl : ∀ phrase ∈ entry.aliases, normalizedSearchPhrase phrase ≠ [] →
        LintedAliases entry seen (lintAliases entry ∅ seen entry.aliases).aliasesByNormalizedValue
          phrase := fun _ hm hn => (lintedAliases_of_clean ha hm hn).right
    constructor
    case before =>
      intro other ho phrase hm hn id hid
      cases mem_cons.mp ho
      case inl he => subst he; exact (hl phrase hm hn).before id hid
      case inr ho => exact hb other ho phrase hm hn id <| lookup_lintAliases hid
    case pairwise =>
      refine pairwise_cons.mpr ⟨fun other ho phrase hm phrase' hm' hn he => ?_, hp⟩
      exact hb other ho phrase' hm' (he ▸ hn) entry.id <| he ▸ (hl phrase hm hn).after

end

section

variable {knowledge : KnowledgeBase} {targets : LinkTargets} {order : HashOrder Bytes}
  {concepts : ConceptDictionary}

-- Aliases of different entries with the same normal form are aliases of one entry after all.
theorem id_eq_of_clean (h : AliasClean (knowledge.lint targets order concepts).diagnostics)
    {i j : ℕ} {entry other : KnowledgeEntry} (hi : knowledge.entries[i]? = some entry)
    (hj : knowledge.entries[j]? = some other) {phrase phrase' : Bytes} (hp : phrase ∈ entry.aliases)
    (hp' : phrase' ∈ other.aliases) (hn : normalizedSearchPhrase phrase ≠ [])
    (he : normalizedSearchPhrase phrase = normalizedSearchPhrase phrase') : entry.id = other.id := by
  have ⟨h, _⟩ := aliasClean_append.mp h
  have hpairs := pairwise_iff_getElem.mp (lintedEntries_of_clean h).pairwise
  have ⟨hli, hentry⟩ := List.getElem?_eq_some_iff.mp hi
  have ⟨hlj, hother⟩ := List.getElem?_eq_some_iff.mp hj
  subst hentry hother
  cases lt_trichotomy i j
  case inl hlt => exact hpairs i j hli hlj hlt phrase hp phrase' hp' hn he
  case inr h =>
    cases h
    case inl heq => subst heq; rfl
    case inr hgt => exact (hpairs j i hlj hli hgt phrase' hp' phrase hp (he ▸ hn) he.symm).symm

theorem KnowledgeBase.index_eq_of_id_eq {i j : ℕ} {entry other : KnowledgeEntry}
    (hi : knowledge.entries[i]? = some entry) (hj : knowledge.entries[j]? = some other)
    (h : entry.id = other.id) : i = j := by
  have hn : (knowledge.entries.map (·.id)).Nodup := pairwise_map.mpr <| knowledge.sorted.imp ne_of_lt
  have hl : i < (knowledge.entries.map (·.id)).length := by
    rw [length_map]
    exact (List.getElem?_eq_some_iff.mp hi).choose
  refine (getElem?_inj hl hn).mp ?_
  rw [getElem?_map, getElem?_map, hi, hj, Option.map_some, Option.map_some, h]

end

namespace SearchEngine

variable {K : Type} [Field K] [LinearOrder K] {engine : SearchEngine K} {query : QueryContext} {i : ℕ}
  {result : SearchResult K}

-- No query has an exact alias in two entries.
def Unambiguous (engine : SearchEngine K) : Prop :=
  ∀ text candidates i j result other,
    engine.score i (engine.queryProcessor.process text) candidates = some result →
    engine.score j (engine.queryProcessor.process text) candidates = some other →
    0 < result.breakdown.exactAlias → 0 < other.breakdown.exactAlias → i = j

theorem exactAlias_pos_iff {candidates : CandidateSet} (hc : 0 < engine.config.exactAliasScore)
    (h : engine.score i query candidates = some result) : 0 < result.breakdown.exactAlias ↔
      query.normalizedQuery ∈ (entryDocument engine.concepts result.entry).aliasesNormalized := by
  rw [(breakdown_of_score h).left, exactAliasComponent]
  split
  case isTrue hm  => exact iff_of_true hc hm
  case isFalse hm => exact iff_of_false (lt_irrefl 0) hm

end SearchEngine

-- Aliases of different entries that agree without their repeated tokens agree with them too.
def KnowledgeBase.NormalFormsAgree (knowledge : KnowledgeBase) : Prop :=
  ∀ entry ∈ knowledge.entries, ∀ other ∈ knowledge.entries, entry ≠ other →
    ∀ phrase ∈ entry.aliases, ∀ phrase' ∈ other.aliases,
      tokenize phrase = tokenize phrase' → tokenize phrase true false = tokenize phrase' true false

section

variable {K : Type} [Field K] [LinearOrder K] [IsStrictOrderedRing K]

open SearchEngine

-- The lint keeps repeated tokens and the index drops them.
theorem unambiguous_iff_of_clean (knowledge : KnowledgeBase) (targets : LinkTargets)
    (order order' : HashOrder Bytes) (concepts concepts' : ConceptDictionary) (numerics : Numerics K)
    (h : AliasClean (knowledge.lint targets order' concepts').diagnostics) :
    ({ knowledge, concepts, numerics, order } : SearchEngine K).Unambiguous ↔
      knowledge.NormalFormsAgree := by
  let engine : SearchEngine K := { knowledge, concepts, numerics, order }
  have hc : 0 < engine.config.exactAliasScore := by simp only [engine]; norm_num
  have hnil (phrase : Bytes) : tokenize phrase = [] ↔ tokenize phrase true false = [] := by
    rw [tokenize_deduplicate, eq_nil_iff_forall_not_mem, eq_nil_iff_forall_not_mem]
    simp only [mem_eraseDups]
  constructor
  case mp =>
    intro hu entry he other ho hne phrase hp phrase' hp' ht
    by_contra hd
    have hn : tokenize phrase ≠ [] := fun h => hd <| by
      rw [(hnil phrase).mp h, (hnil phrase').mp (ht ▸ h)]
    have ⟨i, hi, hei⟩ := mem_iff_getElem.mp he
    have ⟨j, hj, hoj⟩ := mem_iff_getElem.mp ho
    have hq : joinTokens (tokenize phrase) ≠ [] :=
      mt (joinTokens_eq_nil_iff fun _ => isToken_of_mem_tokenize).mp hn
    let query := engine.queryProcessor.process phrase
    have hri := engine.score_eq_some hi query (engine.candidates query)
    have hrj := engine.score_eq_some hj query (engine.candidates query)
    have hpi := (exactAlias_pos_iff hc hri).mpr <|
      mem_aliasesNormalized.mpr ⟨hq, phrase, hei ▸ hp, rfl⟩
    have hpj := (exactAlias_pos_iff hc hrj).mpr <|
      mem_aliasesNormalized.mpr ⟨hq, phrase', hoj ▸ hp', ht ▸ rfl⟩
    have := hu phrase _ i j _ _ hri hrj hpi hpj
    subst this
    exact hne <| hei.symm.trans hoj
  case mpr =>
    intro hr text candidates i j result other hi hj hpi hpj
    have ⟨hq, phrase, hp, he⟩ := mem_aliasesNormalized.mp <| (exactAlias_pos_iff hc hi).mp hpi
    have ⟨_, phrase', hp', he'⟩ := mem_aliasesNormalized.mp <| (exactAlias_pos_iff hc hj).mp hpj
    have ht := joinTokens_injective (fun _ => isToken_of_mem_tokenize)
      (fun _ => isToken_of_mem_tokenize) (he.trans he'.symm)
    have hn : tokenize phrase true false ≠ [] := fun h => hq <| by
      rw [← he, (hnil phrase).mpr h]
      rfl
    by_contra hij
    have hei := entry_of_score hi
    have hej := entry_of_score hj
    have hne : result.entry ≠ other.entry := fun h =>
      hij <| KnowledgeBase.index_eq_of_id_eq hei hej (h ▸ rfl)
    have hd := hr _ (mem_of_getElem? hei) _ (mem_of_getElem? hej) hne phrase hp phrase' hp' ht
    have hs : normalizedSearchPhrase phrase ≠ [] :=
      mt (joinTokens_eq_nil_iff fun _ => isToken_of_mem_tokenize).mp hn
    exact hij <| KnowledgeBase.index_eq_of_id_eq hei hej <|
      id_eq_of_clean h hei hej hp hp' hs (congrArg joinTokens hd)

end

-- Two entries below the category `files`, with one alias each.
namespace Copies

def metadataText (id phrase : Bytes) : Bytes :=
  ascii "id: " ++ id ++ ascii "\ntitle: Copying\ntype: howto\naliases:\n  - " ++ phrase ++ ascii "\n"

def metadataNode (id phrase : Bytes) : Yaml :=
  .map [
    (.scalar <| ascii "id",      .scalar id),
    (.scalar <| ascii "title",   .scalar <| ascii "Copying"),
    (.scalar <| ascii "type",    .scalar <| ascii "howto"),
    (.scalar <| ascii "aliases", .sequence [.scalar phrase])]

def aliases : List (Bytes × Bytes) := [
  (ascii "copy-file",  ascii "copy file"),
  (ascii "copy-twice", ascii "copy copy file")]

def parse (text : Bytes) : YamlOutcome :=
  match aliases.find? fun (id, phrase) => metadataText id phrase = text with
  | some (id, phrase) => .node <| metadataNode id phrase
  | none              => .yamlException (ascii "unknown document")

def entryDirectory (id phrase : Bytes) : Bytes × Child Directory :=
  (id, .directory <| .mk (.text <| metadataText id phrase) (.text <| ascii "# Copying\n") none [] none)

def category : Directory :=
  .mk .missing .missing none (aliases.map fun (id, phrase) => entryDirectory id phrase) none

def tree : Directory :=
  .mk .missing .missing none [(ascii "files", .directory category)] none

theorem wellFormed_leaf {metadata content : FileOutcome} :
    (Directory.mk metadata content none [] none).WellFormed :=
  .intro (by simp [Directory.children]) (by simp [Directory.children])
    (by simp [Directory.subdirectories, Directory.openError, Directory.children])

theorem wellFormed_category : category.WellFormed := by
  refine .intro (by decide) (by decide) ?_
  simp [category, aliases, entryDirectory, Directory.subdirectories, Directory.openError,
    Directory.children, Directory.subdirectory, wellFormed_leaf]

theorem wellFormed_tree : tree.WellFormed := by
  refine .intro (by decide) (by decide) ?_
  simp [tree, Directory.subdirectories, Directory.openError, Directory.children,
    Directory.subdirectory, wellFormed_category]

def base : KnowledgeBase :=
  .load parse (ascii "knowledge") (.tree ⟨tree, wellFormed_tree⟩) default

def targets : LinkTargets where
  isPresent _     := false
  weaklyCanonical := some

def engine : SearchEngine ℚ where
  knowledge := base
  concepts  := default
  numerics  := .rational
  order     := .sorted

theorem aliasClean : AliasClean (base.lint targets .sorted default).diagnostics := by
  have : (base.lint targets .sorted default).diagnostics = [] := by decide +kernel
  simp [AliasClean, this]

theorem score_pos {i : ℕ} {candidates : CandidateSet} {result : SearchResult ℚ}
    (h : engine.score i (engine.queryProcessor.process <| ascii "copy file") candidates = some result)
    (hm : (base.entries[i]?.map (entryDocument default)).any
      (joinTokens (tokenize <| ascii "copy file") ∈ ·.aliasesNormalized)) :
    0 < result.breakdown.exactAlias := by
  have he : base.entries[i]? = some result.entry := SearchEngine.entry_of_score h
  rw [he] at hm
  exact (SearchEngine.exactAlias_pos_iff (by norm_num [engine]) h).mpr (of_decide_eq_true hm)

-- The lint finds nothing and the query "copy file" is an alias of both entries.
theorem ambiguous :
    AliasClean (base.lint targets .sorted default).diagnostics ∧ ¬engine.Unambiguous := by
  refine ⟨aliasClean, fun h => ?_⟩
  let query := engine.queryProcessor.process <| ascii "copy file"
  have hl : engine.knowledge.entries.length = 2 := by decide +kernel
  have h₀ := engine.score_eq_some (hl ▸ Nat.zero_lt_two) query (engine.candidates query)
  have h₁ := engine.score_eq_some (hl ▸ Nat.one_lt_two) query (engine.candidates query)
  have := h _ _ 0 1 _ _ h₀ h₁ (score_pos h₀ <| by decide +kernel) (score_pos h₁ <| by decide +kernel)
  contradiction

theorem unambiguous_iff : engine.Unambiguous ↔ base.NormalFormsAgree :=
  unambiguous_iff_of_clean base targets .sorted .sorted default default .rational aliasClean

end Copies

end Howlinux
