import Howlinux.Knowledge.Lint
import Howlinux.Search.Theorems.Candidates

open Bytes List

namespace Howlinux

section

variable (input input' : Bytes) (removeStopwords deduplicate : Bool)

theorem tokenize_joinTokens_self :
    tokenize (joinTokens (tokenize input removeStopwords deduplicate)) removeStopwords deduplicate =
      tokenize input removeStopwords deduplicate :=
  tokenize_joinTokens input le_rfl le_rfl

theorem joinTokens_tokenize_eq_iff :
    joinTokens (tokenize input removeStopwords deduplicate) =
      joinTokens (tokenize input' removeStopwords deduplicate) ↔
    tokenize input removeStopwords deduplicate = tokenize input' removeStopwords deduplicate where
  mp  := joinTokens_injective (fun _ => isToken_of_mem_tokenize) fun _ => isToken_of_mem_tokenize
  mpr := congrArg joinTokens

end

theorem tokenize_normalizePhrase (source : Bytes) :
    tokenize (normalizePhrase source) true false = tokenize source true false :=
  tokenize_joinTokens_self source true false

theorem tokenize_normalizedSearchPhrase (keyword : Bytes) :
    tokenize (normalizedSearchPhrase keyword) false false = tokenize keyword true false :=
  tokenize_joinTokens keyword (Bool.false_le _) le_rfl

-- The tokens of a definition are those of every source that its phrase can come from.
theorem ConceptDictionary.tokens_of_source {dictionary : ConceptDictionary} {definition : PhraseDefinition}
    (h : definition ∈ dictionary.definitions) {source : Bytes}
    (hs : normalizePhrase source = definition.phrase) : definition.tokens = tokenize source true false := by
  have ⟨_, ht⟩ := dictionary.mem_definitions.mp h
  rw [ht, ← hs]
  exact tokenize_normalizePhrase source

theorem tokenize_of_mem_aliasesNormalized {concepts : ConceptDictionary} {entry : KnowledgeEntry}
    {phrase : Bytes} (h : phrase ∈ (entryDocument concepts entry).aliasesNormalized) :
    ∃ source ∈ entry.aliases, phrase = joinTokens (tokenize source) ∧ tokenize phrase = tokenize source := by
  have ⟨_, source, hs, he⟩ := mem_aliasesNormalized.mp h
  exact ⟨source, hs, he.symm, he ▸ tokenize_joinTokens_self source true true⟩

-- Joined tokens are a normal form, and whatever is stored in it gives its tokens back.
theorem tokenize_normal_form :
    (∀ input removeStopwords deduplicate,
      let tokens := tokenize input removeStopwords deduplicate
      tokenize (joinTokens tokens) removeStopwords deduplicate = tokens ∧
      ∀ input', joinTokens tokens = joinTokens (tokenize input' removeStopwords deduplicate) ↔
        tokens = tokenize input' removeStopwords deduplicate) ∧
    (∀ dictionary : ConceptDictionary, ∀ definition ∈ dictionary.definitions,
      joinTokens definition.tokens = definition.phrase ∧
      tokenize definition.phrase true false = definition.tokens ∧
      ∀ source, normalizePhrase source = definition.phrase →
        definition.tokens = tokenize source true false) ∧
    (∀ concepts entry, ∀ phrase ∈ (entryDocument concepts entry).aliasesNormalized,
      ∃ source ∈ entry.aliases, phrase = joinTokens (tokenize source) ∧ tokenize phrase = tokenize source) ∧
    ∀ keyword, tokenize (normalizedSearchPhrase keyword) false false = tokenize keyword true false := by
  refine ⟨?_, ?_, fun _ _ _ => tokenize_of_mem_aliasesNormalized, tokenize_normalizedSearchPhrase⟩
  case refine_1 =>
    intro input removeStopwords deduplicate
    exact ⟨tokenize_joinTokens_self input removeStopwords deduplicate,
      fun input' => joinTokens_tokenize_eq_iff input input' removeStopwords deduplicate⟩
  case refine_2 =>
    intro dictionary definition h
    have ⟨_, ht⟩ := dictionary.mem_definitions.mp h
    exact ⟨ConceptDictionary.joinTokens_tokens h, ht.symm, fun _ => ConceptDictionary.tokens_of_source h⟩

end Howlinux
