import Howlinux.Search.Theorems.Points

open Bytes List

namespace Howlinux

-- The words that open a question, and with it settle the type of the query.
def openers : List (List Bytes) := [
  ["why"],     ["what"],     ["explain"],       ["define"], ["describe"],
  ["how"],     ["show", "me"], ["help", "me"], ["meaning", "of"]].map (·.map ascii)

def HasOpener (tokens : List Bytes) : Prop :=
  ∃ opener ∈ openers, opener <+: tokens

instance (tokens : List Bytes) : Decidable (HasOpener tokens) :=
  inferInstanceAs <| Decidable (∃ opener ∈ openers, opener <+: tokens)

-- The tokens begin with all tokens of a command.
def KnowledgeBase.HasCommand (knowledge : KnowledgeBase) (tokens : List Bytes) : Prop :=
  ∃ entry ∈ knowledge.entries,
    tokenize entry.command false false ≠ [] ∧ tokenize entry.command false false <+: tokens

-- The tokens begin with some token of a command, which need not be the first or the only one of it.
def KnowledgeBase.HasCommandToken (knowledge : KnowledgeBase) (tokens : List Bytes) : Prop :=
  ∃ entry ∈ knowledge.entries, ∃ token ∈ tokenize entry.command false false, [token] <+: tokens

instance (knowledge : KnowledgeBase) (tokens : List Bytes) : Decidable (knowledge.HasCommand tokens) :=
  inferInstanceAs <| Decidable (∃ _ ∈ _, _ ∧ _)

section

variable {command tokens : List Bytes} {normalized : Bytes}

theorem separated_blankSeparated : Separated (blankSeparated tokens) := by
  cases tokens <;> simp [blankSeparated, Separated]

theorem joinTokens_append (hc : ∀ t ∈ command, IsToken t) (hn : command ≠ []) :
    joinTokens (command ++ tokens) = joinTokens command ++ blankSeparated tokens := by
  cases command
  case nil => contradiction
  case cons token command =>
    have ht := (hc token mem_cons_self).ne_nil
    rw [cons_append, joinTokens_cons ht, joinTokens_cons ht]
    simp [blankSeparated]

namespace QueryProcessor

theorem matchesCommand_iff {command : Bytes} :
    matchesCommand normalized command ↔ ∃ rest, Separated rest ∧ command ++ rest = normalized := by
  simp only [matchesCommand, Bool.or_eq_true, beq_iff_eq, isPrefixOf_iff_prefix]
  constructor
  case mp =>
    rintro (rfl | ⟨rest, rfl⟩)
    · exact ⟨[], by simp [Separated], append_nil _⟩
    · exact ⟨byte ' ' :: rest, by simp [Separated], by simp⟩
  case mpr =>
    rintro ⟨rest, hs, rfl⟩
    cases rest
    case nil => simp
    case cons value rest =>
      obtain rfl := hs value rfl
      exact .inr ⟨rest, by simp⟩

-- Joined phrases are compared as the lists of their tokens.
theorem matchesCommand_joinTokens_iff (hc : ∀ t ∈ command, IsToken t) (ht : ∀ t ∈ tokens, IsToken t)
    (hn : command ≠ []) : matchesCommand (joinTokens tokens) (joinTokens command) ↔ command <+: tokens := by
  rw [matchesCommand_iff]
  constructor
  case mp =>
    intro ⟨rest, hs, hj⟩
    refine ⟨lexicalTokens rest, ?_⟩
    rw [← lexicalTokens_joinTokens_append hc hn hs, hj, lexicalTokens_joinTokens ht]
  case mpr =>
    rintro ⟨rest, rfl⟩
    exact ⟨blankSeparated rest, separated_blankSeparated, (joinTokens_append hc hn).symm⟩

-- Past the openers and the shell syntax, a query is about a command if it begins with one.
theorem detectType_eq_command_iff {processor : QueryProcessor} (hn : tokens ≠ []) (ho : ¬HasOpener tokens)
    (hs : ∀ token ∈ tokens, looksLikeShellSyntax token = false) :
    processor.detectType tokens = .command ↔ ∃ command ∈ processor.knownCommands,
      matchesCommand (joinTokens <| tokens.filter (!isStopword ·)) command := by
  cases tokens
  case nil => contradiction
  case cons front tokens =>
    have hs' : ((front :: tokens).filter (!isStopword ·)).any looksLikeShellSyntax = false :=
      any_eq_false.mpr fun token ht => by simp [hs token (mem_of_mem_filter ht)]
    have hb : ∀ opener ∈ openers, opener.isPrefixOf (front :: tokens) = false :=
      fun opener h => Bool.eq_false_iff.mpr fun hp => ho ⟨_, h, isPrefixOf_iff_prefix.mp hp⟩
    simp only [openers, map_cons, map_nil, forall_mem_cons, not_mem_nil, false_implies, implies_true, and_true,
      isPrefixOf_cons_cons, isPrefixOf_nil_left, Bool.and_true, beq_eq_false_iff_ne] at hb
    simp only [detectType, beginsWith, isPrefixOf_cons_cons, beq_iff_eq, Bool.or_eq_true, eq_comm (a := front),
      hb, hs', or_self, if_false, Bool.false_eq_true]
    split
    case isTrue hk  => exact iff_of_true rfl hk
    case isFalse hk => exact iff_of_false (by split <;> simp) hk

theorem type_create_eq_command_iff {concepts : Option ConceptDictionary} {known : Finset Bytes} {text : Bytes}
    (ho : ¬HasOpener (tokenize text false false))
    (hs : ∀ token ∈ tokenize text false false, looksLikeShellSyntax token = false) :
    ((create concepts known).process text).type = .command ↔ ∃ command ∈ known,
      tokenize command false false ≠ [] ∧ tokenize command false false <+: tokenize text true false := by
  have hm {command : Bytes} (hc : tokenize command false false ≠ []) :
      matchesCommand (joinTokens <| tokenize text true false) (joinTokens <| tokenize command false false) ↔
        tokenize command false false <+: tokenize text true false :=
    matchesCommand_joinTokens_iff (fun _ => isToken_of_mem_tokenize) (fun _ => isToken_of_mem_tokenize) hc
  by_cases hn : tokenize text false false = []
  case pos =>
    refine iff_of_false (by simp [process, hn, detectType]) fun ⟨command, _, hc, hp⟩ => hc ?_
    rwa [tokenize_stopwords, hn, filter_nil, prefix_nil] at hp
  case neg =>
    rw [process, detectType_eq_command_iff hn ho hs, ← tokenize_stopwords]
    simp only [create, Finset.mem_image, Finset.mem_filter]
    constructor
    case mp =>
      rintro ⟨_, ⟨command, ⟨hk, hc⟩, rfl⟩, h⟩
      exact ⟨command, hk, hc, (hm hc).mp h⟩
    case mpr =>
      intro ⟨command, hk, hc, h⟩
      exact ⟨_, ⟨command, ⟨hk, hc⟩, rfl⟩, (hm hc).mpr h⟩

end QueryProcessor

theorem tokenize_of_isToken {token : Bytes} (h : IsToken token) : tokenize token false false = [token] := by
  have hs : Separated [] := by simp [Separated]
  have hl : lexicalTokens token = [token] := by simpa [lexicalTokens] using h.rescan hs
  rw [tokenize, hl, tokenizeLoop_keep]
  rfl

end

variable {K : Type} [Field K]

theorem SearchEngine.type_eq_command_iff {engine : SearchEngine K} {text : Bytes}
    (ho : ¬HasOpener (tokenize text false false))
    (hs : ∀ token ∈ tokenize text false false, looksLikeShellSyntax token = false) :
    (engine.queryProcessor.process text).type = .command ↔
      engine.knowledge.HasCommandToken (tokenize text true false) := by
  rw [queryProcessor, QueryProcessor.type_create_eq_command_iff ho hs, KnowledgeBase.HasCommandToken]
  simp only [index, InvertedIndex.mem_knownCommands, tokenize_deduplicate, mem_eraseDups]
  constructor
  case mp =>
    rintro ⟨token, ⟨entry, he, ht⟩, _, hp⟩
    rw [tokenize_of_isToken <| isToken_of_mem_tokenize ht] at hp
    exact ⟨entry, he, token, ht, hp⟩
  case mpr =>
    rintro ⟨entry, he, token, ht, hp⟩
    have hk := tokenize_of_isToken <| isToken_of_mem_tokenize ht
    exact ⟨token, ⟨entry, he, ht⟩, by simp [hk], by rwa [hk]⟩

theorem KnowledgeBase.HasCommand.hasCommandToken {knowledge : KnowledgeBase} {tokens : List Bytes} :
    knowledge.HasCommand tokens → knowledge.HasCommandToken tokens := by
  intro ⟨entry, he, hn, hp⟩
  have ⟨token, rest, ht⟩ := exists_cons_of_ne_nil hn
  rw [ht] at hp
  exact ⟨entry, he, token, by simp [ht], (prefix_append [token] rest).trans hp⟩

-- A query is about a command if its first token is one of a command. This is what it should be about
-- only as long as the query goes on with the other tokens of some command.
theorem command_type_iff (knowledge : KnowledgeBase) (concepts : ConceptDictionary) (numerics : Numerics K)
    (order : HashOrder Bytes) (text : Bytes) :
    let engine : SearchEngine K := { knowledge, concepts, numerics, order }
    let query  := engine.queryProcessor.process text
    ¬HasOpener (tokenize text false false) →
    (∀ token ∈ tokenize text false false, looksLikeShellSyntax token = false) →
    ((query.type = .command ↔ knowledge.HasCommand query.sequenceTokens) ↔
      (knowledge.HasCommandToken query.sequenceTokens → knowledge.HasCommand query.sequenceTokens)) ∧
    ((∀ entry ∈ knowledge.entries, (tokenize entry.command false false).length ≤ 1) →
      (query.type = .command ↔ knowledge.HasCommand query.sequenceTokens)) := by
  intro engine query ho hs
  have ht : query.type = .command ↔ knowledge.HasCommandToken query.sequenceTokens :=
    SearchEngine.type_eq_command_iff ho hs
  have hc : knowledge.HasCommand query.sequenceTokens → knowledge.HasCommandToken query.sequenceTokens :=
    (·.hasCommandToken)
  have hi : (query.type = .command ↔ knowledge.HasCommand query.sequenceTokens) ↔
      (knowledge.HasCommandToken query.sequenceTokens → knowledge.HasCommand query.sequenceTokens) := by
    rw [ht]
    exact ⟨Iff.mp, (⟨·, hc⟩)⟩
  refine ⟨hi, fun hl => hi.mpr fun ⟨entry, he, token, hm, hp⟩ => ?_⟩
  have hk : tokenize entry.command false false = [token] := by
    have ⟨_, hk⟩ := length_eq_one_iff.mp <| (hl entry he).antisymm <| length_pos_of_mem hm
    rw [hk, mem_singleton] at hm
    rw [hk, hm]
  exact ⟨entry, he, by simp [hk], hk ▸ hp⟩

-- A command of two tokens.
def keygen : KnowledgeEntry :=
  { howto (ascii "make-key") (ascii "Make a key") [] [] with command := ascii "ssh-keygen" }

theorem command_type_iff_keygen :
    let knowledge : KnowledgeBase := .ofEntries [keygen] (by simp)
    let engine : SearchEngine ℚ := { knowledge, concepts := default, numerics := .rational, order := .sorted }
    let query := engine.queryProcessor.process <| ascii "ssh keygen key"
    (query.type = .command ↔ knowledge.HasCommand query.sequenceTokens) ↔
      (knowledge.HasCommandToken query.sequenceTokens → knowledge.HasCommand query.sequenceTokens) :=
  (command_type_iff _ default .rational .sorted _ (by decide +kernel) (by decide +kernel)).left

-- The second half of a command is taken for a command.
theorem keygen_is_no_command :
    let knowledge : KnowledgeBase := .ofEntries [keygen] (by simp)
    let engine : SearchEngine ℚ := { knowledge, concepts := default, numerics := .rational, order := .sorted }
    let text  := ascii "keygen file"
    let query := engine.queryProcessor.process text
    (∀ entry ∈ knowledge.entries, ∀ token ∈ tokenize entry.command false false, isStopword token = false) ∧
    ¬HasOpener (tokenize text false false) ∧
    (∀ token ∈ tokenize text false false, looksLikeShellSyntax token = false) ∧
    query.type = .command ∧ ¬knowledge.HasCommand query.sequenceTokens := by
  decide +kernel

end Howlinux
