import Howlinux.Knowledge.Lint
import Howlinux.Knowledge.Theorems.Store

open Bytes List

namespace Howlinux

-- A message is recognised by the text that it starts with.
def Begins (openings : List String) (message : Bytes) : Prop :=
  ∃ opening ∈ openings, ascii opening <+: message

namespace Begins

variable {openings others : List String} {message rest : Bytes}

theorem append (h : Begins openings message) : Begins openings (message ++ rest) :=
  have ⟨opening, ho, hp⟩ := h
  ⟨opening, ho, hp.trans <| prefix_append ..⟩

theorem not_begins (h : Begins openings message) (hn : ∀ opening ∈ openings, ∀ other ∈ others,
    ¬(ascii opening <+: ascii other ∨ ascii other <+: ascii opening)) : ¬Begins others message :=
  fun ⟨other, ho', hp'⟩ =>
    have ⟨opening, ho, hp⟩ := h
    hn opening ho other ho' <| prefix_or_prefix_of_prefix hp hp'

theorem literal {text : String} (h : text ∈ openings) : Begins openings (ascii text) :=
  ⟨text, h, prefix_rfl⟩

end Begins

-- How the messages of a load start, up to the check of the related ids.
def loadMessages : List String := [
  "knowledge root does not exist",
  "cannot inspect knowledge root: ",
  "knowledge root is not a directory",
  "cannot read directory: ",
  "failed while reading directory: ",
  "cannot inspect path while scanning knowledge root: ",
  "symbolic-link directory was not traversed",
  "entry must be stored below a category directory",
  "duplicate id; the entry at '",
  "missing required ",
  "cannot inspect required ",
  "metadata file 'meta.yaml'",
  "content file 'content.md'",
  "failed while reading ",
  "cannot open ",
  "invalid YAML: ",
  "cannot parse metadata: ",
  "metadata root must be a mapping",
  "metadata field names must be strings",
  "duplicate metadata field '",
  "missing required metadata field '",
  "required metadata field '",
  "metadata field '",
  "unknown metadata field '",
  "id should use lowercase ASCII letters, digits and hyphens only",
  "id does not match the entry directory name '",
  "content file must not be empty"]

section

variable {metadata : List (Yaml × Yaml)} {name path entryId : Bytes} {diagnostic : Diagnostic}

theorem begins_readRequiredString (h : diagnostic ∈ (readRequiredString metadata name path entryId).diagnostics) :
    Begins loadMessages diagnostic.message := by
  unfold readRequiredString at h
  repeat' split at h
  all_goals first
    | contradiction
    | rw [mem_singleton.mp h]; exact (Begins.literal (by simp [loadMessages])).append.append

theorem begins_readOptionalString (h : diagnostic ∈ (readOptionalString metadata name path entryId).diagnostics) :
    Begins loadMessages diagnostic.message := by
  unfold readOptionalString at h
  split at h
  case h_1 | h_2 => contradiction
  case h_3 =>
    rw [mem_singleton.mp h]
    exact (Begins.literal (by simp [loadMessages])).append.append

theorem begins_readItems {index : ℕ} {items : List Yaml}
    (h : diagnostic ∈ (readItems name path entryId index items).diagnostics) :
    Begins loadMessages diagnostic.message := by
  fun_induction readItems name path entryId index items
  case case1 => contradiction
  case case2 hi => exact hi h
  case case3 hi =>
    cases mem_cons.mp h
    case inl h => exact h ▸ (Begins.literal (by simp [loadMessages])).append.append.append.append
    case inr h => exact hi h

theorem begins_readOptionalStringList
    (h : diagnostic ∈ (readOptionalStringList metadata name path entryId).diagnostics) :
    Begins loadMessages diagnostic.message := by
  unfold readOptionalStringList at h
  split at h
  case h_1 => contradiction
  case h_2 => exact begins_readItems h
  case h_3 =>
    rw [mem_singleton.mp h]
    exact (Begins.literal (by simp [loadMessages])).append.append

theorem begins_readKeys {seenFields : Finset Bytes}
    (h : diagnostic ∈ (readKeys path entryId seenFields metadata).diagnostics) :
    Begins loadMessages diagnostic.message := by
  fun_induction readKeys path entryId seenFields metadata
  case case1 => contradiction
  case case2 hi =>
    cases mem_cons.mp h
    case inl h => exact h ▸ (Begins.literal (by simp [loadMessages])).append.append
    case inr h => exact hi h
  case case3 hi => exact hi h
  case case4 hi => exact hi h
  case case5 hi =>
    cases mem_cons.mp h
    case inl h => exact h ▸ .literal (by simp [loadMessages])
    case inr h => exact hi h

theorem begins_readMetadata {unknownFields : List Bytes} {entryDirectory category : Bytes}
    {diagnostics : List Diagnostic} {entry : Option KnowledgeEntry}
    (hr : readMetadata metadata unknownFields entryDirectory category path entryId = (diagnostics, entry))
    (h : diagnostic ∈ diagnostics) : Begins loadMessages diagnostic.message := by
  have hunknown (fields : List Bytes) (entryId : Bytes) : ∀ diagnostic ∈ fields.map fun field =>
      addDiagnostic path entryId <| ascii "unknown metadata field '" ++ field ++ ascii "' was ignored",
      Begins loadMessages diagnostic.message := by
    intro diagnostic h
    have ⟨_, _, he⟩ := mem_map.mp h
    exact he ▸ (Begins.literal (by simp [loadMessages])).append.append
  have hd := congrArg Prod.fst hr
  simp only [readMetadata, apply_ite Prod.fst, ite_self] at hd
  simp only [← hd, mem_append, or_assoc] at h
  rcases h with h | h | h | h | h | h | h | h | h | h | h | h | h
  any_goals exact begins_readRequiredString h
  any_goals exact begins_readOptionalString h
  any_goals exact begins_readOptionalStringList h
  exact hunknown _ _ _ h

theorem begins_idDiagnostics {id : Bytes} (h : diagnostic ∈ idDiagnostics id path entryId) :
    Begins loadMessages diagnostic.message := by
  unfold idDiagnostics at h
  cases mem_append.mp h
  case inl h =>
    split at h
    case isTrue  => contradiction
    case isFalse => exact mem_singleton.mp h ▸ .literal (by simp [loadMessages])
  case inr h =>
    split at h
    case isTrue  => contradiction
    case isFalse => exact mem_singleton.mp h ▸ (Begins.literal (by simp [loadMessages])).append.append

variable {outcome : FileOutcome} {description : Bytes}

theorem begins_validateRegularFile (hd : Begins loadMessages description)
    (h : diagnostic ∈ (validateRegularFile outcome path entryId description).1) :
    Begins loadMessages diagnostic.message := by
  unfold validateRegularFile at h
  split at h
  case h_1 => exact mem_singleton.mp h ▸ (Begins.literal (by simp [loadMessages])).append
  case h_2 => exact mem_singleton.mp h ▸ (Begins.literal (by simp [loadMessages])).append.append.append
  case h_3 => exact mem_singleton.mp h ▸ hd.append
  case h_4 => contradiction

variable {diagnostics : List Diagnostic} {read : Option Bytes} {entry : Option KnowledgeEntry}

theorem begins_readFileByteExact (hr : readFileByteExact outcome path entryId description = (diagnostics, read))
    (h : diagnostic ∈ diagnostics) : Begins loadMessages diagnostic.message := by
  unfold readFileByteExact at hr
  split at hr <;> cases hr
  case h_1 => contradiction
  case h_2 => exact mem_singleton.mp h ▸ (Begins.literal (by simp [loadMessages])).append
  case h_3 => exact mem_singleton.mp h ▸ (Begins.literal (by simp [loadMessages])).append.append

theorem begins_readContent {entry : KnowledgeEntry} (h : diagnostic ∈ (readContent outcome path entry).1) :
    Begins loadMessages diagnostic.message := by
  unfold readContent at h
  split at h
  case h_1 he => exact begins_readFileByteExact he h
  case h_2 he =>
    split at h
    case isTrue => exact begins_readFileByteExact he h
    case isFalse =>
      cases mem_append.mp h
      case inl h => exact begins_readFileByteExact he h
      case inr h => exact mem_singleton.mp h ▸ .literal (by simp [loadMessages])

variable {parse : Bytes → YamlOutcome} {content : FileOutcome} {entryDirectory category : Bytes}

theorem begins_loadMetadata (hl : loadMetadata parse outcome entryDirectory category = (diagnostics, entry))
    (h : diagnostic ∈ diagnostics) : Begins loadMessages diagnostic.message := by
  unfold loadMetadata at hl
  dsimp only at hl
  split at hl
  case h_1 he =>
    cases hl
    exact begins_readFileByteExact he h
  case h_2 =>
    split at hl
    case h_1 | h_2 =>
      cases hl
      exact mem_singleton.mp h ▸ (Begins.literal (by simp [loadMessages])).append
    case h_3 =>
      split at hl
      case isTrue  => exact begins_readMetadata hl h
      case isFalse => cases hl; exact begins_readKeys h
    case h_4 =>
      cases hl
      exact mem_singleton.mp h ▸ .literal (by simp [loadMessages])

theorem begins_loadEntry (hl : loadEntry parse outcome content entryDirectory category = (diagnostics, entry))
    (h : diagnostic ∈ diagnostics) : Begins loadMessages diagnostic.message := by
  unfold loadEntry at hl
  dsimp only at hl
  split at hl
  case isTrue =>
    cases hl
    cases mem_append.mp h
    case inl h => exact begins_validateRegularFile (.literal (by simp [loadMessages])) h
    case inr h => exact begins_validateRegularFile (.literal (by simp [loadMessages])) h
  case isFalse =>
    split at hl <;> cases hl
    case h_1 he => exact begins_loadMetadata he h
    case h_2 he =>
      simp only [mem_append] at h
      rcases h with (h | h) | h
      · exact begins_loadMetadata he h
      · exact begins_idDiagnostics h
      · exact begins_readContent h

variable {root : Bytes}

theorem begins_selectEntries {firstSourceById : Finmap fun _ : Bytes => Bytes} {located : List Located}
    (h : diagnostic ∈ (selectEntries parse root firstSourceById located).diagnostics) :
    Begins loadMessages diagnostic.message := by
  fun_induction selectEntries parse root firstSourceById located
  case case1 => contradiction
  case case2 he hi =>
    cases mem_append.mp h
    case inl h => exact begins_loadEntry he h
    case inr h => exact hi h
  case case3 he _ _ hi =>
    simp only [Selection.skip, mem_append, mem_singleton] at h
    rcases h with (h | h) | h
    · exact begins_loadEntry he h
    · exact h ▸ (Begins.literal (by simp [loadMessages])).append.append
    · exact hi h
  case case4 he _ hi =>
    cases mem_append.mp h
    case inl h => exact begins_loadEntry he h
    case inr h => exact hi h
  case case5 hi =>
    cases mem_append.mp h
    case inl h => exact mem_singleton.mp h ▸ .literal (by simp [loadMessages])
    case inr h => exact hi h

theorem begins_listDirectory {isRoot : Bool} {directory : Directory} {found : Option (List (Bytes × Child Directory))}
    (hl : listDirectory isRoot path directory = (diagnostics, found)) (h : diagnostic ∈ diagnostics) :
    Begins loadMessages diagnostic.message := by
  unfold listDirectory at hl
  split at hl
  case h_1 =>
    cases hl
    exact mem_singleton.mp h ▸ (Begins.literal (by simp [loadMessages])).append
  case h_2 =>
    split at hl <;> cases hl
    case h_1 => exact mem_singleton.mp h ▸ (Begins.literal (by simp [loadMessages])).append
    case h_2 => contradiction

theorem begins_inspectChild {child : Bytes × Child Directory} (h : diagnostic ∈ inspectChild path child) :
    Begins loadMessages diagnostic.message := by
  unfold inspectChild at h
  split at h
  case h_1 => exact mem_singleton.mp h ▸ (Begins.literal (by simp [loadMessages])).append
  case h_2 => exact mem_singleton.mp h ▸ .literal (by simp [loadMessages])
  case h_3 => contradiction

theorem begins_scanDirectory {isRoot : Bool} {current : Located} {found : Option (List Located)}
    (hs : scanDirectory isRoot root current = (diagnostics, found)) (h : diagnostic ∈ diagnostics) :
    Begins loadMessages diagnostic.message := by
  unfold scanDirectory at hs
  dsimp only at hs
  split at hs <;> cases hs
  case h_1 he => exact begins_listDirectory he h
  case h_2 he =>
    cases mem_append.mp h
    case inl h => exact begins_listDirectory he h
    case inr h =>
      have ⟨_, _, h⟩ := mem_flatMap.mp h
      exact begins_inspectChild h

theorem begins_scan {queue : List Located} (h : diagnostic ∈ (scan root queue).1) :
    Begins loadMessages diagnostic.message := by
  fun_induction scan root queue
  case case1 => contradiction
  case case2 he hi =>
    cases mem_append.mp h
    case inl h => exact begins_scanDirectory rfl h
    case inr h => exact hi (congrArg Prod.fst he ▸ h)

variable {directory : Bytes} {outcome : KnowledgeRoot} {self : KnowledgeBase}

-- A load adds nothing but the related ids to the messages of its own.
theorem mem_diagnostics_load (h : diagnostic ∈ (self.load parse directory outcome).report.diagnostics) :
    Begins loadMessages diagnostic.message ∨ diagnostic ∈ (self.load parse directory outcome).entries.flatMap
      (relatedDiagnostics (self.load parse directory outcome).idLookup) := by
  cases outcome
  case missing | notDirectory => exact .inl <| mem_singleton.mp h ▸ .literal (by simp [loadMessages])
  case inspectError => exact .inl <| mem_singleton.mp h ▸ (Begins.literal (by simp [loadMessages])).append
  case tree tree =>
    simp only [KnowledgeBase.load, KnowledgeBase.loadTree] at h ⊢
    split at h
    case h_1 hs => exact .inl <| begins_scanDirectory hs h
    case h_2 hs =>
      simp only [mem_append] at h
      rcases h with ((h | h) | h) | h
      · exact .inl <| begins_scanDirectory hs h
      · exact .inl <| begins_scan h
      · exact .inl <| begins_selectEntries h
      · exact .inr h

theorem mem_diagnostics_load_of_related
    (h : diagnostic ∈ (self.load parse directory outcome).entries.flatMap
      (relatedDiagnostics (self.load parse directory outcome).idLookup)) :
    diagnostic ∈ (self.load parse directory outcome).report.diagnostics := by
  cases outcome
  case missing | notDirectory | inspectError => contradiction
  case tree tree =>
    simp only [KnowledgeBase.load, KnowledgeBase.loadTree] at h ⊢
    split at h
    case h_1 => contradiction
    case h_2 => exact mem_append_right _ h

end

-- How the messages of a lint start, up to those for related ids and for concepts.
def lintMessages : List String := [
  "alias '",
  "duplicate alias after search normalization: '",
  "overly similar aliases: '",
  "keyword '",
  "duplicate keyword after search normalization: '",
  "overly broad keyword: '",
  "empty Markdown link target",
  "absolute Markdown link target",
  "Markdown link escapes the knowledge root",
  "Markdown link target does not exist",
  "unterminated Markdown link",
  "unclosed Markdown code fence opened on line "]

section

variable {entry : KnowledgeEntry} {diagnostic : Diagnostic} {texts : List Bytes}

theorem begins_lintAliases {localAliases : Finset Bytes} {known : Finmap fun _ : Bytes => Bytes}
    (h : diagnostic ∈ (lintAliases entry localAliases known texts).diagnostics) :
    Begins lintMessages diagnostic.message := by
  have hc {normalized : Bytes} {source : Option Bytes} (h : diagnostic ∈ aliasCollision entry normalized source) :
      Begins lintMessages diagnostic.message := by
    unfold aliasCollision at h
    split at h
    case h_1 => contradiction
    case h_2 =>
      split at h
      case isTrue  => contradiction
      case isFalse =>
        exact mem_singleton.mp h ▸ (Begins.literal (by simp [lintMessages])).append.append.append.append
  fun_induction lintAliases entry localAliases known texts
  case case1 => contradiction
  case case2 hi =>
    cases mem_append.mp h
    case inl h => exact mem_singleton.mp h ▸ (Begins.literal (by simp [lintMessages])).append.append
    case inr h => exact hi h
  case case3 hi =>
    cases mem_append.mp h
    case inl h => exact mem_singleton.mp h ▸ (Begins.literal (by simp [lintMessages])).append.append
    case inr h => exact hi h
  case case4 hi =>
    cases mem_append.mp h
    case inl h => exact hc h
    case inr h => exact hi h

theorem begins_lintSimilarAliases {aliases : List (Bytes × Bytes)}
    (h : diagnostic ∈ lintSimilarAliases entry aliases) : Begins lintMessages diagnostic.message := by
  fun_induction lintSimilarAliases entry aliases
  case case1 => contradiction
  case case2 hi =>
    cases mem_append.mp h
    case inl h =>
      have ⟨_, _, he⟩ := mem_map.mp h
      exact he ▸ (Begins.literal (by simp [lintMessages])).append.append.append.append
    case inr h => exact hi h

theorem begins_lintKeywords {localKeywords : Finset Bytes}
    (h : diagnostic ∈ lintKeywords entry localKeywords texts) : Begins lintMessages diagnostic.message := by
  fun_induction lintKeywords entry localKeywords texts
  case case1 => contradiction
  case case2 hi =>
    cases mem_cons.mp h
    case inl h => exact h ▸ (Begins.literal (by simp [lintMessages])).append.append
    case inr h => exact hi h
  case case3 hi =>
    simp +zetaDelta only [mem_append, mem_ite_nil_right, mem_singleton] at h
    rcases h with (⟨_, h⟩ | ⟨_, h⟩) | h
    · exact h ▸ (Begins.literal (by simp [lintMessages])).append.append
    · exact h ▸ (Begins.literal (by simp [lintMessages])).append.append
    · exact hi h

variable {targets : LinkTargets} {root target text : Bytes} {lineNumber : ℕ} {suffix : Bytes}

theorem begins_linkDiagnostic {message : String} (h : message ∈ lintMessages) :
    Begins lintMessages (linkDiagnostic entry message lineNumber suffix).message :=
  (Begins.literal h).append.append.append

theorem begins_lintTarget (h : diagnostic ∈ lintTarget targets root entry lineNumber target) :
    Begins lintMessages diagnostic.message := by
  simp only [lintTarget] at h
  split_ifs at h
  all_goals first
    | contradiction
    | exact mem_singleton.mp h ▸ begins_linkDiagnostic (by simp [lintMessages])

theorem begins_lintMarkdownLinks (h : diagnostic ∈ lintMarkdownLinks targets root entry lineNumber text) :
    Begins lintMessages diagnostic.message := by
  fun_induction lintMarkdownLinks targets root entry lineNumber text
  case case1 => contradiction
  case case2 => exact mem_singleton.mp h ▸ begins_linkDiagnostic (by simp [lintMessages])
  case case3 hi =>
    cases mem_append.mp h
    case inl h => exact begins_lintTarget h
    case inr h => exact hi h

theorem begins_lintLines {openFence : Option OpenFence} {input : List Bytes}
    (h : diagnostic ∈ lintLines targets root entry openFence lineNumber input) :
    Begins lintMessages diagnostic.message := by
  induction input generalizing openFence lineNumber
  case nil =>
    cases openFence
    case none => contradiction
    case some => exact mem_singleton.mp h ▸ (Begins.literal (by simp [lintMessages])).append
  case cons source rest hi =>
    simp only [lintLines, mem_append, mem_ite_nil_right] at h
    rcases h with ⟨_, h⟩ | h
    · exact begins_lintMarkdownLinks h
    · exact hi h

variable {knowledge : KnowledgeBase} {known : Finmap fun _ : Bytes => Bytes} {entries : List KnowledgeEntry}

-- Nor does a lint of the entries add anything else.
theorem mem_lintEntries (h : diagnostic ∈ lintEntries targets knowledge known entries) :
    Begins lintMessages diagnostic.message ∨
      diagnostic ∈ entries.flatMap fun entry => lintRelated knowledge entry ∅ entry.related := by
  induction entries generalizing known
  case nil => contradiction
  case cons entry rest hi =>
    simp only [lintEntries, mem_append] at h
    rcases h with ((((h | h) | h) | h) | h) | h
    · exact .inl <| begins_lintAliases h
    · exact .inl <| begins_lintSimilarAliases h
    · exact .inl <| begins_lintKeywords h
    · exact .inr <| mem_append_left _ h
    · exact .inl <| begins_lintLines h
    · exact (hi h).imp_right <| mem_append_right _

theorem mem_lintEntries_of_related
    (h : diagnostic ∈ entries.flatMap fun entry => lintRelated knowledge entry ∅ entry.related) :
    diagnostic ∈ lintEntries targets knowledge known entries := by
  induction entries generalizing known
  case nil => contradiction
  case cons entry rest hi =>
    simp only [lintEntries, mem_append]
    cases mem_append.mp h
    case inl h => exact .inl <| .inl <| .inr h
    case inr h => exact .inr <| hi h

end

end Howlinux
