import Howlinux.Knowledge.Store

open Bytes List

namespace Howlinux

-- Whatever turns an entry down leaves a diagnostic.
section

variable {metadata : List (Yaml × Yaml)} {name path entryId description : Bytes} {outcome : FileOutcome}
  {diagnostics : List Diagnostic}

theorem validateRegularFile_reports (h : (validateRegularFile outcome path entryId description).2 = false) :
    (validateRegularFile outcome path entryId description).1 ≠ [] := by
  cases outcome <;> simp [validateRegularFile] at h ⊢

theorem readFileByteExact_reports
    (h : readFileByteExact outcome path entryId description = (diagnostics, none)) : diagnostics ≠ [] := by
  cases outcome <;> simp [readFileByteExact] at h <;> simp [← h]

-- Reading a field is never refused in silence.
def FieldRead.Reports {α : Type*} (read : FieldRead α) : Prop :=
  read.valid = false → read.diagnostics ≠ []

theorem FieldRead.Reports.valid {α : Type*} {read : FieldRead α} (h : read.Reports)
    (hd : read.diagnostics = []) : read.valid = true := by
  by_contra hv
  exact h (Bool.eq_false_iff.mpr hv) hd

theorem readRequiredString_reports : (readRequiredString metadata name path entryId).Reports := by
  unfold readRequiredString
  split
  case h_3 => split <;> simp [FieldRead.Reports]
  all_goals simp [FieldRead.Reports]

theorem readOptionalString_reports : (readOptionalString metadata name path entryId).Reports := by
  unfold readOptionalString
  split <;> simp [FieldRead.Reports]

theorem readItems_reports {index : ℕ} {items : List Yaml} :
    (readItems name path entryId index items).Reports := by
  fun_induction readItems name path entryId index items
  case case1 => simp [FieldRead.Reports]
  case case2 hi => exact hi
  case case3 => simp [FieldRead.Reports]

theorem readOptionalStringList_reports : (readOptionalStringList metadata name path entryId).Reports := by
  unfold readOptionalStringList
  split
  case h_2 => exact readItems_reports
  all_goals simp [FieldRead.Reports]

theorem readKeys_reports {seenFields : Finset Bytes} {items : List (Yaml × Yaml)} :
    (readKeys path entryId seenFields items).Reports := by
  fun_induction readKeys path entryId seenFields items
  case case3 hi => exact hi
  case case4 hi => exact hi
  all_goals simp [FieldRead.Reports]

theorem readMetadata_reports {unknownFields : List Bytes} {entryDirectory category : Bytes}
    (h : readMetadata metadata unknownFields entryDirectory category path entryId = (diagnostics, none)) :
    diagnostics ≠ [] := by
  intro hd
  simp only [readMetadata] at h
  generalize (if hasNonWhitespace _ = true then _ else entryId) = diagnosticId at h
  split at h
  case isTrue => simp at h
  case isFalse hv =>
    simp only [hd, Prod.mk.injEq, append_eq_nil_iff, and_assoc] at h
    have ⟨h₁, h₂, h₃, h₄, h₅, h₆, h₇, h₈, h₉, h₁₀, h₁₁, h₁₂, _⟩ := h
    refine hv ?_
    simp only [readRequiredString_reports.valid h₁, readRequiredString_reports.valid h₂,
      readRequiredString_reports.valid h₃, readOptionalString_reports.valid h₄,
      readOptionalString_reports.valid h₅, readOptionalStringList_reports.valid h₆,
      readOptionalStringList_reports.valid h₇, readOptionalStringList_reports.valid h₈,
      readOptionalStringList_reports.valid h₉, readOptionalStringList_reports.valid h₁₀,
      readOptionalStringList_reports.valid h₁₁, readOptionalStringList_reports.valid h₁₂, Bool.and_self]

theorem readContent_reports {entry : KnowledgeEntry}
    (h : (readContent outcome path entry).2 = none) : (readContent outcome path entry).1 ≠ [] := by
  unfold readContent at h ⊢
  split
  case h_1 he => exact readFileByteExact_reports he
  case h_2 he =>
    simp only [he] at h
    split at h <;> simp_all

variable {parse : Bytes → YamlOutcome} {content : FileOutcome} {entryDirectory category : Bytes}

theorem loadMetadata_reports
    (h : loadMetadata parse outcome entryDirectory category = (diagnostics, none)) : diagnostics ≠ [] := by
  simp only [loadMetadata] at h
  split at h
  case h_1 he => exact (Prod.mk.inj h).left ▸ readFileByteExact_reports he
  case h_2 text he =>
    cases hp : parse text
    case node root =>
      simp only [hp] at h
      cases root
      case map items =>
        simp only at h
        split at h
        case isTrue  => exact readMetadata_reports h
        case isFalse hv => exact (Prod.mk.inj h).left ▸ readKeys_reports (Bool.eq_false_iff.mpr hv)
      all_goals simp [← (Prod.mk.inj h).left]
    all_goals
      simp only [hp] at h
      simp [← (Prod.mk.inj h).left]

theorem loadEntry_reports
    (h : loadEntry parse outcome content entryDirectory category = (diagnostics, none)) :
    diagnostics ≠ [] := by
  simp only [loadEntry] at h
  split at h
  case isTrue hv =>
    simp only [Bool.or_eq_true, Bool.not_eq_true'] at hv
    rw [← (Prod.mk.inj h).left]
    cases hv
    case inl hv => exact append_ne_nil_of_left_ne_nil (validateRegularFile_reports hv) _
    case inr hv => exact append_ne_nil_of_right_ne_nil _ (validateRegularFile_reports hv)
  case isFalse hv =>
    split at h
    case h_1 he => exact (Prod.mk.inj h).left ▸ loadMetadata_reports he
    case h_2 he =>
      have ⟨hd, hn⟩ := Prod.mk.inj h
      exact hd ▸ append_ne_nil_of_right_ne_nil _ (readContent_reports hn)

end

-- What the loop did with one candidate: the diagnostics it added, and the entry unless it was skipped.
abbrev Attempt := List Diagnostic × Option KnowledgeEntry

-- The attempts add up to a selection, and none of them skipped an entry in silence.
structure Selection.Accounts (selection : Selection) (attempts : List Attempt) : Prop where
  entries     : selection.entries = attempts.filterMap (·.2)
  skipped     : selection.skippedEntries = attempts.countP (·.2.isNone)
  diagnostics : selection.diagnostics = attempts.flatMap (·.1)
  reports     : ∀ attempt ∈ attempts, attempt.2 = none → attempt.1 ≠ []

namespace Selection.Accounts

variable {selection : Selection} {attempts : List Attempt} {diagnostics : List Diagnostic}

theorem skip (h : selection.Accounts attempts) (hd : diagnostics ≠ []) :
    (selection.skip diagnostics).Accounts ((diagnostics, none) :: attempts) where
  entries     := by simp [Selection.skip, h.entries]
  skipped     := by simp [Selection.skip, h.skipped]
  diagnostics := by simp [Selection.skip, h.diagnostics]
  reports     := forall_mem_cons.mpr ⟨fun _ => hd, h.reports⟩

theorem add {entry : KnowledgeEntry} (h : selection.Accounts attempts) :
    (selection.add diagnostics entry).Accounts ((diagnostics, some entry) :: attempts) where
  entries     := by simp [Selection.add, h.entries]
  skipped     := by simp [Selection.add, h.skipped]
  diagnostics := by simp [Selection.add, h.diagnostics]
  reports     := forall_mem_cons.mpr ⟨by simp, h.reports⟩

theorem length (h : selection.Accounts attempts) :
    attempts.length = selection.entries.length + selection.skippedEntries := by
  rw [length_eq_countP_add_countP (fun attempt : Attempt => attempt.2.isSome), h.entries, h.skipped,
    length_filterMap_eq_countP, Nat.add_left_cancel_iff]
  exact countP_congr fun attempt _ => by simp

end Selection.Accounts

section

variable {parse : Bytes → YamlOutcome} {root : Bytes} {firstSourceById : Finmap fun _ : Bytes => Bytes}
  {located : List Located}

theorem exists_accounts : ∃ attempts, attempts.length = located.length ∧
    (selectEntries parse root firstSourceById located).Accounts attempts := by
  fun_induction selectEntries parse root firstSourceById located
  case case1 => exact ⟨[], rfl, ⟨rfl, rfl, rfl, by simp⟩⟩
  case case2 he hi =>
    obtain ⟨attempts, hl, ha⟩ := hi
    exact ⟨_, congrArg (· + 1) hl, ha.skip (loadEntry_reports he)⟩
  case case3 hi =>
    obtain ⟨attempts, hl, ha⟩ := hi
    exact ⟨_, congrArg (· + 1) hl, ha.skip (by simp)⟩
  case case4 hi =>
    obtain ⟨attempts, hl, ha⟩ := hi
    exact ⟨_, congrArg (· + 1) hl, ha.add⟩
  case case5 hi =>
    obtain ⟨attempts, hl, ha⟩ := hi
    exact ⟨_, congrArg (· + 1) hl, ha.skip (by simp)⟩

end

namespace KnowledgeStore

-- What holds of the members after every load.
structure Consistent (store : KnowledgeStore) : Prop where
  findById    : ∀ id entry, store.findById id = some entry ↔ store.entries.filter (·.id = id) = [entry]
  discovered  : store.report.discoveredEntries = store.report.loadedEntries + store.report.skippedEntries
  loaded      : store.report.loadedEntries = store.entries.length
  skipped     : ∃ attempts : List Attempt, attempts.length = store.report.discoveredEntries ∧
    store.entries.Perm (attempts.filterMap (·.2)) ∧
    attempts.countP (·.2.isNone) = store.report.skippedEntries ∧
    (∀ attempt ∈ attempts, attempt.2 = none → attempt.1 ≠ []) ∧
    attempts.flatMap (·.1) <:+: store.report.diagnostics
  unavailable : store.report.rootAvailable = false → store.entries = [] ∧
    store.report.discoveredEntries = 0 ∧ store.report.loadedEntries = 0 ∧ store.report.skippedEntries = 0 ∧
    ∃ diagnostic ∈ store.report.diagnostics, diagnostic.severity = .error

theorem findById_eq_find? (knowledge : KnowledgeBase) (id : Bytes) :
    knowledge.store.findById id = knowledge.entries.find? (·.id = id) := by
  have hl := find?_zipIdx_bind (fun entry : KnowledgeEntry => decide (entry.id = id)) knowledge.entries
  rw [← hl, findById]
  simp only [KnowledgeBase.store, knowledge.lookup_eq, rebuildLookup]
  rw [Finmap.lookup_foldl_emplace]
  simp

theorem findById_iff (knowledge : KnowledgeBase) (id : Bytes) (entry : KnowledgeEntry) :
    knowledge.store.findById id = some entry ↔ knowledge.entries.filter (·.id = id) = [entry] := by
  rw [findById_eq_find?, find?_eq_some_iff_filter knowledge.sorted]
  intro a b ha hb
  simp_all

section

variable {parse : Bytes → YamlOutcome} {root : Bytes} {tree : KnowledgeTree} {diagnostics : List Diagnostic}

theorem error_of_scanDirectory {current : Located}
    (h : scanDirectory true root current = (diagnostics, none)) :
    ∃ diagnostic ∈ diagnostics, diagnostic.severity = .error := by
  unfold scanDirectory listDirectory at h
  cases ho : current.directory.openError
  case some =>
    simp only [ho, Prod.mk.injEq] at h
    simp [← h.left, scanDiagnostic]
  case none =>
    cases hr : current.directory.readError
    case none => simp [ho, hr] at h
    case some =>
      simp only [ho, hr, if_true, Prod.mk.injEq] at h
      simp [← h.left, scanDiagnostic]

theorem consistent_unavailable (h : ∃ diagnostic ∈ diagnostics, diagnostic.severity = .error) :
    (KnowledgeBase.unavailable root diagnostics).store.Consistent where
  findById      := findById_iff _
  discovered    := rfl
  loaded        := rfl
  skipped       := ⟨[], rfl, .nil, rfl, by simp, nil_infix⟩
  unavailable _ := ⟨rfl, rfl, rfl, rfl, h⟩

theorem consistent_loadTree : (KnowledgeBase.loadTree parse root tree).store.Consistent := by
  rcases hs : scanDirectory true root tree.val.located with ⟨diagnostics, _ | found⟩
  case none =>
    have hc : (KnowledgeBase.unavailable root diagnostics).store.Consistent :=
      consistent_unavailable (error_of_scanDirectory hs)
    simpa only [KnowledgeBase.loadTree, hs]
  case some =>
    let candidates := candidates root (tree.val.located :: (scan root found).2)
    have ⟨attempts, hl, ha⟩ : ∃ attempts, attempts.length = candidates.length ∧
        (selectEntries parse root ∅ candidates).Accounts attempts := exists_accounts
    have he : (KnowledgeBase.loadTree parse root tree).entries =
        sortEntries (selectEntries parse root ∅ candidates).entries := by
      simp [KnowledgeBase.loadTree, hs, candidates]
    have hr : (KnowledgeBase.loadTree parse root tree).report = {
        rootAvailable     := true
        discoveredEntries := attempts.length
        loadedEntries     := (KnowledgeBase.loadTree parse root tree).entries.length
        skippedEntries    := (selectEntries parse root ∅ candidates).skippedEntries
        diagnostics       := diagnostics ++ (scan root found).1 ++ attempts.flatMap (·.1) ++
          (KnowledgeBase.loadTree parse root tree).entries.flatMap
            (relatedDiagnostics <| rebuildLookup (KnowledgeBase.loadTree parse root tree).entries) } := by
      simp [KnowledgeBase.loadTree, hs, hl, ← ha.diagnostics, candidates]
    exact {
      findById    := findById_iff _
      discovered  := by
        simp only [KnowledgeBase.store, hr, he, ha.length, sortEntries, length_sortBy]
      loaded      := by simp only [KnowledgeBase.store, hr]
      skipped     := by
        simp only [KnowledgeBase.store, hr, he, ha.skipped]
        refine ⟨attempts, rfl, ?_, rfl, ha.reports, ?_⟩
        · exact ha.entries ▸ perm_sortBy _ _
        · exact ⟨_, _, rfl⟩
      unavailable := by simp [KnowledgeBase.store, hr] }

theorem consistent_load (directory : Bytes) (outcome : KnowledgeRoot) (knowledge : KnowledgeBase) :
    (knowledge.load parse directory outcome).store.Consistent := by
  cases outcome
  case tree => exact consistent_loadTree
  all_goals exact consistent_unavailable ⟨_, mem_singleton_self _, rfl⟩

-- The members end up as if they had never held anything else.
theorem foldl_consider {candidates : List Located} {firstSourceById : Finmap fun _ : Bytes => Bytes}
    (store : KnowledgeStore) :
    (candidates.foldl (consider parse) (store, firstSourceById)).1 =
      let selection := selectEntries parse store.root firstSourceById candidates
      { store with
        entries := store.entries ++ selection.entries
        report  := { store.report with
          skippedEntries := store.report.skippedEntries + selection.skippedEntries
          diagnostics    := store.report.diagnostics ++ selection.diagnostics } } := by
  induction candidates generalizing store firstSourceById
  case nil => simp [selectEntries]
  case cons candidate candidates hi =>
    rcases hr : relativeComponents candidate with _ | ⟨category, _ | _⟩
    case cons.cons =>
      rcases hl : loadEntry parse candidate.directory.metadata candidate.directory.content
        (candidate.path store.root) category with ⟨diagnostics, _ | entry⟩
      case none =>
        simp only [foldl_cons, consider, selectEntries, hr, hl, hi]
        simp [Selection.skip, KnowledgeStore.skip, diagnose, Nat.add_assoc, Nat.add_comm 1]
      case some =>
        cases hf : firstSourceById.lookup entry.id
        case none =>
          simp only [foldl_cons, consider, selectEntries, hr, hl, hf, hi]
          simp [Selection.add, push, diagnose]
        case some =>
          simp only [foldl_cons, consider, selectEntries, hr, hl, hf, hi]
          simp [Selection.skip, KnowledgeStore.skip, diagnose, Nat.add_assoc, Nat.add_comm 1]
    all_goals
      simp only [foldl_cons, consider, selectEntries, hr, hi]
      simp [Selection.skip, KnowledgeStore.skip, diagnose, Nat.add_assoc, Nat.add_comm 1]

theorem load_eq (parse : Bytes → YamlOutcome) (directory : Bytes) (outcome : KnowledgeRoot)
    (store : KnowledgeStore) :
    store.load parse directory outcome = (KnowledgeBase.load parse directory outcome default).store := by
  cases outcome
  case tree tree =>
    simp only [load, KnowledgeBase.load, loadTree, KnowledgeBase.loadTree, clear]
    rcases hs : scanDirectory true (lexicallyNormal directory) tree.val.located with
      ⟨diagnostics, _ | found⟩
    case none =>
      simp [diagnose, KnowledgeBase.store, KnowledgeBase.unavailable]
      rfl
    case some =>
      simp only [foldl_consider, diagnose, sortAndRebuild]
      simp [KnowledgeBase.store]
  all_goals rfl

end

end KnowledgeStore

-- After any sequence of loads the members agree with each other, and with a load into an empty
-- knowledge base.
theorem load_keeps_consistent (store : KnowledgeStore) (calls : List LoadCall) (last : LoadCall) :
    let after := (calls ++ [last]).foldl LoadCall.apply store
    after.Consistent ∧ after = LoadCall.apply {} last := by
  simp only [foldl_append, foldl_cons, foldl_nil, LoadCall.apply, KnowledgeStore.load_eq, and_true]
  exact KnowledgeStore.consistent_load _ _ _

end Howlinux
