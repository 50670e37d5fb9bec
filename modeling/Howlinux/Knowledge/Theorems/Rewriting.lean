import Howlinux.Knowledge.Theorems.Load
import Howlinux.Knowledge.Theorems.Related

open Bytes List

namespace Howlinux

section

variable (R : Bytes → Bytes → Prop)

-- A content file before and after it was rewritten. What cannot be read stays as it is.
inductive FileOutcome.Rewrites : FileOutcome → FileOutcome → Prop
  | text  : R content content' → Rewrites (.text content) (.text content')
  | other : (∀ content, outcome ≠ .text content) → Rewrites outcome outcome

mutual

-- The same directory with other texts in the content files, enumerated in another order on every level.
inductive Directory.Rewrites : Directory → Directory → Prop
  | intro : FileOutcome.Rewrites R content content' → Perm children reordered →
    Forall₂ RewritesChild reordered children' →
    Directory.Rewrites (.mk metadata content openError children readError)
      (.mk metadata content' openError children' readError)

inductive RewritesChild : Bytes × Child Directory → Bytes × Child Directory → Prop
  | directory : Directory.Rewrites directory directory' →
    RewritesChild (name, .directory directory) (name, .directory directory')
  | other : Directory.subdirectory child = none → RewritesChild child child

end

-- The same directory at the same place.
structure Located.Rewrites (located located' : Located) : Prop where
  names     : located.names = located'.names
  directory : located.directory.Rewrites R located'.directory

inductive KnowledgeRoot.Rewrites : KnowledgeRoot → KnowledgeRoot → Prop
  | tree {left right : KnowledgeTree} : left.val.Rewrites R right.val → Rewrites (.tree left) (.tree right)
  | other : (∀ tree, outcome ≠ .tree tree) → Rewrites outcome outcome

-- The same root, enumerated in another order on every level.
abbrev KnowledgeRoot.Shuffles : KnowledgeRoot → KnowledgeRoot → Prop :=
  Rewrites Eq

inductive KnowledgeEntry.Rewrites : KnowledgeEntry → KnowledgeEntry → Prop
  | intro : R entry.content rewritten → Rewrites entry { entry with content := rewritten }

structure Selection.Rewrites (selection selection' : Selection) : Prop where
  diagnostics    : selection.diagnostics = selection'.diagnostics
  skippedEntries : selection.skippedEntries = selection'.skippedEntries
  entries        : Forall₂ (KnowledgeEntry.Rewrites R) selection.entries selection'.entries

-- Apart from the contents, both knowledge bases hold and report the same.
structure KnowledgeBase.Rewrites (knowledge knowledge' : KnowledgeBase) : Prop where
  root    : knowledge.root = knowledge'.root
  entries : Forall₂ (KnowledgeEntry.Rewrites R) knowledge.entries knowledge'.entries
  report  : knowledge.report = knowledge'.report

-- A rewriting that neither makes a content blank nor fills a blank one.
def KeepsBlank : Prop :=
  ∀ content content', R content content' → hasNonWhitespace content = hasNonWhitespace content'

end

section

variable {R : Bytes → Bytes → Prop} {directory directory' : Directory} {child child' : Bytes × Child Directory}
  {path root : Bytes} {located located' : Located} {queue queue' : List Located}

namespace FileOutcome.Rewrites

variable {outcome outcome' : FileOutcome}

theorem pathIsPresent (h : outcome.Rewrites R outcome') :
    Howlinux.pathIsPresent outcome = Howlinux.pathIsPresent outcome' := by
  cases h <;> rfl

theorem validateRegularFile (h : outcome.Rewrites R outcome') (path entryId description : Bytes) :
    Howlinux.validateRegularFile outcome path entryId description =
      Howlinux.validateRegularFile outcome' path entryId description := by
  cases h <;> rfl

end FileOutcome.Rewrites

namespace Directory.Rewrites

theorem metadata_eq (h : directory.Rewrites R directory') : directory.metadata = directory'.metadata := by
  cases h
  rfl

theorem content (h : directory.Rewrites R directory') : directory.content.Rewrites R directory'.content := by
  cases h
  assumption

theorem openError_eq (h : directory.Rewrites R directory') : directory.openError = directory'.openError := by
  cases h
  rfl

theorem exists_children (h : directory.Rewrites R directory') : ∃ reordered, directory.children.Perm reordered ∧
    Forall₂ (RewritesChild R) reordered directory'.children := by
  cases h
  case intro hp hs => exact ⟨_, hp, hs⟩

theorem readError_eq (h : directory.Rewrites R directory') : directory.readError = directory'.readError := by
  cases h
  case intro hp hs =>
    have he := hp.length_eq.trans hs.length_eq
    simp only [readError, isEmpty_iff_length_eq_zero, he]

end Directory.Rewrites

theorem RewritesChild.name (h : RewritesChild R child child') : child.1 = child'.1 := by
  cases h <;> rfl

theorem RewritesChild.inspectChild (h : RewritesChild R child child') :
    Howlinux.inspectChild path child = Howlinux.inspectChild path child' := by
  cases h <;> rfl

-- The order in which the children come is lost when they are sorted.
theorem Directory.Rewrites.sortBy (path : Bytes) (h : directory.Rewrites R directory')
    (hw : directory.WellFormed) :
    Forall₂ (RewritesChild R) (directory.children.sortBy <| pathSortsBefore path)
      (directory'.children.sortBy <| pathSortsBefore path) := by
  have ⟨reordered, hp, hs⟩ := h.exists_children
  have hc : ComparesBy (pathSortsBefore path) fun child => slash path child.1 := fun a b => by
    simp [pathSortsBefore]
  have he : directory.children.sortBy (pathSortsBefore path) = reordered.sortBy (pathSortsBefore path) :=
    sortBy_eq_of_perm hc (fun a ha b hb hab => inj_on_of_nodup_map hw.nodup ha hb <| injective_slash path hab) hp
  rw [he]
  refine forall₂_sortBy (fun a b a' b' hr hr' => ?_) hs
  simp only [pathSortsBefore, hr.name, hr'.name]

theorem RewritesChild.flatMap_inspectChild (path : Bytes) {children children' : List (Bytes × Child Directory)}
    (h : Forall₂ (RewritesChild R) children children') :
    children.flatMap (Howlinux.inspectChild path) = children'.flatMap (Howlinux.inspectChild path) := by
  induction h
  case nil          => rfl
  case cons hc _ hi => rw [flatMap_cons, flatMap_cons, hc.inspectChild, hi]

theorem RewritesChild.subdirectories {children children' : List (Bytes × Child Directory)}
    (h : Forall₂ (RewritesChild R) children children') (hn : located.names = located'.names) :
    Forall₂ (Located.Rewrites R) ((children.filterMap Directory.subdirectory).map located.child)
      ((children'.filterMap Directory.subdirectory).map located'.child) := by
  induction h
  case nil => exact .nil
  case cons hc _ hi =>
    cases hc
    case directory hs => exact .cons ⟨congrArg (· ++ _) hn, hs⟩ hi
    case other hs     => simpa [filterMap_cons, hs] using hi

namespace Located.Rewrites

theorem path_eq (h : located.Rewrites R located') : located.path root = located'.path root := by
  rw [path, path, h.names]

-- Both enumerations report the same, and leave the same directories to be scanned in the same order.
theorem scanDirectory (isRoot : Bool) (root : Bytes) (h : located.Rewrites R located')
    (hw : located.directory.WellFormed) :
    (Howlinux.scanDirectory isRoot root located).1 = (Howlinux.scanDirectory isRoot root located').1 ∧
    Option.Rel (Forall₂ (Located.Rewrites R)) (Howlinux.scanDirectory isRoot root located).2
      (Howlinux.scanDirectory isRoot root located').2 := by
  have hs := h.directory.sortBy (located.path root) hw
  have hc := RewritesChild.flatMap_inspectChild (located.path root) hs
  have hd := RewritesChild.subdirectories hs h.names
  unfold Howlinux.scanDirectory listDirectory
  rw [← h.path_eq, ← h.directory.openError_eq, ← h.directory.readError_eq]
  cases located.directory.openError
  case some => exact ⟨rfl, .none⟩
  case none =>
    cases located.directory.readError
    case none => exact ⟨hc, .some hd⟩
    case some =>
      cases isRoot
      case false => exact ⟨congrArg (_ :: ·) hc, .some hd⟩
      case true  => exact ⟨rfl, .none⟩

end Located.Rewrites

theorem Directory.WellFormed.scanDirectory {found : Located} (hw : located.directory.WellFormed)
    (h : found ∈ (Howlinux.scanDirectory false root located).2.getD []) : found.directory.WellFormed := by
  have ⟨_, _, hm⟩ := Located.names_of_mem_subdirectories <| (perm_scanDirectory root located).mem_iff.mp h
  exact hw.subdirectories _ hm

theorem scan_cons {current : Located} {rest : List Located} : scan root (current :: rest) =
    ((scanDirectory false root current).1 ++ (scan root (rest ++ (scanDirectory false root current).2.getD [])).1,
      current :: (scan root (rest ++ (scanDirectory false root current).2.getD [])).2) := by
  rw [scan]

theorem forall₂_getD {α : Type*} {R : α → α → Prop} {left right : Option (List α)}
    (h : Option.Rel (Forall₂ R) left right) : Forall₂ R (left.getD []) (right.getD []) := by
  cases h
  case none   => exact .nil
  case some h => exact h

-- The work-list stays the same while it is walked.
theorem rewrites_scan (root : Bytes) (h : Forall₂ (Located.Rewrites R) queue queue')
    (hw : ∀ located ∈ queue, located.directory.WellFormed) :
    (scan root queue).1 = (scan root queue').1 ∧
    Forall₂ (Located.Rewrites R) (scan root queue).2 (scan root queue').2 := by
  fun_induction scan root queue generalizing queue'
  case case1 =>
    cases h
    rw [scan]
    exact ⟨rfl, .nil⟩
  case case2 current rest later directories hd hi =>
    cases h
    case cons current' rest' hc hr =>
      have ⟨hw, hwr⟩ := forall_mem_cons.mp hw
      have ⟨hreport, hfound⟩ := hc.scanDirectory false root hw
      have ⟨hlater, hdirectories⟩ := hi (rel_append hr (forall₂_getD hfound)) fun located hm =>
        (mem_append.mp hm).elim (hwr located) hw.scanDirectory
      rw [hd] at hlater hdirectories
      rw [scan_cons]
      exact ⟨congrArg₂ (· ++ ·) hreport hlater, .cons hc hdirectories⟩

theorem rewrites_candidates (root : Bytes) (h : Forall₂ (Located.Rewrites R) queue queue') :
    Forall₂ (Located.Rewrites R) (candidates root queue) (candidates root queue') := by
  have hf : Forall₂ (Located.Rewrites R) (queue.filter isCandidate) (queue'.filter isCandidate) := by
    induction h
    case nil => exact .nil
    case cons hs _ hi =>
      have hc : isCandidate _ = isCandidate _ := congrArg₂ (· || ·)
        (congrArg pathIsPresent hs.directory.metadata_eq) hs.directory.content.pathIsPresent
      rw [filter_cons, filter_cons, hc]
      split
      case isTrue  => exact .cons hs hi
      case isFalse => exact hi
  refine forall₂_unique (fun _ _ hs => hs.path_eq) <| forall₂_sortBy (fun _ _ _ _ hs hs' => ?_) hf
  rw [hs.path_eq, hs'.path_eq]

variable (parse : Bytes → YamlOutcome)

theorem rewrites_readContent (hR : KeepsBlank R) {outcome outcome' : FileOutcome} (h : outcome.Rewrites R outcome')
    (path : Bytes) (entry : KnowledgeEntry) :
    (readContent outcome path entry).1 = (readContent outcome' path entry).1 ∧
    Option.Rel (KnowledgeEntry.Rewrites R) (readContent outcome path entry).2
      (readContent outcome' path entry).2 := by
  cases h
  case other hn =>
    unfold readContent readFileByteExact
    cases outcome
    case text => exact absurd rfl (hn _)
    all_goals exact ⟨rfl, .none⟩
  case text content content' hr =>
    simp only [readContent, readFileByteExact, hR content content' hr]
    split
    case isTrue  => exact ⟨rfl, .some <| .intro hr⟩
    case isFalse => exact ⟨rfl, .none⟩

theorem rewrites_loadEntry (hR : KeepsBlank R) (h : directory.Rewrites R directory')
    (entryDirectory category : Bytes) :
    (loadEntry parse directory.metadata directory.content entryDirectory category).1 =
      (loadEntry parse directory'.metadata directory'.content entryDirectory category).1 ∧
    Option.Rel (KnowledgeEntry.Rewrites R)
      (loadEntry parse directory.metadata directory.content entryDirectory category).2
      (loadEntry parse directory'.metadata directory'.content entryDirectory category).2 := by
  unfold loadEntry
  dsimp only
  rw [← h.metadata_eq, ← h.content.validateRegularFile]
  split
  case isTrue => exact ⟨rfl, .none⟩
  case isFalse =>
    rcases loadMetadata parse directory.metadata entryDirectory category with ⟨diagnostics, _ | entry⟩
    case none => exact ⟨rfl, .none⟩
    case some =>
      have ⟨hd, he⟩ := rewrites_readContent hR h.content (slash entryDirectory contentFilename) entry
      exact ⟨congrArg (_ ++ ·) hd, he⟩

namespace Selection.Rewrites

variable {selection selection' : Selection}

theorem skip (h : selection.Rewrites R selection') (diagnostics : List Diagnostic) :
    (selection.skip diagnostics).Rewrites R (selection'.skip diagnostics) where
  diagnostics    := congrArg (diagnostics ++ ·) h.diagnostics
  skippedEntries := congrArg (· + 1) h.skippedEntries
  entries        := h.entries

theorem add {entry entry' : KnowledgeEntry} (h : selection.Rewrites R selection') (diagnostics : List Diagnostic)
    (he : entry.Rewrites R entry') :
    (selection.add diagnostics entry).Rewrites R (selection'.add diagnostics entry') where
  diagnostics    := congrArg (diagnostics ++ ·) h.diagnostics
  skippedEntries := h.skippedEntries
  entries        := .cons he h.entries

end Selection.Rewrites

-- The same directories are selected and skipped.
theorem rewrites_selectEntries (hR : KeepsBlank R) (root : Bytes)
    (firstSourceById : Finmap fun _ : Bytes => Bytes) (h : Forall₂ (Located.Rewrites R) queue queue') :
    (selectEntries parse root firstSourceById queue).Rewrites R
      (selectEntries parse root firstSourceById queue') := by
  induction h generalizing firstSourceById
  case nil => exact ⟨rfl, rfl, .nil⟩
  case cons located located' _ _ hs _ hi =>
    have hc : relativeComponents located = relativeComponents located' := congrArg (filter _) hs.names
    unfold selectEntries
    dsimp only
    rw [← hs.path_eq, ← hc]
    rcases relativeComponents located with _ | ⟨category, _ | ⟨name, names⟩⟩
    case nil      => exact (hi _).skip _
    case cons.nil => exact (hi _).skip _
    case cons.cons =>
      obtain ⟨hd, he⟩ := rewrites_loadEntry parse hR hs.directory (located.path root) category
      revert hd he
      dsimp only
      generalize loadEntry parse located.directory.metadata located.directory.content (located.path root)
        category = loaded
      generalize loadEntry parse located'.directory.metadata located'.directory.content (located.path root)
        category = loaded'
      obtain ⟨diagnostics, entry⟩ := loaded
      obtain ⟨diagnostics', entry'⟩ := loaded'
      rintro rfl (hr | _)
      case none => exact (hi _).skip _
      case some =>
        cases hr
        case intro entry rewritten hr =>
          dsimp only
          cases firstSourceById.lookup entry.id
          case none   => exact (hi _).add _ <| .intro hr
          case some _ => exact (hi _).skip _

theorem map_eq_of_forall₂ {α β γ : Type*} {S : α → β → Prop} {f : α → γ} {g : β → γ} {left : List α}
    {right : List β} (hf : ∀ a b, S a b → f a = g b) (h : Forall₂ S left right) : left.map f = right.map g := by
  rw [← forall₂_eq_eq_eq, forall₂_map_left_iff, forall₂_map_right_iff]
  exact h.imp hf

theorem rel_getElem? {α β : Type*} {S : α → β → Prop} {left : List α} {right : List β} (h : Forall₂ S left right)
    (i : ℕ) : Option.Rel S left[i]? right[i]? := by
  induction h generalizing i
  case nil => exact .none
  case cons hs _ hi =>
    cases i
    case zero   => exact .some hs
    case succ i => exact hi i

theorem rebuildLookup_eq_foldl (entries : List KnowledgeEntry) : rebuildLookup entries =
    (entries.map (·.id)).zipIdx.foldl (fun lookup item => lookup.emplace item.1 item.2) ∅ := by
  rw [zipIdx_map, foldl_map]
  rfl

section

variable {entries entries' : List KnowledgeEntry}

-- Entries that differ in their contents have the same other fields.
theorem map_eq_of_rewrites {α : Type*} {f : KnowledgeEntry → α}
    (hf : ∀ entry content, f { entry with content } = f entry)
    (h : Forall₂ (KnowledgeEntry.Rewrites R) entries entries') : entries.map f = entries'.map f := by
  refine map_eq_of_forall₂ (fun entry entry' hr => ?_) h
  cases hr
  exact (hf ..).symm

theorem rewrites_sortEntries (h : Forall₂ (KnowledgeEntry.Rewrites R) entries entries') :
    Forall₂ (KnowledgeEntry.Rewrites R) (sortEntries entries) (sortEntries entries') := by
  refine forall₂_sortBy (fun a b a' b' hr hr' => ?_) h
  cases hr
  cases hr'
  rfl

theorem rewrites_rebuildLookup (h : Forall₂ (KnowledgeEntry.Rewrites R) entries entries') :
    rebuildLookup entries = rebuildLookup entries' := by
  rw [rebuildLookup_eq_foldl, rebuildLookup_eq_foldl,
    map_eq_of_rewrites (fun _ _ => rfl) h]

end

namespace KnowledgeBase.Rewrites

variable {knowledge knowledge' : KnowledgeBase}

theorem findById (h : knowledge.Rewrites R knowledge') (id : Bytes) :
    Option.Rel (KnowledgeEntry.Rewrites R) (knowledge.findById id) (knowledge'.findById id) := by
  have hl : knowledge.idLookup = knowledge'.idLookup := by
    rw [knowledge.lookup_eq, rewrites_rebuildLookup h.entries, ← knowledge'.lookup_eq]
  unfold KnowledgeBase.findById
  rw [hl]
  cases knowledge'.idLookup.lookup id
  case none   => exact .none
  case some i => exact rel_getElem? h.entries i

theorem rfl_of_empty (h : knowledge.entries = []) : knowledge.Rewrites R knowledge :=
  ⟨rfl, h ▸ .nil, rfl⟩

end KnowledgeBase.Rewrites

theorem rewrites_loadTree (hR : KeepsBlank R) (root : Bytes) {tree tree' : KnowledgeTree}
    (h : tree.val.Rewrites R tree'.val) :
    (KnowledgeBase.loadTree parse root tree).Rewrites R (KnowledgeBase.loadTree parse root tree') := by
  have hs : tree.val.located.Rewrites R tree'.val.located := ⟨rfl, h⟩
  have ⟨hreport, hfound⟩ := hs.scanDirectory true root tree.property
  unfold KnowledgeBase.loadTree
  rcases hl : scanDirectory true root tree.val.located with ⟨diagnostics, found⟩
  rcases hr : scanDirectory true root tree'.val.located with ⟨diagnostics', found'⟩
  rw [hl, hr] at hreport hfound
  obtain rfl : diagnostics = diagnostics' := hreport
  cases hfound
  case none => exact .rfl_of_empty rfl
  case some found found' hf =>
    have hw : ∀ located ∈ found, located.directory.WellFormed := fun located hm => by
      obtain ⟨_, _, _, _, he, hi⟩ | ⟨_, _, he⟩ := scanDirectory_root root tree
      case inr => cases hl.symm.trans he
      case inl =>
        cases hl.symm.trans he
        have ⟨_, _, hc⟩ := Located.names_of_mem_subdirectories <| (hi located).mp hm
        exact tree.property.subdirectories _ hc
    have ⟨hlater, hdirectories⟩ := rewrites_scan root hf hw
    have hcandidates := rewrites_candidates root <| hdirectories.cons hs
    have hselection  := rewrites_selectEntries parse hR root ∅ hcandidates
    have hentries    := rewrites_sortEntries hselection.entries
    have hrelated (lookup : Finmap fun _ : Bytes => ℕ) := congrArg flatten <|
      map_eq_of_rewrites (f := relatedDiagnostics lookup) (fun _ _ => rfl) hentries
    refine ⟨rfl, hentries, ?_⟩
    simp only [hlater, hcandidates.length_eq, hselection.diagnostics, hselection.skippedEntries,
      hentries.length_eq, rewrites_rebuildLookup hentries, flatMap_def, hrelated]

-- A load takes nothing from a content file but the content.
theorem rewrites_load (hR : KeepsBlank R) (self : KnowledgeBase) (directory : Bytes)
    {outcome outcome' : KnowledgeRoot} (h : outcome.Rewrites R outcome') :
    (self.load parse directory outcome).Rewrites R (self.load parse directory outcome') := by
  cases h
  case tree h => exact rewrites_loadTree parse hR _ h
  case other hn =>
    cases outcome
    case tree tree => exact absurd rfl (hn tree)
    all_goals exact .rfl_of_empty rfl

theorem KnowledgeBase.ext {knowledge knowledge' : KnowledgeBase} (hr : knowledge.root = knowledge'.root)
    (he : knowledge.entries = knowledge'.entries) (hp : knowledge.report = knowledge'.report) :
    knowledge = knowledge' := by
  have hl : knowledge.idLookup = knowledge'.idLookup := by rw [knowledge.lookup_eq, he, ← knowledge'.lookup_eq]
  cases knowledge
  cases knowledge'
  congr

theorem KnowledgeEntry.Rewrites.eq {entry entry' : KnowledgeEntry} (h : entry.Rewrites Eq entry') :
    entry = entry' := by
  cases h
  case intro hr => rw [← hr]

-- A load does not see in which order the file system enumerates the directories.
theorem load_eq_of_shuffles (self : KnowledgeBase) (directory : Bytes) {outcome outcome' : KnowledgeRoot}
    (h : outcome.Shuffles outcome') : self.load parse directory outcome = self.load parse directory outcome' := by
  have h := rewrites_load parse (fun _ _ => congrArg hasNonWhitespace) self directory h
  refine KnowledgeBase.ext h.root ?_ h.report
  rw [← forall₂_eq_eq_eq]
  exact h.entries.imp fun _ _ => KnowledgeEntry.Rewrites.eq

end

end Howlinux
