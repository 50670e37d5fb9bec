import Howlinux.Knowledge.Base

open Bytes List

namespace Howlinux

-- The text of a path determines the names on it.
section

variable {root name name' : Bytes} {names names' : List Bytes}

theorem foldl_slash {path : Bytes} (hp : path ≠ []) (hl : path.getLast? ≠ some (byte '/'))
    (h : ∀ name ∈ names, IsName name) :
    names.foldl slash path = path ++ names.flatMap (byte '/' :: ·) := by
  induction names generalizing path
  case nil => simp
  case cons name names hi =>
    simp only [mem_cons, forall_eq_or_imp] at h
    have he : slash path name = path ++ byte '/' :: name := by simp [slash, hp, hl]
    have hn : (path ++ byte '/' :: name).getLast? ≠ some (byte '/') := by
      intro hs
      rw [getLast?_append_of_ne_nil _ (by simp), getLast?_cons_of_ne_nil h.left.ne_nil] at hs
      exact h.left.no_slash <| mem_of_getLast? hs
    rw [foldl_cons, he, hi (by simp) hn h.right]
    simp

-- What the names of a path are appended to.
def base (root : Bytes) : Bytes :=
  if root.isEmpty || root.getLast? == some (byte '/') then root else root ++ [byte '/']

theorem foldl_slash_cons (h : ∀ n ∈ name :: names, IsName n) :
    (name :: names).foldl slash root = base root ++ (name ++ names.flatMap (byte '/' :: ·)) := by
  simp only [mem_cons, forall_eq_or_imp] at h
  have he : slash root name = base root ++ name := by
    unfold slash base
    split <;> simp
  have hn : base root ++ name ≠ [] := by simp [h.left.ne_nil]
  have hl : (base root ++ name).getLast? ≠ some (byte '/') := by
    intro hs
    rw [getLast?_append_of_ne_nil _ h.left.ne_nil] at hs
    exact h.left.no_slash <| mem_of_getLast? hs
  rw [foldl_cons, he, foldl_slash hn hl h.right, append_assoc]

theorem names_eq_of_flatMap_eq (h : ∀ n ∈ name :: names, IsName n) (h' : ∀ n ∈ name' :: names', IsName n)
    (he : name ++ names.flatMap (byte '/' :: ·) = name' ++ names'.flatMap (byte '/' :: ·)) :
    name :: names = name' :: names' := by
  have hn {name : Bytes} {names : List Bytes} (h : ∀ n ∈ name :: names, IsName n) :
      ∀ b ∈ name, (b != byte '/') = true := fun b hb => by
    simpa using ne_of_mem_of_not_mem hb (h name mem_cons_self).no_slash
  have hs (names : List Bytes) :
      ∀ b ∈ (names.flatMap (byte '/' :: ·)).head?, (b != byte '/') = false := by
    cases names <;> simp
  induction names generalizing name name' names'
  all_goals
    have ⟨hh, ht⟩ := append_inj_of_stop (hn h) (hs _) (hn h') (hs _) he
    subst hh
    cases names'
  case nil.nil => rfl
  case nil.cons => simp at ht
  case cons.nil => simp at ht
  case cons.cons hi _ _ =>
    simp only [flatMap_cons, cons_append, cons.injEq, true_and] at ht
    have h₁ := fun n hn => h n <| mem_cons_of_mem _ hn
    have h₂ := fun n hn => h' n <| mem_cons_of_mem _ hn
    rw [hi h₁ h₂ ht]

theorem names_eq_of_path_eq (h : ∀ n ∈ names, IsName n) (h' : ∀ n ∈ names', IsName n)
    (he : names.foldl slash root = names'.foldl slash root) : names = names' := by
  have hlt {name : Bytes} {names : List Bytes} (h : ∀ n ∈ name :: names, IsName n) :
      root ≠ (name :: names).foldl slash root := by
    intro he
    have hl := congrArg length he
    have hn := length_pos_iff.mpr (h name mem_cons_self).ne_nil
    have hb : root.length ≤ (base root).length := by
      unfold base
      split <;> simp
    rw [foldl_slash_cons h, length_append, length_append] at hl
    omega
  cases names <;> cases names'
  case nil.nil => rfl
  case nil.cons => exact absurd he (hlt h')
  case cons.nil => exact absurd he.symm (hlt h)
  case cons.cons =>
    rw [foldl_slash_cons h, foldl_slash_cons h'] at he
    exact names_eq_of_flatMap_eq h h' <| append_cancel_left he

end

namespace Located

variable {located located' : Located}

theorem names_of_mem_subdirectories (h : located' ∈ located.subdirectories) :
    ∃ name, located'.names = located.names ++ [name] ∧
      (name, located'.directory) ∈ located.directory.subdirectories := by
  have ⟨child, hc, he⟩ := mem_map.mp h
  exact ⟨child.1, he ▸ rfl, he ▸ hc⟩

theorem reaches_iff : located.Reaches located' ↔
    located' = located ∨ ∃ next ∈ located.subdirectories, next.Reaches located' := by
  have := Relation.ReflTransGen.cases_head_iff (r := fun upper lower => lower ∈ upper.subdirectories)
    (a := located) (b := located')
  rw [eq_comm]
  exact this

end Located

theorem Directory.name_mem_children {name : Bytes} {directory lower : Directory}
    (h : (name, lower) ∈ directory.subdirectories) : (name, .directory lower) ∈ directory.children := by
  unfold subdirectories at h
  split at h
  case isTrue => simp at h
  case isFalse =>
    have ⟨⟨name', child⟩, hc, he⟩ := mem_filterMap.mp h
    cases child <;> simp [subdirectory] at he
    exact he.left ▸ he.right ▸ hc

namespace KnowledgeTree

open Located

variable {tree : KnowledgeTree} {located located' : Located}

theorem wellFormed (h : tree.val.located.Reaches located) : located.directory.WellFormed := by
  induction h
  case refl => exact tree.property
  case tail hs hi =>
    have ⟨_, _, hm⟩ := names_of_mem_subdirectories hs
    exact hi.subdirectories _ hm

theorem isName_of_mem_names (h : tree.val.located.Reaches located) :
    ∀ name ∈ located.names, IsName name := by
  induction h
  case refl => simp [Directory.located]
  case tail hr hs hi =>
    have ⟨_, hn, hm⟩ := names_of_mem_subdirectories hs
    have := (wellFormed hr).isName _ <| Directory.name_mem_children hm
    simpa [hn, or_imp, forall_and, this] using hi

-- The names on the path to a directory tell it apart from the others.
theorem eq_of_names_eq (h : tree.val.located.Reaches located) (h' : tree.val.located.Reaches located')
    (he : located.names = located'.names) : located = located' := by
  induction h generalizing located'
  case refl =>
    cases Relation.ReflTransGen.cases_tail h'
    case inl h => exact h.symm
    case inr h =>
      have ⟨_, _, hs⟩ := h
      have ⟨_, hn, _⟩ := names_of_mem_subdirectories hs
      simp [← he, Directory.located] at hn
  case tail hr hs hi =>
    have ⟨_, hn, hm⟩ := names_of_mem_subdirectories hs
    cases Relation.ReflTransGen.cases_tail h'
    case inl h => simp [h, hn, Directory.located] at he
    case inr h =>
      have ⟨_, hr', hs'⟩ := h
      have ⟨_, hn', hm'⟩ := names_of_mem_subdirectories hs'
      rw [hn, hn'] at he
      have ⟨hnames, hname⟩ := append_inj' he rfl
      cases hi hr' hnames
      cases hname
      have hc := (wellFormed hr).nodup
      have he := inj_on_of_nodup_map hc (Directory.name_mem_children hm)
        (Directory.name_mem_children hm') rfl
      exact Located.ext (hn.trans hn'.symm) (by simpa using he)

theorem eq_of_path_eq {root : Bytes} (h : tree.val.located.Reaches located)
    (h' : tree.val.located.Reaches located') (he : located.path root = located'.path root) :
    located = located' :=
  eq_of_names_eq h h' <| names_eq_of_path_eq (isName_of_mem_names h) (isName_of_mem_names h') he

end KnowledgeTree

theorem mem_scan {root : Bytes} {queue : List Located} {located : Located} :
    located ∈ (scan root queue).2 ↔ ∃ origin ∈ queue, origin.Reaches located := by
  fun_induction scan root queue
  case case1 => simp
  case case2 current rest later directories hd hi =>
    have hp : ∀ next, next ∈ (scanDirectory false root current).2.getD [] ↔
        next ∈ current.subdirectories := fun _ => (perm_scanDirectory root current).mem_iff
    simp only [hd, mem_append, hp] at hi
    simp only [mem_cons, exists_eq_or_imp, current.reaches_iff, hi]
    grind

section

variable {parse : Bytes → YamlOutcome} {root : Bytes} {tree : KnowledgeTree}
  {directories located : List Located} {directory : Located} {entry : KnowledgeEntry}
  {firstSourceById : Finmap fun _ : Bytes => Bytes}

-- What one directory contributes, when it is deep enough and loads.
def loaded (parse : Bytes → YamlOutcome) (root : Bytes) (located : Located) : Option KnowledgeEntry :=
  match located.names with
  | category :: _ :: _ => (loadEntry parse located.directory.metadata located.directory.content
      (located.path root) category).2
  | _ => none

theorem isCandidate_of_loaded (h : loaded parse root directory = some entry) :
    isCandidate directory := by
  unfold loaded loadEntry at h
  split at h
  case h_2 => simp at h
  case h_1 =>
    by_cases hm : directory.directory.metadata = .missing
    case pos => simp [hm, validateRegularFile] at h
    case neg => simp [isCandidate, pathIsPresent, hm]

theorem mem_candidates
    (hi : ∀ x ∈ directories, ∀ y ∈ directories, x.path root = y.path root → x = y) :
    directory ∈ candidates root directories ↔ directory ∈ directories ∧ isCandidate directory := by
  unfold candidates
  rw [mem_unique, mem_sortBy, mem_filter]
  simp only [mem_sortBy, mem_filter]
  grind

theorem pairwise_candidates :
    (candidates root directories).Pairwise (·.path root < ·.path root) :=
  pairwise_unique <| pairwise_sortBy (comparesBy_lt _) _

theorem entries_selectEntries_cons (h : ∀ name ∈ directory.names, IsName name) :
    (selectEntries parse root firstSourceById (directory :: located)).entries =
      match loaded parse root directory with
      | none => (selectEntries parse root firstSourceById located).entries
      | some entry =>
        if entry.id ∈ firstSourceById then
          (selectEntries parse root firstSourceById located).entries
        else
          entry :: (selectEntries parse root
            (firstSourceById.insert entry.id entry.sourceDirectory) located).entries := by
  have hr : relativeComponents directory = directory.names :=
    filter_eq_self.mpr fun name hn => by simp [(h name hn).ne_dot, (h name hn).ne_nil]
  rw [selectEntries, loaded, hr]
  rcases directory.names with _ | ⟨category, _ | _⟩
  case nil | cons.nil => simp [Selection.skip]
  case cons.cons =>
    rcases he : loadEntry parse directory.directory.metadata directory.directory.content
      (directory.path root) category with ⟨diagnostics, _ | entry⟩
    case none => simp [he, Selection.skip]
    case some entry =>
      cases hl : firstSourceById.lookup entry.id
      case none =>
        have := Finmap.lookup_eq_none.mp hl
        simp [he, this, hl, Selection.add]
      case some =>
        have := Finmap.mem_of_lookup_eq_some hl
        simp [he, this, hl, Selection.skip]

-- An entry is selected when no earlier directory has its id.
theorem mem_entries_selectEntries (hn : ∀ directory ∈ located, ∀ name ∈ directory.names, IsName name)
    (hp : located.Pairwise (·.path root < ·.path root)) :
    entry ∈ (selectEntries parse root firstSourceById located).entries ↔
      entry.id ∉ firstSourceById ∧ ∃ directory ∈ located, loaded parse root directory = some entry ∧
        ∀ other ∈ located, other.path root < directory.path root →
          ∀ entry', loaded parse root other = some entry' → entry'.id ≠ entry.id := by
  induction located generalizing firstSourceById
  case nil => simp [selectEntries]
  case cons directory located hi =>
    simp only [mem_cons, forall_eq_or_imp] at hn
    have ⟨hd, hp⟩ := pairwise_cons.mp hp
    rw [entries_selectEntries_cons hn.left]
    have hlt : ¬directory.path root < directory.path root := lt_irrefl _
    have hle : ∀ other ∈ located, ¬other.path root < directory.path root :=
      fun other ho => (hd other ho).not_gt
    simp only [mem_cons, forall_eq_or_imp, exists_eq_or_imp, hlt, false_implies, true_and]
    cases hl : loaded parse root directory
    case none =>
      simp only [hi hn.right hp, reduceCtorEq, false_and, false_or]
      grind
    case some first =>
      simp only [Option.some.injEq]
      by_cases hf : first.id ∈ firstSourceById
      case pos =>
        simp only [hf, if_true, hi hn.right hp]
        grind
      case neg =>
        simp only [hf, if_false, mem_cons, hi hn.right hp, Finmap.mem_insert]
        grind

end

namespace KnowledgeRoot

-- The directories the loader gets to see. A root that cannot be read holds none.
def Holds (outcome : KnowledgeRoot) (located : Located) : Prop :=
  match outcome with
  | .tree directory => directory.val.openError = none ∧ directory.val.readError = none ∧
      directory.val.located.Reaches located
  | _ => False

variable (parse : Bytes → YamlOutcome) (root : Bytes) (outcome : KnowledgeRoot)

-- The directory at `names` is deep enough and loads `entry`.
def Loads (names : List Bytes) (entry : KnowledgeEntry) : Prop :=
  ∃ located, outcome.Holds located ∧ located.names = names ∧ loaded parse root located = some entry

-- No directory with a smaller path loads an entry of the same id.
def Selects (entry : KnowledgeEntry) : Prop :=
  ∃ names, outcome.Loads parse root names entry ∧
    ∀ names' entry', outcome.Loads parse root names' entry' → entry'.id = entry.id →
      names.foldl slash root ≤ names'.foldl slash root

end KnowledgeRoot

section

variable {parse : Bytes → YamlOutcome} {root : Bytes} {tree : KnowledgeTree} {entry : KnowledgeEntry}

theorem scanDirectory_root (root : Bytes) (tree : KnowledgeTree) :
    (tree.val.openError = none ∧ tree.val.readError = none ∧ ∃ diagnostics found,
      scanDirectory true root tree.val.located = (diagnostics, some found) ∧
      ∀ located, located ∈ found ↔ located ∈ tree.val.located.subdirectories) ∨
    ((tree.val.openError ≠ none ∨ tree.val.readError ≠ none) ∧
      ∃ diagnostics, scanDirectory true root tree.val.located = (diagnostics, none)) := by
  unfold scanDirectory listDirectory
  cases ho : tree.val.openError
  case some => simp [Directory.located, ho]
  case none =>
    cases hr : tree.val.readError
    case some => simp [Directory.located, ho, hr]
    case none =>
      simp [Directory.located, ho, hr, Located.subdirectories, Directory.subdirectories]

theorem mem_entries_loadTree :
    entry ∈ (KnowledgeBase.loadTree parse root tree).entries ↔
      (KnowledgeRoot.tree tree).Selects parse root entry := by
  obtain ⟨ho, hr, diagnostics, found, hs, hf⟩ | ⟨hr, diagnostics, hs⟩ :=
    scanDirectory_root root tree
  case inr =>
    have he : (KnowledgeBase.loadTree parse root tree).entries = [] := by
      simp [KnowledgeBase.loadTree, hs, KnowledgeBase.unavailable]
    have hn : ¬(KnowledgeRoot.tree tree).Selects parse root entry := by
      intro ⟨_, ⟨_, hh, _⟩, _⟩
      exact hr.elim (· hh.left) (· hh.right.left)
    simp [he, hn]
  case inl =>
    let directories := tree.val.located :: (scan root found).2
    have hm (located : Located) :
        located ∈ directories ↔ (KnowledgeRoot.tree tree).Holds located := by
      simp only [directories, mem_cons, mem_scan, hf, ← Located.reaches_iff, KnowledgeRoot.Holds, ho, hr,
        true_and]
    have hd : ∀ x ∈ directories, ∀ y ∈ directories, x.path root = y.path root → x = y :=
      fun x hx y hy => KnowledgeTree.eq_of_path_eq ((hm x).mp hx).right.right ((hm y).mp hy).right.right
    have hn : ∀ directory ∈ candidates root directories, ∀ name ∈ directory.names, IsName name :=
      fun directory hc =>
        KnowledgeTree.isName_of_mem_names ((hm _).mp ((mem_candidates hd).mp hc).left).right.right
    have he : (KnowledgeBase.loadTree parse root tree).entries =
        sortEntries (selectEntries parse root ∅ <| candidates root directories).entries := by
      simp [KnowledgeBase.loadTree, hs, directories]
    rw [he, sortEntries, mem_sortBy, mem_entries_selectEntries hn pairwise_candidates]
    simp only [mem_candidates hd, hm, Finmap.notMem_empty, not_false_eq_true, true_and]
    constructor
    case mp =>
      intro ⟨directory, ⟨hh, _⟩, hl, hs⟩
      refine ⟨directory.names, ⟨directory, hh, rfl, hl⟩, fun names' entry' ⟨other, ho, hn, hl'⟩ hid => ?_⟩
      subst hn
      exact le_of_not_gt fun hlt => hs other ⟨ho, isCandidate_of_loaded hl'⟩ hlt entry' hl' hid
    case mpr =>
      intro ⟨names, ⟨directory, hh, hn, hl⟩, hs⟩
      subst hn
      refine ⟨directory, ⟨hh, isCandidate_of_loaded hl⟩, hl, fun other ⟨ho, _⟩ hlt entry' hl' hid => ?_⟩
      exact absurd hlt (hs other.names entry' ⟨other, ho, rfl, hl'⟩ hid).not_gt

variable {outcome : KnowledgeRoot} {directory : Bytes} {self : KnowledgeBase}

theorem mem_entries_load :
    entry ∈ (self.load parse directory outcome).entries ↔
      outcome.Selects parse (lexicallyNormal directory) entry := by
  cases outcome
  case tree => exact mem_entries_loadTree
  all_goals
    simp [KnowledgeBase.load, KnowledgeBase.unavailable, KnowledgeRoot.Selects, KnowledgeRoot.Loads,
      KnowledgeRoot.Holds]

-- The loaded entries are the first by path of every id, in the order of the ids, and depend on nothing
-- but the directories that load.
theorem load_selects (parse : Bytes → YamlOutcome) (directory : Bytes) (outcome : KnowledgeRoot)
    (self : KnowledgeBase) :
    let root    := lexicallyNormal directory
    let entries := (self.load parse directory outcome).entries
    entries.Pairwise (·.id < ·.id) ∧
    (∀ entry, entry ∈ entries ↔ outcome.Selects parse root entry) ∧
    ∀ outcome' self',
      (∀ names entry, outcome.Loads parse root names entry ↔ outcome'.Loads parse root names entry) →
      entries = (KnowledgeBase.load parse directory outcome' self').entries := by
  refine ⟨(self.load parse directory outcome).sorted, fun _ => mem_entries_load, fun outcome' self' h => ?_⟩
  have : Std.Irrefl fun left right : KnowledgeEntry => left.id < right.id := ⟨fun _ => lt_irrefl _⟩
  have : Std.Antisymm fun left right : KnowledgeEntry => left.id < right.id :=
    ⟨fun _ _ h h' => absurd h h'.not_gt⟩
  refine (self.load parse directory outcome).sorted.eq_of_mem_iff (KnowledgeBase.sorted _) fun entry => ?_
  simp only [mem_entries_load, KnowledgeRoot.Selects, h]

end

end Howlinux
