import Howlinux.Knowledge.Theorems.Metadata
import Howlinux.Knowledge.Theorems.Related

open Bytes List

namespace Howlinux

section

variable {items : List (Yaml × Yaml)} {name path entryId : Bytes}

-- What is read without a complaint leaves no diagnostic.
def FieldRead.Clean {α : Type*} (read : FieldRead α) : Prop :=
  read.valid → read.diagnostics = []

theorem clean_readRequiredString : (readRequiredString items name path entryId).Clean := by
  unfold readRequiredString FieldRead.Clean
  split <;> try simp
  split <;> simp

theorem clean_readOptionalString : (readOptionalString items name path entryId).Clean := by
  unfold readOptionalString FieldRead.Clean
  split <;> simp

theorem clean_readItems {index : ℕ} {given : List Yaml} : (readItems name path entryId index given).Clean := by
  fun_induction readItems name path entryId index given
  case case1          => exact fun _ => rfl
  case case2 hi       => exact hi
  case case3          => exact fun h => absurd h Bool.false_ne_true

theorem clean_readOptionalStringList : (readOptionalStringList items name path entryId).Clean := by
  unfold readOptionalStringList
  split
  case h_1 => exact fun _ => rfl
  case h_2 => exact clean_readItems
  case h_3 => exact fun h => absurd h Bool.false_ne_true

-- The fields that nothing is known of are all that remains.
theorem output_readKeys {seenFields : Finset Bytes} (h : (readKeys path entryId seenFields items).valid) :
    (readKeys path entryId seenFields items).output = [] ↔
      ∀ item ∈ items, ∃ field ∈ knownFields, item.1 = .scalar field := by
  fun_induction readKeys path entryId seenFields items
  case case1 => simp
  case case2 => contradiction
  case case3 field _ _ _ _ hk hi =>
    rw [forall_mem_cons, hi h]
    exact (and_iff_right ⟨field, of_decide_eq_true hk, rfl⟩).symm
  case case4 field _ _ _ _ hk _ =>
    refine iff_of_false (cons_ne_nil _ _) fun h => hk ?_
    obtain ⟨known, hm, he⟩ := h _ mem_cons_self
    exact decide_eq_true (Yaml.scalar.inj he ▸ hm)
  case case5 => contradiction

-- An entry that was read leaves the unknown fields as its only complaints.
theorem readMetadata_eq_nil_iff {unknownFields : List Bytes} {entryDirectory category provisionalId : Bytes}
    {entry : KnowledgeEntry}
    (h : (readMetadata items unknownFields entryDirectory category path provisionalId).2 = some entry) :
    (readMetadata items unknownFields entryDirectory category path provisionalId).1 = [] ↔ unknownFields = [] := by
  have hu (f : Bytes → Diagnostic) : (unknownFields.sortBy fun left right => decide (left < right)).map f = [] ↔
      unknownFields = [] := by
    rw [map_eq_nil_iff, ← length_eq_zero_iff, length_sortBy, length_eq_zero_iff]
  unfold readMetadata at h ⊢
  dsimp only at h ⊢
  generalize (if hasNonWhitespace (readRequiredString items (ascii "id") path provisionalId).output then
    (readRequiredString items (ascii "id") path provisionalId).output else provisionalId) = diagnosticId at h ⊢
  split at h
  case isFalse   => contradiction
  case isTrue hv =>
    rw [if_pos hv]
    simp only [Bool.and_eq_true, and_assoc] at hv
    obtain ⟨h₁, h₂, h₃, h₄, h₅, h₆, h₇, h₈, h₉, h₁₀, h₁₁, h₁₂⟩ := hv
    simp only [clean_readRequiredString h₁, clean_readRequiredString h₂, clean_readRequiredString h₃,
      clean_readOptionalString h₄, clean_readOptionalString h₅, clean_readOptionalStringList h₆,
      clean_readOptionalStringList h₇, clean_readOptionalStringList h₈, clean_readOptionalStringList h₉,
      clean_readOptionalStringList h₁₀, clean_readOptionalStringList h₁₁, clean_readOptionalStringList h₁₂,
      nil_append]
    exact hu _

theorem idDiagnostics_eq_nil_iff {id provisionalId : Bytes} :
    idDiagnostics id path provisionalId = [] ↔ isPortableEntryId id ∧ id = provisionalId := by
  unfold idDiagnostics
  split <;> split <;> simp_all

variable {parse : Bytes → YamlOutcome} {text content entryDirectory category : Bytes} {entry : KnowledgeEntry}

theorem loadMetadata_eq_nil_iff (hp : parse text = .node (.map items))
    (h : (loadMetadata parse (.text text) entryDirectory category).2 = some entry) :
    (loadMetadata parse (.text text) entryDirectory category).1 = [] ↔
      ∀ item ∈ items, ∃ field ∈ knownFields, item.1 = .scalar field := by
  unfold loadMetadata readFileByteExact at h ⊢
  simp only [hp] at h ⊢
  split at h
  case isFalse   => contradiction
  case isTrue hv => rw [if_pos hv, readMetadata_eq_nil_iff h, output_readKeys hv]

theorem loadEntry_eq_nil_iff (hp : parse text = .node (.map items))
    (h : (loadEntry parse (.text text) (.text content) entryDirectory category).2 = some entry) :
    (loadEntry parse (.text text) (.text content) entryDirectory category).1 = [] ↔
      (∀ item ∈ items, ∃ field ∈ knownFields, item.1 = .scalar field) ∧ isPortableEntryId entry.id ∧
        entry.id = candidateId entryDirectory := by
  unfold loadEntry at h ⊢
  simp only [validateRegularFile, Bool.not_true, Bool.or_self, Bool.false_eq_true, if_false] at h ⊢
  rcases hm : loadMetadata parse (.text text) entryDirectory category with ⟨diagnostics, _ | read⟩ <;> rw [hm] at h
  case none => contradiction
  case some =>
    have hd := loadMetadata_eq_nil_iff hp (congrArg Prod.snd hm)
    rw [hm] at hd
    obtain ⟨_, hc, hb, rfl⟩ := readContent_eq_some_iff.mp h
    cases hc
    have hr : (readContent (.text content) (slash entryDirectory contentFilename) read).1 = [] := by
      simp [readContent, readFileByteExact, hb]
    dsimp only at hd ⊢
    rw [hr, append_nil, append_eq_nil_iff, hd, idDiagnostics_eq_nil_iff]

theorem candidateId_slash {name : Bytes} (h : IsName name) : candidateId (slash path name) = name := by
  have hn : ∀ b ∈ name.reverse, (b != byte '/') = true := fun b hb => by
    have := mem_reverse.mp hb
    exact bne_iff_ne.mpr fun he => h.no_slash (he ▸ this)
  have ha {upper : Bytes} (hu : upper.reverse.takeWhile (· != byte '/') = []) :
      candidateId (upper ++ name) = name := by
    rw [candidateId, rtakeWhile, reverse_append, takeWhile_append_of_pos hn, hu, append_nil, reverse_reverse]
  unfold slash
  split
  case isFalse =>
    rw [append_cons]
    exact ha (by simp)
  case isTrue hp =>
    refine ha ?_
    rcases eq_nil_or_concat path with rfl | ⟨upper, last, rfl⟩
    case inl => rfl
    case inr =>
      obtain rfl : last = byte '/' := by simpa using hp
      simp

end

section

variable {parse : Bytes → YamlOutcome} {root : Bytes} {queue located : List Located}
  {firstSourceById : Finmap fun _ : Bytes => Bytes}

theorem fst_scan : (scan root queue).1 =
    (scan root queue).2.flatMap fun found => (scanDirectory false root found).1 := by
  fun_induction scan root queue
  case case1 => rfl
  case case2 hd hi =>
    rw [hd] at hi
    rw [flatMap_cons, ← hi]

-- What the load of one directory complains about, when it is deep enough.
def loadDiagnostics (parse : Bytes → YamlOutcome) (root : Bytes) (located : Located) : List Diagnostic :=
  match located.names with
  | category :: _ :: _ => (loadEntry parse located.directory.metadata located.directory.content
      (located.path root) category).1
  | _ => []

-- Directories that load different entries are all selected, and nothing is added to the complaints about them.
theorem selectEntries_of_loaded (hn : ∀ directory ∈ located, ∀ name ∈ directory.names, IsName name)
    (hl : ∀ directory ∈ located, (loaded parse root directory).isSome)
    (hd : located.Pairwise fun directory directory' => ∀ entry ∈ loaded parse root directory,
      ∀ entry' ∈ loaded parse root directory', entry.id ≠ entry'.id)
    (hf : ∀ directory ∈ located, ∀ entry ∈ loaded parse root directory, entry.id ∉ firstSourceById) :
    (selectEntries parse root firstSourceById located).skippedEntries = 0 ∧
    (selectEntries parse root firstSourceById located).diagnostics =
      located.flatMap (loadDiagnostics parse root) := by
  induction located generalizing firstSourceById
  case nil => simp [selectEntries]
  case cons directory located hi =>
    obtain ⟨hn, hns⟩ := forall_mem_cons.mp hn
    obtain ⟨hl, hls⟩ := forall_mem_cons.mp hl
    obtain ⟨hd, hds⟩ := pairwise_cons.mp hd
    obtain ⟨hf, hfs⟩ := forall_mem_cons.mp hf
    have hr : relativeComponents directory = directory.names :=
      filter_eq_self.mpr fun name hm => by simp [(hn name hm).ne_dot, (hn name hm).ne_nil]
    obtain ⟨entry, he⟩ := Option.isSome_iff_exists.mp hl
    have hfirst : firstSourceById.lookup entry.id = none := Finmap.lookup_eq_none.mpr (hf entry he)
    have hfresh : ∀ other ∈ located, ∀ entry' ∈ loaded parse root other,
        entry'.id ∉ firstSourceById.insert entry.id entry.sourceDirectory := fun other ho entry' he' => by
      rw [Finmap.mem_insert, not_or]
      exact ⟨(hd other ho entry he entry' he').symm, hfs other ho entry' he'⟩
    rw [selectEntries, hr, flatMap_cons, loadDiagnostics]
    unfold loaded at he
    generalize directory.names = names at he ⊢
    rcases names with _ | ⟨category, _ | _⟩
    case nil | cons.nil => contradiction
    case cons.cons =>
      rcases hm : loadEntry parse directory.directory.metadata directory.directory.content (directory.path root)
        category with ⟨diagnostics, read⟩
      obtain rfl : read = some entry := (congrArg Prod.snd hm).symm.trans he
      simp only [hm, hfirst, Selection.add, hi hns hls hds hfresh, and_self]

end

-- Entries as their authors keep them, one category after the other.
structure Catalog where
  categories : List (Bytes × List KnowledgeEntry)
  isName     : ∀ category ∈ categories, IsName category.1 ∧ ∀ entry ∈ category.2, IsName entry.id
  distinct   : (categories.map (·.1)).Nodup
  unique     : ((categories.flatMap (·.2)).map (·.id)).Nodup
  nonblank   : ∀ category ∈ categories, ∀ entry ∈ category.2, hasNonWhitespace entry.content

-- The entry at the place where a catalog stores it.
def KnowledgeEntry.storedIn (root category : Bytes) (entry : KnowledgeEntry) : KnowledgeEntry :=
  { entry with category, sourceDirectory := slash (slash root category) entry.id }

namespace Catalog

variable (write : KnowledgeEntry → Bytes)

def entryDirectory (entry : KnowledgeEntry) : Directory :=
  .mk (.text <| write entry) (.text entry.content) none [] none

def categoryDirectory (entries : List KnowledgeEntry) : Directory :=
  .mk .missing .missing none (entries.map fun entry => (entry.id, .directory <| entryDirectory write entry)) none

variable (catalog : Catalog)

-- The directories that the entries are written to.
def layout : Directory :=
  .mk .missing .missing none
    (catalog.categories.map fun (name, entries) => (name, .directory <| categoryDirectory write entries)) none

def entries (root : Bytes) : List KnowledgeEntry :=
  catalog.categories.flatMap fun (name, entries) => entries.map (·.storedIn root name)

def categoryLocated (category : Bytes × List KnowledgeEntry) : Located where
  names     := [category.1]
  directory := categoryDirectory write category.2

def entryLocated (category : Bytes × List KnowledgeEntry) (entry : KnowledgeEntry) : Located where
  names     := [category.1, entry.id]
  directory := entryDirectory write entry

variable {write catalog}

theorem subdirectories_layout : (catalog.layout write).subdirectories =
    catalog.categories.map fun (name, entries) => (name, categoryDirectory write entries) := by
  simp [layout, Directory.subdirectories, Directory.openError, Directory.children, filterMap_map, Function.comp_def,
    Directory.subdirectory]

theorem subdirectories_categoryDirectory {entries : List KnowledgeEntry} :
    (categoryDirectory write entries).subdirectories =
      entries.map fun entry => (entry.id, entryDirectory write entry) := by
  simp [categoryDirectory, Directory.subdirectories, Directory.openError, Directory.children, filterMap_map,
    Function.comp_def, Directory.subdirectory]

theorem subdirectories_entryDirectory {entry : KnowledgeEntry} : (entryDirectory write entry).subdirectories = [] :=
  rfl

theorem wellFormed_entryDirectory {entry : KnowledgeEntry} : (entryDirectory write entry).WellFormed :=
  .intro (by simp [entryDirectory, Directory.children]) (by simp [entryDirectory, Directory.children])
    (by simp [subdirectories_entryDirectory])

theorem wellFormed_categoryDirectory {category : Bytes × List KnowledgeEntry} (h : category ∈ catalog.categories) :
    (categoryDirectory write category.2).WellFormed := by
  have hn : (category.2.map (·.id)).Nodup :=
    catalog.unique.sublist <| (sublist_flatten_of_mem (mem_map_of_mem h)).map _
  refine .intro ?_ ?_ ?_
  · exact forall_mem_map.mpr (catalog.isName category h).right
  · simpa [categoryDirectory, Directory.children, Function.comp_def] using hn
  · simp [subdirectories_categoryDirectory, wellFormed_entryDirectory]

variable (catalog write) in
theorem wellFormed_layout : (catalog.layout write).WellFormed := by
  refine .intro ?_ ?_ ?_
  · exact forall_mem_map.mpr fun category h => (catalog.isName category h).left
  · simpa [layout, Directory.children, Function.comp_def] using catalog.distinct
  · rw [subdirectories_layout]
    exact forall_mem_map.mpr fun category h => wellFormed_categoryDirectory h

variable (catalog write) in
def tree : KnowledgeTree :=
  ⟨catalog.layout write, catalog.wellFormed_layout write⟩

theorem reaches_layout {located : Located} : (catalog.tree write).val.located.Reaches located ↔
    located = (catalog.layout write).located ∨ ∃ category ∈ catalog.categories,
      located = categoryLocated write category ∨
        ∃ entry ∈ category.2, located = entryLocated write category entry := by
  have hl : (catalog.layout write).located.subdirectories = catalog.categories.map (categoryLocated write) := by
    simp [Located.subdirectories, Directory.located, subdirectories_layout, Located.child, categoryLocated,
      Function.comp_def]
  have hc (category : Bytes × List KnowledgeEntry) :
      (categoryLocated write category).subdirectories = category.2.map (entryLocated write category) := by
    simp [Located.subdirectories, categoryLocated, subdirectories_categoryDirectory, Located.child, entryLocated,
      Function.comp_def]
  have he (category : Bytes × List KnowledgeEntry) (entry : KnowledgeEntry) :
      (entryLocated write category entry).Reaches located ↔ located = entryLocated write category entry := by
    rw [Located.reaches_iff, show (entryLocated write category entry).subdirectories = [] from rfl]
    simp
  have hr (category : Bytes × List KnowledgeEntry) : (categoryLocated write category).Reaches located ↔
      located = categoryLocated write category ∨
        ∃ entry ∈ category.2, located = entryLocated write category entry := by
    rw [Located.reaches_iff, hc]
    simp only [mem_map, exists_exists_and_eq_and, he]
  rw [Located.reaches_iff, show (catalog.tree write).val = catalog.layout write from rfl, hl]
  simp only [mem_map, exists_exists_and_eq_and, hr]

variable {category category' : Bytes × List KnowledgeEntry} {entry entry' : KnowledgeEntry}

-- An id tells the entry and its category.
theorem eq_of_id_eq (hc : category ∈ catalog.categories) (he : entry ∈ category.2)
    (hc' : category' ∈ catalog.categories) (he' : entry' ∈ category'.2) (hi : entry.id = entry'.id) :
    category = category' ∧ entry = entry' := by
  have hu := catalog.unique
  rw [map_flatMap, nodup_flatMap] at hu
  obtain ⟨hn, hd⟩ := hu
  obtain rfl : category = category' := by
    by_contra hne
    have : Std.Symm (Function.onFun List.Disjoint fun category : Bytes × List KnowledgeEntry =>
      category.2.map (·.id)) := ⟨fun _ _ h => h.symm⟩
    exact hd.forall hc hc' hne (mem_map_of_mem he) (hi ▸ mem_map_of_mem he')
  exact ⟨rfl, inj_on_of_nodup_map (hn category hc) he he' hi⟩

theorem nodup_entries (root : Bytes) : ((catalog.entries root).map (·.id)).Nodup := by
  have hm : (catalog.entries root).map (·.id) = (catalog.categories.flatMap (·.2)).map (·.id) := by
    simp [entries, map_flatMap, KnowledgeEntry.storedIn, Function.comp_def]
  exact hm ▸ catalog.unique

-- The parser reads the texts of a catalog as what they were written for.
def Reads (parse : Bytes → YamlOutcome) (write : KnowledgeEntry → Bytes) (catalog : Catalog) : Prop :=
  ∀ category ∈ catalog.categories, ∀ entry ∈ category.2, ∃ items,
    parse (write entry) = .node (.map items) ∧ DescribesEntry items entry

variable {parse : Bytes → YamlOutcome} {root : Bytes} {names : List Bytes}

theorem Reads.loaded (h : catalog.Reads parse write) (hc : category ∈ catalog.categories) (he : entry ∈ category.2) :
    loaded parse root (entryLocated write category entry) = some (entry.storedIn root category.1) := by
  obtain ⟨items, hp, hd⟩ := h category hc entry he
  refine loadEntry_eq_some_iff.mpr ⟨⟨⟨_, items, rfl, hp, hd.placed _ _ _⟩, rfl, ?_⟩, rfl, rfl⟩
  exact catalog.nonblank category hc entry he

theorem Reads.loads_iff (h : catalog.Reads parse write) {loaded : KnowledgeEntry} :
    (KnowledgeRoot.tree <| catalog.tree write).Loads parse root names loaded ↔
      ∃ category ∈ catalog.categories, ∃ entry ∈ category.2, names = [category.1, entry.id] ∧
        loaded = entry.storedIn root category.1 := by
  constructor
  case mp =>
    rintro ⟨located, ⟨_, _, hr⟩, rfl, hl⟩
    obtain rfl | ⟨category, hc, rfl | ⟨entry, he, rfl⟩⟩ := reaches_layout.mp hr
    case inl         => contradiction
    case inr.inl     => contradiction
    case inr.inr =>
      rw [h.loaded hc he] at hl
      exact ⟨category, hc, entry, he, rfl, (Option.some.inj hl).symm⟩
  case mpr =>
    rintro ⟨category, hc, entry, he, rfl, rfl⟩
    have hr : (catalog.tree write).val.located.Reaches (entryLocated write category entry) :=
      reaches_layout.mpr <| .inr ⟨category, hc, .inr ⟨entry, he, rfl⟩⟩
    exact ⟨_, ⟨rfl, ite_self _, hr⟩, rfl, h.loaded hc he⟩

theorem Reads.entries_load (h : catalog.Reads parse write) (directory : Bytes) (self : KnowledgeBase) :
    (self.load parse directory <| .tree <| catalog.tree write).entries =
      sortEntries (catalog.entries <| lexicallyNormal directory) := by
  refine (KnowledgeBase.sorted _).eq_of_mem_iff (pairwise_sortEntries <| nodup_entries _) fun loaded => ?_
  rw [mem_entries_load, sortEntries, mem_sortBy]
  simp only [KnowledgeRoot.Selects, h.loads_iff, entries, mem_flatMap, mem_map]
  constructor
  case mp =>
    rintro ⟨_, ⟨category, hc, entry, he, _, rfl⟩, _⟩
    exact ⟨category, hc, entry, he, rfl⟩
  case mpr =>
    rintro ⟨category, hc, entry, he, rfl⟩
    refine ⟨_, ⟨category, hc, entry, he, rfl, rfl⟩, ?_⟩
    rintro _ _ ⟨category', hc', entry', he', rfl, rfl⟩ hi
    obtain ⟨rfl, rfl⟩ := eq_of_id_eq hc' he' hc he hi
    exact le_rfl

-- There is nothing to say about a directory of directories.
theorem scanDirectory_layout {located : Located} (isRoot : Bool)
    (h : (catalog.tree write).val.located.Reaches located) :
    (scanDirectory isRoot root located).1 = [] := by
  have hq {metadata content : FileOutcome} {children : List (Bytes × Child Directory)}
      (hu : located.directory = .mk metadata content none children none)
      (hc : ∀ child ∈ children, ∃ lower, child.2 = .directory lower) :
      (scanDirectory isRoot root located).1 = [] := by
    have ho : located.directory.openError = none := by rw [hu]; rfl
    have hr : located.directory.readError = none := by rw [hu]; exact ite_self _
    have hs : (located.directory.children.sortBy (pathSortsBefore (located.path root))).flatMap
        (inspectChild (located.path root)) = [] := by
      rw [flatMap_eq_nil_iff, hu]
      intro child hm
      obtain ⟨lower, hl⟩ := hc child (mem_sortBy.mp hm)
      rw [inspectChild, hl]
    unfold scanDirectory listDirectory
    simp only [ho, hr, hs, append_nil]
  obtain rfl | ⟨category, hc, rfl | ⟨entry, he, rfl⟩⟩ := reaches_layout.mp h
  · exact hq rfl <| forall_mem_map.mpr fun _ _ => ⟨_, rfl⟩
  · exact hq rfl <| forall_mem_map.mpr fun _ _ => ⟨_, rfl⟩
  · exact hq rfl <| by simp

-- The directories that are considered are those of the entries.
theorem mem_candidates_layout {directories : List Located}
    (hd : ∀ located, located ∈ directories ↔ (catalog.tree write).val.located.Reaches located) {located : Located} :
    located ∈ candidates root directories ↔
      ∃ category ∈ catalog.categories, ∃ entry ∈ category.2, located = entryLocated write category entry := by
  have hi : ∀ x ∈ directories, ∀ y ∈ directories, x.path root = y.path root → x = y :=
    fun x hx y hy => KnowledgeTree.eq_of_path_eq ((hd x).mp hx) ((hd y).mp hy)
  rw [mem_candidates hi, hd, reaches_layout]
  constructor
  case mp =>
    rintro ⟨rfl | ⟨category, hc, rfl | ⟨entry, he, rfl⟩⟩, h⟩
    case inl         => contradiction
    case inr.inl     => contradiction
    case inr.inr     => exact ⟨category, hc, entry, he, rfl⟩
  case mpr =>
    rintro ⟨category, hc, entry, he, rfl⟩
    exact ⟨.inr ⟨category, hc, .inr ⟨entry, he, rfl⟩⟩, rfl⟩

-- What keeps a catalog from being loaded without a complaint.
structure Tidy (parse : Bytes → YamlOutcome) (write : KnowledgeEntry → Bytes) (catalog : Catalog) : Prop where
  known    : ∀ category ∈ catalog.categories, ∀ entry ∈ category.2, ∀ items,
    parse (write entry) = .node (.map items) → ∀ item ∈ items, ∃ field ∈ knownFields, item.1 = .scalar field
  portable : ∀ category ∈ catalog.categories, ∀ entry ∈ category.2, isPortableEntryId entry.id
  related  : ∀ category ∈ catalog.categories, ∀ entry ∈ category.2, ∀ id ∈ entry.related,
    ∃ category ∈ catalog.categories, ∃ other ∈ category.2, other.id = id

theorem Reads.loadDiagnostics_eq_nil_iff (h : catalog.Reads parse write) (hc : category ∈ catalog.categories)
    (he : entry ∈ category.2) : loadDiagnostics parse root (entryLocated write category entry) = [] ↔
      (∀ items, parse (write entry) = .node (.map items) → ∀ item ∈ items, ∃ field ∈ knownFields,
        item.1 = .scalar field) ∧ isPortableEntryId entry.id := by
  obtain ⟨items, hp, _⟩ := h category hc entry he
  have hl : Howlinux.loaded parse root (entryLocated write category entry) = _ := h.loaded hc he
  have hi : entry.id = candidateId (slash (slash root category.1) entry.id) :=
    (candidateId_slash ((catalog.isName category hc).right entry he)).symm
  refine (loadEntry_eq_nil_iff hp hl).trans ?_
  constructor
  case mp =>
    rintro ⟨hk, hport, _⟩
    refine ⟨fun items' hp' => ?_, hport⟩
    obtain rfl : items = items' := by simpa [hp] using hp'
    exact hk
  case mpr => exact fun ⟨hk, hport⟩ => ⟨hk items hp, hport, hi⟩

theorem Reads.report_load (h : catalog.Reads parse write) (directory : Bytes) (self : KnowledgeBase) :
    let knowledge := self.load parse directory <| .tree <| catalog.tree write
    knowledge.report.rootAvailable ∧ knowledge.report.skippedEntries = 0 ∧ (knowledge.report.diagnostics = [] ↔
      (∀ category ∈ catalog.categories, ∀ entry ∈ category.2,
        loadDiagnostics parse (lexicallyNormal directory) (entryLocated write category entry) = []) ∧
      ∀ entry ∈ knowledge.entries, relatedDiagnostics knowledge.idLookup entry = []) := by
  let tree := catalog.tree write
  let root := lexicallyNormal directory
  obtain ⟨_, _, diagnostics, found, hs, hf⟩ | ⟨hr, _⟩ := scanDirectory_root root tree
  case inr => exact hr.elim (absurd rfl) (absurd <| ite_self _)
  case inl =>
    have hroot : diagnostics = [] := by
      have hq : (scanDirectory true root tree.val.located).1 = [] := scanDirectory_layout true .refl
      rwa [hs] at hq
    let directories := tree.val.located :: (scan root found).2
    have hm (located : Located) : located ∈ directories ↔ tree.val.located.Reaches located := by
      simp only [directories, mem_cons, mem_scan, hf, ← Located.reaches_iff]
    have hlater : (scan root found).1 = [] := by
      rw [fst_scan, flatMap_eq_nil_iff]
      exact fun located hl => scanDirectory_layout false <| (hm located).mp (mem_cons_of_mem _ hl)
    have hc (located : Located) : located ∈ candidates root directories ↔ ∃ category ∈ catalog.categories,
        ∃ entry ∈ category.2, located = entryLocated write category entry := mem_candidates_layout hm
    obtain ⟨hskipped, hselect⟩ : (selectEntries parse root ∅ (candidates root directories)).skippedEntries = 0 ∧
        (selectEntries parse root ∅ (candidates root directories)).diagnostics =
          (candidates root directories).flatMap (loadDiagnostics parse root) := by
      refine selectEntries_of_loaded ?isName ?loaded ?distinct fun _ _ _ _ => Finmap.notMem_empty
      case isName =>
        intro located hl name hn
        obtain ⟨category, hc, entry, he, rfl⟩ := (hc located).mp hl
        obtain rfl | rfl : name = category.1 ∨ name = entry.id := by simpa [entryLocated] using hn
        · exact (catalog.isName category hc).left
        · exact (catalog.isName category hc).right entry he
      case loaded =>
        intro located hl
        obtain ⟨category, hc, entry, he, rfl⟩ := (hc located).mp hl
        rw [h.loaded hc he, Option.isSome_some]
      case distinct =>
        refine pairwise_candidates.imp_of_mem fun {located located'} hl hl' hp => ?_
        obtain ⟨category, hc₁, entry, he, rfl⟩ := (hc located).mp hl
        obtain ⟨category', hc₂, entry', he', rfl⟩ := (hc located').mp hl'
        rw [h.loaded hc₁ he, h.loaded hc₂ he']
        rintro _ ⟨⟩ _ ⟨⟩ hid
        obtain ⟨rfl, rfl⟩ := eq_of_id_eq hc₁ he hc₂ he' hid
        exact absurd hp (lt_irrefl _)
    have hreport : (self.load parse directory <| .tree tree).report.rootAvailable ∧
        (self.load parse directory <| .tree tree).report.skippedEntries =
          (selectEntries parse root ∅ (candidates root directories)).skippedEntries ∧
        (self.load parse directory <| .tree tree).report.diagnostics =
          diagnostics ++ (scan root found).1 ++
            (selectEntries parse root ∅ (candidates root directories)).diagnostics ++
            (self.load parse directory <| .tree tree).entries.flatMap
              (relatedDiagnostics (self.load parse directory <| .tree tree).idLookup) := by
      simp only [KnowledgeBase.load, KnowledgeBase.loadTree]
      rw [hs]
      exact ⟨rfl, rfl, rfl⟩
    refine ⟨hreport.left, hreport.right.left.trans hskipped, ?_⟩
    rw [hreport.right.right, hroot, hlater, hselect, nil_append, nil_append, append_eq_nil_iff, flatMap_eq_nil_iff,
      flatMap_eq_nil_iff]
    refine and_congr_left' ⟨fun hd category hc' entry he => ?_, fun hd located hl => ?_⟩
    · exact hd _ <| (hc _).mpr ⟨category, hc', entry, he, rfl⟩
    · obtain ⟨category, hc', entry, he, rfl⟩ := (hc located).mp hl
      exact hd category hc' entry he

end Catalog

-- A catalog that is written to files is loaded as it was, and without a complaint exactly if it is tidy.
theorem load_catalog (catalog : Catalog) {parse : Bytes → YamlOutcome} {write : KnowledgeEntry → Bytes}
    (h : catalog.Reads parse write) (directory : Bytes) (self : KnowledgeBase) :
    let knowledge := self.load parse directory <| .tree <| catalog.tree write
    knowledge.entries = sortEntries (catalog.entries <| lexicallyNormal directory) ∧
    knowledge.report.rootAvailable ∧ knowledge.report.skippedEntries = 0 ∧
    knowledge.report.discoveredEntries = (catalog.categories.flatMap (·.2)).length ∧
    knowledge.report.loadedEntries = (catalog.categories.flatMap (·.2)).length ∧
    (knowledge.report.diagnostics = [] ↔ catalog.Tidy parse write) := by
  intro knowledge
  have he : knowledge.entries = sortEntries (catalog.entries <| lexicallyNormal directory) :=
    h.entries_load directory self
  obtain ⟨hr, hs, hd⟩ : knowledge.report.rootAvailable ∧ knowledge.report.skippedEntries = 0 ∧
      (knowledge.report.diagnostics = [] ↔
        (∀ category ∈ catalog.categories, ∀ entry ∈ category.2,
          loadDiagnostics parse (lexicallyNormal directory) (Catalog.entryLocated write category entry) = []) ∧
        ∀ entry ∈ knowledge.entries, relatedDiagnostics knowledge.idLookup entry = []) := h.report_load directory self
  have hc : knowledge.store.Consistent := KnowledgeStore.consistent_load directory _ self
  have hl : knowledge.report.loadedEntries = (catalog.categories.flatMap (·.2)).length := by
    have hn : (catalog.entries <| lexicallyNormal directory).length = (catalog.categories.flatMap (·.2)).length := by
      simp [Catalog.entries, length_flatMap]
    rw [← hn, ← length_sortBy, ← sortEntries, ← he]
    exact hc.loaded
  have hf : knowledge.report.discoveredEntries = knowledge.report.loadedEntries + knowledge.report.skippedEntries :=
    hc.discovered
  refine ⟨he, hr, hs, by rw [hf, hs, hl, add_zero], hl, hd.trans ?_⟩
  have hm {P : KnowledgeEntry → Prop} : (∀ entry ∈ knowledge.entries, P entry) ↔
      ∀ category ∈ catalog.categories, ∀ entry ∈ category.2,
        P (entry.storedIn (lexicallyNormal directory) category.1) := by
    rw [he]
    simp only [sortEntries, mem_sortBy, Catalog.entries, forall_mem_flatMap, forall_mem_map]
  have hi (id : Bytes) : id ∈ knowledge.idLookup ↔
      ∃ category ∈ catalog.categories, ∃ other ∈ category.2, other.id = id := by
    rw [mem_idLookup, he]
    simp only [sortEntries, mem_sortBy, Catalog.entries, mem_flatMap, mem_map]
    constructor
    case mp =>
      rintro ⟨_, ⟨category, hc, other, ho, rfl⟩, rfl⟩
      exact ⟨category, hc, other, ho, rfl⟩
    case mpr =>
      rintro ⟨category, hc, other, ho, rfl⟩
      exact ⟨_, ⟨category, hc, other, ho, rfl⟩, rfl⟩
  have hrel (entry : KnowledgeEntry) : relatedDiagnostics knowledge.idLookup entry = [] ↔
      ∀ id ∈ entry.related, ∃ category ∈ catalog.categories, ∃ other ∈ category.2, other.id = id := by
    simp [relatedDiagnostics, hi]
  simp only [hrel, hm]
  constructor
  case mp =>
    rintro ⟨hd, hr⟩
    have hd := fun category hc entry he => (h.loadDiagnostics_eq_nil_iff hc he).mp (hd category hc entry he)
    exact {
      known    := fun category hc entry he => (hd category hc entry he).left
      portable := fun category hc entry he => (hd category hc entry he).right
      related  := hr }
  case mpr =>
    intro ht
    exact ⟨fun category hc entry he => (h.loadDiagnostics_eq_nil_iff hc he).mpr
      ⟨ht.known category hc entry he, ht.portable category hc entry he⟩, ht.related⟩

-- Two entries in two categories, each of them related to the other one.
namespace Stocked

def copying (id title phrase relatedId : Bytes) : KnowledgeEntry where
  id              := id
  title           := title
  type            := ascii "howto"
  command         := []
  aliases         := [phrase]
  keywords        := []
  related         := [relatedId]
  intents         := []
  difficulty      := []
  platforms       := []
  tags            := []
  examples        := []
  category        := []
  sourceDirectory := []
  content         := ascii "# Copying\n"

def copyFile : KnowledgeEntry :=
  copying (ascii "copy-file") (ascii "Copying files") (ascii "copy file") (ascii "copy-branch")

def copyBranch : KnowledgeEntry :=
  copying (ascii "copy-branch") (ascii "Copying branches") (ascii "copy branch") (ascii "copy-file")

def catalog : Catalog where
  categories := [(ascii "files", [copyFile]), (ascii "git", [copyBranch])]
  isName     := by decide
  distinct   := by decide
  unique     := by decide
  nonblank   := by decide

def writeTexts (values : List Bytes) : Bytes :=
  values.flatMap fun value => ascii "\n  - " ++ value

def write (entry : KnowledgeEntry) : Bytes :=
  ascii "id: " ++ entry.id ++ ascii "\ntitle: " ++ entry.title ++ ascii "\ntype: " ++ entry.type ++
    ascii "\naliases:" ++ writeTexts entry.aliases ++ ascii "\nrelated:" ++ writeTexts entry.related ++ ascii "\n"

def metadata (entry : KnowledgeEntry) : List (Yaml × Yaml) := [
  (.scalar <| ascii "id",      .scalar entry.id),
  (.scalar <| ascii "title",   .scalar entry.title),
  (.scalar <| ascii "type",    .scalar entry.type),
  (.scalar <| ascii "aliases", texts entry.aliases),
  (.scalar <| ascii "related", texts entry.related)]

def parse (text : Bytes) : YamlOutcome :=
  match [copyFile, copyBranch].find? (write · = text) with
  | some entry => .node <| .map <| metadata entry
  | none       => .yamlException (ascii "unknown document")

theorem parse_write {entry : KnowledgeEntry} (h : entry ∈ [copyFile, copyBranch]) :
    parse (write entry) = .node (.map <| metadata entry) := by
  rcases List.mem_pair.mp h with rfl | rfl <;> rfl

theorem describes_metadata {entry : KnowledgeEntry} (h : entry ∈ [copyFile, copyBranch]) :
    DescribesEntry (metadata entry) entry := by
  let names := ["id", "title", "type", "aliases", "related"].map ascii
  have hk : Keyed (metadata entry) := ⟨names, by decide, rfl⟩
  have hn {value : Yaml} {name : String} (h : ascii name ∉ names) : GivesOr (metadata entry) name value value := by
    refine .inr ⟨rfl, fun other hg => h ?_⟩
    have hm : Yaml.scalar (ascii name) ∈ (metadata entry).map (·.1) := mem_map.mpr ⟨_, hg, rfl⟩
    simpa [metadata, names] using hm
  have hw : ∀ entry ∈ [copyFile, copyBranch], ∀ value ∈ [entry.id, entry.title, entry.type],
    hasNonWhitespace value := by decide
  rcases List.mem_pair.mp h with rfl | rfl
  all_goals exact {
    keyed      := hk
    id         := .head _
    title      := .tail _ <| .head _
    type       := .tail _ <| .tail _ <| .head _
    nonblank   := hw _ h
    command    := hn (by decide)
    difficulty := hn (by decide)
    aliases    := .inl <| .tail _ <| .tail _ <| .tail _ <| .head _
    keywords   := hn (by decide)
    related    := .inl <| .tail _ <| .tail _ <| .tail _ <| .tail _ <| .head _
    intents    := hn (by decide)
    platforms  := hn (by decide)
    tags       := hn (by decide)
    examples   := hn (by decide) }

theorem mem_of_category {category : Bytes × List KnowledgeEntry} {entry : KnowledgeEntry}
    (hc : category ∈ catalog.categories) (he : entry ∈ category.2) : entry ∈ [copyFile, copyBranch] := by
  have h : catalog.categories.flatMap (·.2) = [copyFile, copyBranch] := rfl
  exact h ▸ mem_flatMap_of_mem hc he

def base : KnowledgeBase :=
  .load parse (ascii "knowledge") (.tree <| catalog.tree write) default

theorem load_catalog_copies :
    base.entries = [copyBranch.storedIn (ascii "knowledge") (ascii "git"),
      copyFile.storedIn (ascii "knowledge") (ascii "files")] ∧ base.report.diagnostics = [] := by
  have hr : catalog.Reads parse write := fun category hc entry he =>
    ⟨_, parse_write (mem_of_category hc he), describes_metadata (mem_of_category hc he)⟩
  have hk : ∀ entry : KnowledgeEntry, ∀ item ∈ metadata entry, ∃ field ∈ knownFields, item.1 = .scalar field := by
    simp only [metadata, forall_mem_cons]
    exact fun entry => ⟨⟨ascii "id", by decide, rfl⟩, ⟨ascii "title", by decide, rfl⟩, ⟨ascii "type", by decide, rfl⟩,
      ⟨ascii "aliases", by decide, rfl⟩, ⟨ascii "related", by decide, rfl⟩, by simp⟩
  have ht : catalog.Tidy parse write := {
    known    := fun category hc entry he items hp => by
      rw [parse_write (mem_of_category hc he)] at hp
      cases hp
      exact hk entry
    portable := by decide
    related  := by decide }
  obtain ⟨he, _, _, _, _, hd⟩ := load_catalog catalog hr (ascii "knowledge") default
  exact ⟨he, hd.mpr ht⟩

end Stocked

end Howlinux
