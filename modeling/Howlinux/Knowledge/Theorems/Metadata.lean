import Howlinux.Knowledge.Theorems.Load
import Howlinux.Knowledge.Theorems.Store

open Bytes List

namespace Howlinux

-- The keys of a mapping are texts, and no two of them are the same.
def Keyed (items : List (Yaml × Yaml)) : Prop :=
  ∃ names : List Bytes, names.Nodup ∧ items.map (·.1) = names.map .scalar

-- The mapping has a value for a field.
def Gives (items : List (Yaml × Yaml)) (name : String) (value : Yaml) : Prop :=
  (.scalar (ascii name), value) ∈ items

-- A field that may be left out.
def GivesOr (items : List (Yaml × Yaml)) (name : String) (value default : Yaml) : Prop :=
  Gives items name value ∨ value = default ∧ ∀ other, ¬Gives items name other

def texts (values : List Bytes) : Yaml :=
  .sequence (values.map .scalar)

-- The mapping says the same as the entry, in whatever order and next to whatever other fields.
structure DescribesEntry (items : List (Yaml × Yaml)) (entry : KnowledgeEntry) : Prop where
  keyed      : Keyed items
  id         : Gives items "id" (.scalar entry.id)
  title      : Gives items "title" (.scalar entry.title)
  type       : Gives items "type" (.scalar entry.type)
  nonblank   : ∀ value ∈ [entry.id, entry.title, entry.type], hasNonWhitespace value
  command    : GivesOr items "command" (.scalar entry.command) (.scalar [])
  difficulty : GivesOr items "difficulty" (.scalar entry.difficulty) (.scalar [])
  aliases    : GivesOr items "aliases" (texts entry.aliases) (texts [])
  keywords   : GivesOr items "keywords" (texts entry.keywords) (texts [])
  related    : GivesOr items "related" (texts entry.related) (texts [])
  intents    : GivesOr items "intent" (texts entry.intents) (texts [])
  platforms  : GivesOr items "platforms" (texts entry.platforms) (texts [])
  tags       : GivesOr items "tags" (texts entry.tags) (texts [])
  examples   : GivesOr items "examples" (texts entry.examples) (texts [])

section

variable {items : List (Yaml × Yaml)} {name : String} {value : Yaml} {path entryId : Bytes}

-- Without duplicate keys the first value of a field is the only one.
theorem Keyed.field_eq_some_iff (h : Keyed items) :
    field items (ascii name) = some value ↔ Gives items name value := by
  obtain ⟨names, hn, he⟩ := h
  induction items generalizing names
  case nil => simp [field, Gives]
  case cons item items hi =>
    cases names
    case nil => contradiction
    case cons first names =>
      obtain ⟨key, given⟩ := item
      simp only [map_cons, cons.injEq] at he
      obtain ⟨rfl, he⟩ := he
      obtain ⟨hf, hn⟩ := nodup_cons.mp hn
      have hi := hi names hn he
      unfold field Gives at hi ⊢
      by_cases hk : first = ascii name
      case pos =>
        subst hk
        have hm : (Yaml.scalar (ascii name), value) ∉ items := fun hm => by
          have : Yaml.scalar (ascii name) ∈ names.map Yaml.scalar := he ▸ mem_map_of_mem hm
          simp [hf] at this
        simp [isField, hm, eq_comm]
      case neg =>
        have : ¬ascii name = first := Ne.symm hk
        simpa [isField, hk, this] using hi

theorem Keyed.field_eq_none_iff (h : Keyed items) : field items (ascii name) = none ↔
    ∀ other, ¬Gives items name other := by
  simp only [Option.eq_none_iff_forall_ne_some, ne_eq, h.field_eq_some_iff]

-- The keys are texts that are all different, and different from the ones seen before.
def FreshKeys (seenFields : Finset Bytes) (keys : List Yaml) : Prop :=
  ∃ names : List Bytes, names.Nodup ∧ keys = names.map .scalar ∧ ∀ name ∈ names, name ∉ seenFields

theorem freshKeys_cons_iff {seenFields : Finset Bytes} {first : Bytes} {keys : List Yaml} :
    FreshKeys seenFields (.scalar first :: keys) ↔ first ∉ seenFields ∧ FreshKeys (insert first seenFields) keys := by
  constructor
  case mp =>
    rintro ⟨names, hn, he, hs⟩
    cases names
    case nil => contradiction
    case cons other names =>
      simp only [map_cons, cons.injEq, Yaml.scalar.injEq] at he
      obtain ⟨rfl, he⟩ := he
      obtain ⟨hf, hn⟩ := nodup_cons.mp hn
      obtain ⟨hfs, hs⟩ := forall_mem_cons.mp hs
      refine ⟨hfs, names, hn, he, fun name hm => ?_⟩
      rw [Finset.mem_insert, not_or]
      exact ⟨fun h => hf (h ▸ hm), hs name hm⟩
  case mpr =>
    rintro ⟨hf, names, hn, he, hs⟩
    simp only [Finset.mem_insert, not_or] at hs
    refine ⟨first :: names, nodup_cons.mpr ⟨fun hm => (hs first hm).left rfl, hn⟩, by rw [he, map_cons], ?_⟩
    exact forall_mem_cons.mpr ⟨hf, fun name hm => (hs name hm).right⟩

theorem readKeys_valid_iff {seenFields : Finset Bytes} :
    (readKeys path entryId seenFields items).valid ↔ FreshKeys seenFields (items.map (·.1)) := by
  fun_induction readKeys path entryId seenFields items
  case case1 => exact iff_of_true rfl ⟨[], by simp⟩
  case case2 hs _ _ =>
    rw [map_cons, freshKeys_cons_iff]
    exact iff_of_false Bool.false_ne_true fun h => h.left hs
  case case3 hs _ _ hi =>
    rw [map_cons, freshKeys_cons_iff, ← hi]
    exact (and_iff_right hs).symm
  case case4 hs _ _ hi =>
    rw [map_cons, freshKeys_cons_iff, ← hi]
    exact (and_iff_right hs).symm
  case case5 item rest hk _ _ =>
    refine iff_of_false Bool.false_ne_true ?_
    rintro ⟨names, hn, he, _⟩
    cases names
    case nil           => contradiction
    case cons name _ _ => exact hk name item.2 (Prod.ext (cons.inj he).left rfl)

theorem readKeys_valid_iff_keyed : (readKeys path entryId ∅ items).valid ↔ Keyed items := by
  rw [readKeys_valid_iff]
  simp [FreshKeys, Keyed]

end

-- A field was read without a complaint.
def FieldRead.Yields {α : Type*} (read : FieldRead α) (value : α) : Prop :=
  read.valid ∧ read.output = value

section

variable {items : List (Yaml × Yaml)} {name : String} {path entryId text : Bytes} {values : List Bytes}

theorem Keyed.yields_readRequiredString (h : Keyed items) :
    (readRequiredString items (ascii name) path entryId).Yields text ↔
      Gives items name (.scalar text) ∧ hasNonWhitespace text := by
  rw [← h.field_eq_some_iff, readRequiredString, FieldRead.Yields]
  split
  case h_1 hf => simp [hf]
  case h_2 hf => simp [hf]
  case h_3 output hf =>
    rw [hf]
    split
    case isTrue hb  => simpa using fun he => he ▸ hb
    case isFalse hb => simpa using fun he => by simpa [← he] using hb
  case h_4 hs hf =>
    rw [hf]
    simpa using fun he => absurd he (hs text)

theorem Keyed.yields_readOptionalString (h : Keyed items) :
    (readOptionalString items (ascii name) path entryId).Yields text ↔
      GivesOr items name (.scalar text) (.scalar []) := by
  rw [GivesOr, ← h.field_eq_some_iff, ← h.field_eq_none_iff, readOptionalString, FieldRead.Yields]
  split
  case h_1 hf => simp [hf, eq_comm]
  case h_2 hf => simp [hf]
  case h_3 hs hf => simpa [hf] using hs text

theorem yields_readItems {index : ℕ} {items : List Yaml} :
    (readItems (ascii name) path entryId index items).Yields values ↔ items = values.map .scalar := by
  fun_induction readItems (ascii name) path entryId index items generalizing values
  case case1 => simp [FieldRead.Yields, eq_comm]
  case case2 text rest read hi =>
    cases values
    case nil               => simp [FieldRead.Yields]
    case cons value values =>
      have hi : read.valid ∧ read.output = values ↔ rest = values.map .scalar := hi
      rw [map_cons, cons.injEq, Yaml.scalar.injEq, ← hi, FieldRead.Yields, cons.injEq]
      exact and_left_comm
  case case3 item rest hs _ _ =>
    refine iff_of_false (fun h => Bool.false_ne_true h.left) fun he => ?_
    cases values
    case nil          => contradiction
    case cons value _ => exact hs value (cons.inj he).left

theorem Keyed.yields_readOptionalStringList (h : Keyed items) :
    (readOptionalStringList items (ascii name) path entryId).Yields values ↔
      GivesOr items name (texts values) (texts []) := by
  rw [GivesOr, ← h.field_eq_some_iff, ← h.field_eq_none_iff, readOptionalStringList, FieldRead.Yields]
  split
  case h_1 hf => simp [hf, texts, eq_comm]
  case h_2 given hf =>
    have hy : (readItems (ascii name) path entryId 0 given).Yields values ↔ given = values.map .scalar :=
      yields_readItems
    simp only [hf, reduceCtorEq, and_false, or_false, Option.some.injEq, texts, Yaml.sequence.injEq, ← hy]
    exact and_congr_right fun hv => by rw [if_pos hv]
  case h_3 hs hf => simpa [hf, texts] using hs _

end

section

variable {items : List (Yaml × Yaml)} {unknownFields : List Bytes}
  {entryDirectory category path provisionalId : Bytes} {entry : KnowledgeEntry}
  {parse : Bytes → YamlOutcome} {metadata content : FileOutcome}

-- The parts of an entry that do not come from its metadata.
structure KnowledgeEntry.Placed (entry : KnowledgeEntry) (entryDirectory category text : Bytes) : Prop where
  category        : entry.category = category
  sourceDirectory : entry.sourceDirectory = entryDirectory
  content         : entry.content = text

theorem Keyed.readMetadata_eq_some_iff (h : Keyed items) :
    (readMetadata items unknownFields entryDirectory category path provisionalId).2 = some entry ↔
      DescribesEntry items entry ∧ entry.Placed entryDirectory category [] := by
  unfold readMetadata
  dsimp only
  -- The id that later diagnostics carry has no part in what is read.
  generalize (if hasNonWhitespace (readRequiredString items (ascii "id") path provisionalId).output then
    (readRequiredString items (ascii "id") path provisionalId).output else provisionalId) = diagnosticId
  constructor
  case mp =>
    intro he
    split at he
    case isFalse  => contradiction
    case isTrue hv =>
      simp only [Bool.and_eq_true, and_assoc] at hv
      obtain ⟨h₁, h₂, h₃, h₄, h₅, h₆, h₇, h₈, h₉, h₁₀, h₁₁, h₁₂⟩ := hv
      obtain rfl := Option.some.inj he
      obtain ⟨hid, hidb⟩ := h.yields_readRequiredString.mp ⟨h₁, rfl⟩
      obtain ⟨htitle, htitleb⟩ := h.yields_readRequiredString.mp ⟨h₂, rfl⟩
      obtain ⟨htype, htypeb⟩ := h.yields_readRequiredString.mp ⟨h₃, rfl⟩
      have hs {name : String} (hv : (readOptionalString items (ascii name) path diagnosticId).valid) :=
        h.yields_readOptionalString.mp ⟨hv, rfl⟩
      have hl {name : String} (hv : (readOptionalStringList items (ascii name) path diagnosticId).valid) :=
        h.yields_readOptionalStringList.mp ⟨hv, rfl⟩
      exact ⟨⟨h, hid, htitle, htype, by simp [hidb, htitleb, htypeb], hs h₄, hs h₅, hl h₆, hl h₇, hl h₈, hl h₉,
        hl h₁₀, hl h₁₁, hl h₁₂⟩, ⟨rfl, rfl, rfl⟩⟩
  case mpr =>
    rintro ⟨hd, placed⟩
    have hr {name : String} {text : Bytes} (entryId : Bytes) (hg : Gives items name (.scalar text))
        (hb : hasNonWhitespace text) : (readRequiredString items (ascii name) path entryId).Yields text :=
      h.yields_readRequiredString.mpr ⟨hg, hb⟩
    have hs {name : String} {text : Bytes} (hg : GivesOr items name (.scalar text) (.scalar [])) :
        (readOptionalString items (ascii name) path diagnosticId).Yields text :=
      h.yields_readOptionalString.mpr hg
    have hl {name : String} {values : List Bytes} (hg : GivesOr items name (texts values) (texts [])) :
        (readOptionalStringList items (ascii name) path diagnosticId).Yields values :=
      h.yields_readOptionalStringList.mpr hg
    have hb := hd.nonblank
    simp only [forall_mem_cons] at hb
    obtain ⟨h₁, he₁⟩ := hr provisionalId hd.id hb.1
    obtain ⟨h₂, he₂⟩ := hr diagnosticId hd.title hb.2.1
    obtain ⟨h₃, he₃⟩ := hr diagnosticId hd.type hb.2.2.1
    obtain ⟨h₄, he₄⟩ := hs hd.command
    obtain ⟨h₅, he₅⟩ := hs hd.difficulty
    obtain ⟨h₆, he₆⟩ := hl hd.aliases
    obtain ⟨h₇, he₇⟩ := hl hd.keywords
    obtain ⟨h₈, he₈⟩ := hl hd.related
    obtain ⟨h₉, he₉⟩ := hl hd.intents
    obtain ⟨h₁₀, he₁₀⟩ := hl hd.platforms
    obtain ⟨h₁₁, he₁₁⟩ := hl hd.tags
    obtain ⟨h₁₂, he₁₂⟩ := hl hd.examples
    rw [if_pos (by simp [h₁, h₂, h₃, h₄, h₅, h₆, h₇, h₈, h₉, h₁₀, h₁₁, h₁₂])]
    rw [he₁, he₂, he₃, he₄, he₅, he₆, he₇, he₈, he₉, he₁₀, he₁₁, he₁₂, ← placed.category, ← placed.sourceDirectory,
      ← placed.content]

theorem loadMetadata_eq_some_iff : (loadMetadata parse metadata entryDirectory category).2 = some entry ↔
    (∃ text items, metadata = .text text ∧ parse text = .node (.map items) ∧ DescribesEntry items entry) ∧
      entry.Placed entryDirectory category [] := by
  unfold loadMetadata readFileByteExact
  cases metadata
  case text text =>
    dsimp only
    cases hp : parse text
    case node root =>
      cases root
      case map items =>
        dsimp only
        split
        case isTrue hv =>
          rw [(readKeys_valid_iff_keyed.mp hv).readMetadata_eq_some_iff]
          simp [hp]
        case isFalse hv =>
          refine iff_of_false (by simp) ?_
          rintro ⟨⟨_, items', ht, hp', hd⟩, _⟩
          cases ht
          obtain rfl : items = items' := by simpa [hp] using hp'
          exact hv (readKeys_valid_iff_keyed.mpr hd.keyed)
      all_goals simp [hp]
    all_goals simp [hp]
  all_goals simp

theorem readContent_eq_some_iff {read : KnowledgeEntry} : (readContent content path read).2 = some entry ↔
    ∃ text, content = .text text ∧ hasNonWhitespace text ∧ entry = { read with content := text } := by
  unfold readContent readFileByteExact
  cases content
  case text text =>
    dsimp only
    split
    case isTrue hb  => simpa [hb] using eq_comm
    case isFalse hb => simp [hb]
  all_goals simp

-- Where an entry is stored and what its content is has no part in its metadata.
theorem DescribesEntry.placed (h : DescribesEntry items entry) (category sourceDirectory content : Bytes) :
    DescribesEntry items { entry with category, sourceDirectory, content } := by
  obtain ⟨hk, hid, htitle, htype, hb, hc, hd, ha, hw, hr, hi, hp, ht, hx⟩ := h
  exact ⟨hk, hid, htitle, htype, hb, hc, hd, ha, hw, hr, hi, hp, ht, hx⟩

theorem loadEntry_snd : (loadEntry parse metadata content entryDirectory category).2 =
    if (validateRegularFile metadata (slash entryDirectory metadataFilename) (candidateId entryDirectory)
        (ascii "metadata file 'meta.yaml'")).2 ∧
      (validateRegularFile content (slash entryDirectory contentFilename) (candidateId entryDirectory)
        (ascii "content file 'content.md'")).2 then
      (loadMetadata parse metadata entryDirectory category).2.bind fun entry =>
        (readContent content (slash entryDirectory contentFilename) entry).2
    else
      none := by
  unfold loadEntry
  dsimp only
  split
  case isTrue hv =>
    rw [if_neg]
    simpa [← Bool.not_eq_true, or_iff_not_imp_left] using hv
  case isFalse hv =>
    rw [if_pos (by simpa using hv)]
    rcases loadMetadata parse metadata entryDirectory category with ⟨diagnostics, _ | entry⟩ <;> rfl

-- The two files of a directory, one with the metadata of the entry and one with its content.
structure FilesDescribe (parse : Bytes → YamlOutcome) (directory : Directory) (entry : KnowledgeEntry) : Prop where
  metadata : ∃ text items, directory.metadata = .text text ∧ parse text = .node (.map items) ∧
    DescribesEntry items entry
  content  : directory.content = .text entry.content
  nonblank : hasNonWhitespace entry.content

-- A directory is loaded exactly as the entry that its two files describe.
theorem loadEntry_eq_some_iff {directory : Directory} :
    (loadEntry parse directory.metadata directory.content entryDirectory category).2 = some entry ↔
      FilesDescribe parse directory entry ∧ entry.category = category ∧ entry.sourceDirectory = entryDirectory := by
  rw [loadEntry_snd]
  split
  case isTrue hv =>
    rw [Option.bind_eq_some_iff]
    simp only [loadMetadata_eq_some_iff, readContent_eq_some_iff]
    constructor
    case mp =>
      rintro ⟨read, ⟨⟨text, items, hm, hp, hd⟩, placed⟩, text', hc, hb, rfl⟩
      exact ⟨⟨⟨text, items, hm, hp, hd.placed _ _ _⟩, hc, hb⟩, placed.category, placed.sourceDirectory⟩
    case mpr =>
      rintro ⟨⟨⟨text, items, hm, hp, hd⟩, hc, hb⟩, hcategory, hsource⟩
      exact ⟨{ entry with content := [] }, ⟨⟨text, items, hm, hp, hd.placed _ _ _⟩, hcategory, hsource, rfl⟩,
        entry.content, hc, hb, rfl⟩
  case isFalse hv =>
    refine iff_of_false (by simp) ?_
    rintro ⟨⟨⟨_, _, hm, _⟩, hc, _⟩, _⟩
    simp [validateRegularFile, hm, hc] at hv

end

section

variable {parse : Bytes → YamlOutcome} {root : Bytes} {outcome : KnowledgeRoot} {names : List Bytes}
  {entry : KnowledgeEntry}

-- A directory below a category that holds the files of the entry.
def KnowledgeRoot.Stores (parse : Bytes → YamlOutcome) (root : Bytes) (outcome : KnowledgeRoot) (names : List Bytes)
    (entry : KnowledgeEntry) : Prop :=
  ∃ located, outcome.Holds located ∧ located.names = names ∧ FilesDescribe parse located.directory entry ∧
    entry.sourceDirectory = names.foldl slash root ∧ ∃ name rest, names = entry.category :: name :: rest

theorem loads_iff_stores : outcome.Loads parse root names entry ↔ outcome.Stores parse root names entry := by
  refine exists_congr fun located => and_congr_right fun _ => and_congr_right fun hn => ?_
  subst hn
  unfold loaded
  split
  case h_1 category name rest hn =>
    rw [loadEntry_eq_some_iff, hn]
    simp [Located.path, hn, eq_comm, and_comm]
  case h_2 hn =>
    refine iff_of_false (by simp) ?_
    rintro ⟨_, _, name, rest, he⟩
    exact hn _ _ _ he

end

-- The knowledge base is what its files describe. An entry is loaded exactly if some directory below a
-- category describes it and no directory with a smaller path describes another one with its id, and the
-- entries that are stored are all that counts.
theorem load_described (parse parse' : Bytes → YamlOutcome) (directory : Bytes) (outcome outcome' : KnowledgeRoot)
    (self self' : KnowledgeBase) :
    let root     := lexicallyNormal directory
    let entries  := (self.load parse directory outcome).entries
    let entries' := (self'.load parse' directory outcome').entries
    (∀ entry, entry ∈ entries ↔ ∃ names, outcome.Stores parse root names entry ∧
      ∀ names' entry', outcome.Stores parse root names' entry' → entry'.id = entry.id →
        names.foldl slash root ≤ names'.foldl slash root) ∧
    ((∀ names entry, outcome.Stores parse root names entry ↔ outcome'.Stores parse' root names entry) →
      entries = entries') := by
  intro root entries entries'
  have hs (parse : Bytes → YamlOutcome) (outcome : KnowledgeRoot) (self : KnowledgeBase) (entry : KnowledgeEntry) :
      entry ∈ (self.load parse directory outcome).entries ↔ ∃ names, outcome.Stores parse root names entry ∧
        ∀ names' entry', outcome.Stores parse root names' entry' → entry'.id = entry.id →
          names.foldl slash root ≤ names'.foldl slash root := by
    rw [mem_entries_load]
    simp only [KnowledgeRoot.Selects, loads_iff_stores]
    rfl
  refine ⟨hs parse outcome self, fun h => ?_⟩
  refine (KnowledgeBase.sorted _).eq_of_mem_iff (KnowledgeBase.sorted _) fun entry => ?_
  rw [hs, hs]
  simp only [h]

end Howlinux
