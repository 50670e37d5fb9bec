import Howlinux.App.Theorems.Answer
import Howlinux.Knowledge.Theorems.Rewriting
import Howlinux.Search.Theorems.Aliases

open Bytes

namespace Howlinux

section

variable {order order' : HashOrder Bytes} {concepts : ConceptDictionary} {knowledge : KnowledgeBase}

theorem ConceptDictionary.ext {dictionary dictionary' : ConceptDictionary}
    (hp : dictionary.phraseToCanonical = dictionary'.phraseToCanonical)
    (hr : dictionary.report = dictionary'.report) : dictionary = dictionary' := by
  have hd : dictionary.definitions = dictionary'.definitions := by
    rw [dictionary.definitions_eq .sorted, hp, ← dictionary'.definitions_eq .sorted]
  cases dictionary
  cases dictionary'
  congr

theorem InvertedIndex.ext {index index' : InvertedIndex} (hd : index.documents = index'.documents)
    (hp : index.postings = index'.postings) (hk : index.knownCommands = index'.knownCommands)
    (hv : index.vocabulary = index'.vocabulary) : index = index' := by
  cases index
  cases index'
  congr

theorem loadGroups_order {path : Bytes} {diagnostics : List Diagnostic} {items : List (Yaml × Yaml)} :
    ConceptDictionary.loadGroups order path diagnostics items =
      ConceptDictionary.loadGroups order' path diagnostics items := by
  unfold ConceptDictionary.loadGroups
  dsimp only
  split
  case isTrue  => rfl
  case isFalse => exact ConceptDictionary.ext rfl rfl

-- The phrases are sorted, whatever the order in which they are found in the map.
theorem loadConcepts_order (self : ConceptDictionary) {path : Bytes} {file : ConceptsFile} :
    ConceptDictionary.load order path file self = ConceptDictionary.load order' path file self := by
  unfold ConceptDictionary.load ConceptDictionary.loadRoot
  simp only [@loadGroups_order order order']

theorem canonicalConcepts_order : canonicalConcepts order concepts = canonicalConcepts order' concepts := by
  refine congrArg List.eraseDups <| List.sortBy_eq_of_perm (List.comparesBy_lt id) (fun _ _ _ _ h => h) ?_
  exact (order.perm order' _).filterMap _

theorem lint_order {targets : LinkTargets} :
    knowledge.lint targets order concepts = knowledge.lint targets order' concepts := by
  simp only [KnowledgeBase.lint, lintConcepts, @canonicalConcepts_order order order']

theorem build_order :
    InvertedIndex.build order knowledge concepts = InvertedIndex.build order' knowledge concepts := by
  have hp : (InvertedIndex.build order knowledge concepts).postings =
      (InvertedIndex.build order' knowledge concepts).postings := Finmap.ext_lookup fun token =>
    (lookup_foldl_documents order _).trans (lookup_foldl_documents order' _).symm
  refine InvertedIndex.ext rfl hp ?commands ?vocabulary
  case commands =>
    ext token
    rw [InvertedIndex.mem_knownCommands, InvertedIndex.mem_knownCommands]
  case vocabulary =>
    refine List.sortBy_eq_of_perm (List.comparesBy_lt id) (fun _ _ _ _ h => h) ?_
    have hk : (InvertedIndex.build order knowledge concepts).postings.keys =
      (InvertedIndex.build order' knowledge concepts).postings.keys := congrArg Finmap.keys hp
    exact hk ▸ order.perm order' _

end

section

variable {K : Type} [Field K] [LinearOrder K] {order order' : HashOrder Bytes}

-- A search sees the hash containers through the index only.
theorem SearchEngine.respond_order (engine : SearchEngine K) (order : HashOrder Bytes) (text : Bytes) (limit : ℕ) :
    { engine with order }.respond text limit = engine.respond text limit := by
  have hi : { engine with order }.index = engine.index := build_order
  have hq : { engine with order }.queryProcessor = engine.queryProcessor := by
    simp only [queryProcessor, hi]
  have hc (query : QueryContext) : { engine with order }.candidates query = engine.candidates query :=
    congrArg (InvertedIndex.candidates · query engine.config) hi
  have hs (i : ℕ) (query : QueryContext) (candidates : CandidateSet) :
      { engine with order }.score i query candidates = engine.score i query candidates := by
    simp only [SearchEngine.score, hi]
  have hr (query : QueryContext) : { engine with order }.ranking query = engine.ranking query := by
    simp only [ranking_eq, hc, hs]
    rfl
  have hl : max limit 2 ≠ 0 := by omega
  simp only [respond, search_eq _ _ hl, hq, hr]

namespace Environment

variable (environment : Environment K) {knowledge : KnowledgeBase} {concepts : ConceptDictionary}
  {options : CliOptions}

theorem runCommand_order : { environment with order }.runCommand knowledge concepts options =
    environment.runCommand knowledge concepts options := by
  have hs : ({ environment with order }.engine knowledge concepts).respond options.query options.limit =
      (environment.engine knowledge concepts).respond options.query options.limit :=
    (environment.engine knowledge concepts).respond_order order options.query options.limit
  unfold runCommand
  cases options.command
  case validate => simp only [runValidate, @lint_order order environment.order]
  case list     => rfl
  case «show»   => rfl
  all_goals
    simp only [runSearch, hs]
    rfl

end Environment

-- No run depends on the order in which the file system enumerates directories or in which hash
-- containers are walked.
theorem runApplication_deterministic (environment : Environment K) (order : HashOrder Bytes)
    (knowledgeRoot : Bytes → KnowledgeRoot)
    (h : ∀ path, (environment.knowledgeRoot path).Shuffles (knowledgeRoot path)) (arguments : List Bytes) :
    { environment with order, knowledgeRoot }.runApplication arguments =
      environment.runApplication arguments := by
  have hk (options : CliOptions) : { environment with order, knowledgeRoot }.loadKnowledge options =
      environment.loadKnowledge options := (load_eq_of_shuffles _ default _ <| h _).symm
  have hc (options : CliOptions) : { environment with order, knowledgeRoot }.loadConcepts options =
      environment.loadConcepts options := loadConcepts_order default
  have hr (knowledge : KnowledgeBase) (concepts : ConceptDictionary) (options : CliOptions) :
      { environment with order, knowledgeRoot }.runCommand knowledge concepts options =
        environment.runCommand knowledge concepts options :=
    environment.runCommand_order
  have ho (options : CliOptions) : { environment with order, knowledgeRoot }.runOptions options =
      environment.runOptions options := by
    unfold Environment.runOptions
    simp only [hk, hc, hr]
    rfl
  unfold Environment.runApplication
  simp only [ho]

end

-- Two entries, enumerated in either order.
namespace Reversed

def category : Directory :=
  .mk .missing .missing none (Copies.aliases.reverse.map fun (id, phrase) => Copies.entryDirectory id phrase) none

def tree : Directory :=
  .mk .missing .missing none [(ascii "files", .directory category)] none

theorem wellFormed_category : category.WellFormed := by
  refine .intro (by decide) (by decide) ?_
  simp [category, Copies.aliases, Copies.entryDirectory, Directory.subdirectories, Directory.openError,
    Directory.children, Directory.subdirectory, Copies.wellFormed_leaf]

theorem wellFormed_tree : tree.WellFormed := by
  refine .intro (by decide) (by decide) ?_
  simp [tree, Directory.subdirectories, Directory.openError, Directory.children, Directory.subdirectory,
    wellFormed_category]

def order : HashOrder Bytes where
  list s  := (HashOrder.sorted.list s).reverse
  nodup s := List.nodup_reverse.mpr <| HashOrder.sorted.nodup s
  mem s a := by rw [List.mem_reverse, HashOrder.mem]

def environment : Environment ℚ :=
  { Environment.bare with
    knowledgeRoot := fun _ => .tree ⟨Copies.tree, Copies.wellFormed_tree⟩
    parse         := Copies.parse }

theorem shuffles : Copies.tree.Rewrites Eq tree := by
  have hm : FileOutcome.missing.Rewrites Eq .missing := .other nofun
  have hl {metadata : FileOutcome} {content : Bytes} : (Directory.mk metadata (.text content) none [] none).Rewrites
    Eq (.mk metadata (.text content) none [] none) := .intro (.text rfl) .nil .nil
  have hc : Copies.category.Rewrites Eq category :=
    .intro hm (List.Perm.swap ..) <| .cons (.directory hl) <| .cons (.directory hl) .nil
  exact .intro hm (.refl _) <| .cons (.directory hc) .nil

theorem runApplication_list :
    { environment with order, knowledgeRoot := fun _ => .tree ⟨tree, wellFormed_tree⟩ }.runApplication
      [ascii "list"] = environment.runApplication [ascii "list"] :=
  runApplication_deterministic environment order _ (fun _ => .tree shuffles) [ascii "list"]

end Reversed

end Howlinux
