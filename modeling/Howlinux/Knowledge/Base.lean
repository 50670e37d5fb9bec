import Howlinux.Knowledge.Directory
import Howlinux.Library.Hashed

open Bytes

namespace Howlinux

structure KnowledgeLoadReport where
  rootAvailable     : Bool := false
  discoveredEntries : ℕ := 0
  loadedEntries     : ℕ := 0
  skippedEntries    : ℕ := 0
  diagnostics       : List Diagnostic := []
  deriving DecidableEq, Repr

def KnowledgeLoadReport.hasIssues (report : KnowledgeLoadReport) : Bool :=
  !report.diagnostics.isEmpty

-- What `status` answers about the root.
inductive KnowledgeRoot
  | missing
  | inspectError (message : Bytes)
  | notDirectory
  | tree (tree : KnowledgeTree)

def scanDiagnostic (isRoot : Bool) (path message : Bytes) : Diagnostic where
  severity := if isRoot then .error else .warning
  path     := path
  entryId  := []
  message  := message

-- The children the iterator yields. A root that cannot be read ends the load.
def listDirectory (isRoot : Bool) (path : Bytes) (directory : Directory) :
    List Diagnostic × Option (List (Bytes × Child Directory)) :=
  match directory.openError with
  | some message => ([scanDiagnostic isRoot path <| ascii "cannot read directory: " ++ message], none)
  | none =>
    match directory.readError with
    | some message => ([scanDiagnostic isRoot path <|
        ascii "failed while reading directory: " ++ message],
        if isRoot then none else some directory.children)
    | none => ([], some directory.children)

def pathSortsBefore (path : Bytes) (left right : Bytes × Child Directory) : Bool :=
  slash path left.1 < slash path right.1

def inspectChild (path : Bytes) (child : Bytes × Child Directory) : List Diagnostic :=
  match child.2 with
  | .statusError message => [addDiagnostic (slash path child.1) [] <|
      ascii "cannot inspect path while scanning knowledge root: " ++ message]
  | .symlink true => [addDiagnostic (slash path child.1) [] <|
      ascii "symbolic-link directory was not traversed"]
  | _ => []

-- The diagnostics of a directory, and the directories to be scanned later.
def scanDirectory (isRoot : Bool) (root : Bytes) (current : Located) :
    List Diagnostic × Option (List Located) :=
  let path := current.path root
  match listDirectory isRoot path current.directory with
  | (diagnostics, none) => (diagnostics, none)
  | (diagnostics, some children) =>
    let children := children.sortBy (pathSortsBefore path)
    (diagnostics ++ children.flatMap (inspectChild path),
      some <| (children.filterMap Directory.subdirectory).map current.child)

theorem perm_scanDirectory (root : Bytes) (current : Located) :
    ((scanDirectory false root current).2.getD []).Perm current.subdirectories := by
  have hp := List.perm_sortBy (pathSortsBefore <| current.path root) current.directory.children
  unfold scanDirectory listDirectory Located.subdirectories Directory.subdirectories
  cases current.directory.openError
  case some => simp
  case none => cases current.directory.readError <;> exact (hp.filterMap _).map _

-- The work-list of directories grows while it is walked.
def scan (root : Bytes) : List Located → List Diagnostic × List Located
  | [] => ([], [])
  | current :: rest =>
    let (later, directories) := scan root (rest ++ (scanDirectory false root current).2.getD [])
    ((scanDirectory false root current).1 ++ later, current :: directories)
termination_by queue => (queue.map (sizeOf ·.directory)).sum
decreasing_by
  have hp := ((perm_scanDirectory root current).map (sizeOf ·.directory)).sum_eq
  have hl := current.sum_sizeOf_subdirectories_lt
  simp only [List.map_append, List.sum_append, List.map_cons, List.sum_cons, hp]
  omega

def isCandidate (located : Located) : Bool :=
  pathIsPresent located.directory.metadata || pathIsPresent located.directory.content

def candidates (root : Bytes) (directories : List Located) : List Located :=
  (directories.filter isCandidate).sortBy (fun left right => decide (left.path root < right.path root))
    |>.unique (·.path root)

def relativeComponents (located : Located) : List Bytes :=
  located.names.filter fun component => component != ascii "." && !component.isEmpty

structure Selection where
  diagnostics    : List Diagnostic := []
  skippedEntries : ℕ := 0
  entries        : List KnowledgeEntry := []

def Selection.skip (selection : Selection) (diagnostics : List Diagnostic) : Selection where
  diagnostics    := diagnostics ++ selection.diagnostics
  skippedEntries := selection.skippedEntries + 1
  entries        := selection.entries

def Selection.add (selection : Selection) (diagnostics : List Diagnostic) (entry : KnowledgeEntry) :
    Selection where
  diagnostics    := diagnostics ++ selection.diagnostics
  skippedEntries := selection.skippedEntries
  entries        := entry :: selection.entries

def duplicateDiagnostic (entry : KnowledgeEntry) (source : Bytes) : Diagnostic :=
  addDiagnostic (slash entry.sourceDirectory metadataFilename) entry.id <|
    ascii "duplicate id; the entry at '" ++ source ++
    ascii "' was loaded first, so this entry was skipped"

-- The loop over the candidates. `firstSourceById` holds the entries of earlier ones.
def selectEntries (parse : Bytes → YamlOutcome) (root : Bytes)
    (firstSourceById : Finmap fun _ : Bytes => Bytes) : List Located → Selection
  | [] => {}
  | candidate :: rest =>
    let entryDirectory := candidate.path root
    match relativeComponents candidate with
    | category :: _ :: _ =>
      match loadEntry parse candidate.directory.metadata candidate.directory.content
          entryDirectory category with
      | (diagnostics, none) => (selectEntries parse root firstSourceById rest).skip diagnostics
      | (diagnostics, some entry) =>
        match firstSourceById.lookup entry.id with
        | some source =>
          (selectEntries parse root firstSourceById rest).skip <|
            diagnostics ++ [duplicateDiagnostic entry source]
        | none =>
          (selectEntries parse root (firstSourceById.insert entry.id entry.sourceDirectory) rest).add
            diagnostics entry
    | _ =>
      (selectEntries parse root firstSourceById rest).skip [
        addDiagnostic entryDirectory (candidateId entryDirectory) <|
          ascii "entry must be stored below a category directory"]

def sortEntries (entries : List KnowledgeEntry) : List KnowledgeEntry :=
  entries.sortBy fun left right => decide (left.id < right.id)

def rebuildLookup (entries : List KnowledgeEntry) : Finmap fun _ : Bytes => ℕ :=
  entries.zipIdx.foldl (fun lookup (entry, index) => lookup.emplace entry.id index) ∅

def relatedDiagnostics (lookup : Finmap fun _ : Bytes => ℕ) (entry : KnowledgeEntry) :
    List Diagnostic :=
  (entry.related.filter (· ∉ lookup)).map fun relatedId =>
    addDiagnostic (slash entry.sourceDirectory metadataFilename) entry.id <|
      ascii "related id '" ++ relatedId ++ ascii "' does not refer to a loaded entry"

section

variable {parse : Bytes → YamlOutcome} {root : Bytes} {entry : KnowledgeEntry}
  {firstSourceById : Finmap fun _ : Bytes => Bytes} {located : List Located}

theorem id_notMem_of_mem_selectEntries
    (h : entry ∈ (selectEntries parse root firstSourceById located).entries) :
    entry.id ∉ firstSourceById := by
  fun_induction selectEntries parse root firstSourceById located <;>
    grind [Selection.skip, Selection.add, Finmap.mem_insert, Finmap.lookup_eq_none]

theorem nodup_id_selectEntries :
    ((selectEntries parse root firstSourceById located).entries.map (·.id)).Nodup := by
  fun_induction selectEntries parse root firstSourceById located
  case case1 => simp
  case case4 hn hi =>
    simp only [Selection.add, List.map_cons, List.nodup_cons, List.mem_map, not_exists, not_and, hi,
      and_true]
    intro other ho he
    have := id_notMem_of_mem_selectEntries ho
    simp [he, Finmap.mem_insert] at this
  all_goals assumption

theorem pairwise_sortEntries {entries : List KnowledgeEntry} (h : (entries.map (·.id)).Nodup) :
    (sortEntries entries).Pairwise (·.id < ·.id) :=
  List.pairwise_lt_sortBy (List.comparesBy_lt _) h

end

structure KnowledgeBase where
  root      : Bytes := []
  entries   : List KnowledgeEntry := []
  idLookup  : Finmap fun _ : Bytes => ℕ := ∅
  report    : KnowledgeLoadReport := {}
  sorted    : entries.Pairwise (·.id < ·.id)
  lookup_eq : idLookup = rebuildLookup entries

namespace KnowledgeBase

def unavailable (root : Bytes) (diagnostics : List Diagnostic) : KnowledgeBase where
  root      := root
  report    := { diagnostics }
  sorted    := .nil
  lookup_eq := rfl

instance : Inhabited KnowledgeBase where
  default := { sorted := .nil, lookup_eq := rfl }

def ofEntries (entries : List KnowledgeEntry) (sorted : entries.Pairwise (·.id < ·.id)) : KnowledgeBase where
  entries   := entries
  idLookup  := rebuildLookup entries
  sorted    := sorted
  lookup_eq := rfl

def loadTree (parse : Bytes → YamlOutcome) (root : Bytes) (tree : KnowledgeTree) : KnowledgeBase :=
  match scanDirectory true root tree.val.located with
  | (diagnostics, none) => unavailable root diagnostics
  | (diagnostics, some found) =>
    let (later, directories) := scan root found
    let candidates := candidates root (tree.val.located :: directories)
    let selection  := selectEntries parse root ∅ candidates
    let entries    := sortEntries selection.entries
    let lookup     := rebuildLookup entries
    { root, entries
      idLookup  := lookup
      report    := {
        rootAvailable     := true
        discoveredEntries := candidates.length
        loadedEntries     := entries.length
        skippedEntries    := selection.skippedEntries
        diagnostics       := diagnostics ++ later ++ selection.diagnostics ++
          entries.flatMap (relatedDiagnostics lookup) }
      sorted    := pairwise_sortEntries nodup_id_selectEntries
      lookup_eq := rfl }

def rootError (root message : Bytes) : Diagnostic where
  severity := .error
  path     := root
  entryId  := []
  message  := message

-- `load` clears whatever the knowledge base held before.
def load (parse : Bytes → YamlOutcome) (directory : Bytes) (outcome : KnowledgeRoot)
    (_ : KnowledgeBase) : KnowledgeBase :=
  let root := lexicallyNormal directory
  match outcome with
  | .missing => unavailable root [rootError root <| ascii "knowledge root does not exist"]
  | .inspectError message =>
    unavailable root [rootError root <| ascii "cannot inspect knowledge root: " ++ message]
  | .notDirectory => unavailable root [rootError root <| ascii "knowledge root is not a directory"]
  | .tree tree => loadTree parse root tree

def findById (knowledge : KnowledgeBase) (id : Bytes) : Option KnowledgeEntry :=
  (knowledge.idLookup.lookup id).bind (knowledge.entries[·]?)

end KnowledgeBase

end Howlinux
