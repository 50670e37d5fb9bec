import Howlinux.Knowledge.Base

open Bytes

namespace Howlinux

-- The members of a knowledge base, as `load` clears and fills them one after the other.
structure KnowledgeStore where
  root     : Bytes := []
  entries  : List KnowledgeEntry := []
  idLookup : Finmap fun _ : Bytes => ℕ := ∅
  report   : KnowledgeLoadReport := {}

namespace KnowledgeStore

def clear (directory : Bytes) (store : KnowledgeStore) : KnowledgeStore :=
  { store with root := lexicallyNormal directory, entries := [], idLookup := ∅, report := {} }

def diagnose (diagnostics : List Diagnostic) (store : KnowledgeStore) : KnowledgeStore :=
  { store with report.diagnostics := store.report.diagnostics ++ diagnostics }

def skip (store : KnowledgeStore) : KnowledgeStore :=
  { store with report.skippedEntries := store.report.skippedEntries + 1 }

def push (entry : KnowledgeEntry) (store : KnowledgeStore) : KnowledgeStore :=
  { store with entries := store.entries ++ [entry] }

-- One turn of the loop over the candidates, with `first_source_by_id`.
def consider (parse : Bytes → YamlOutcome) (state : KnowledgeStore × Finmap fun _ : Bytes => Bytes)
    (candidate : Located) : KnowledgeStore × Finmap fun _ : Bytes => Bytes :=
  let (store, firstSourceById) := state
  let entryDirectory := candidate.path store.root
  match relativeComponents candidate with
  | category :: _ :: _ =>
    match loadEntry parse candidate.directory.metadata candidate.directory.content
        entryDirectory category with
    | (diagnostics, none) => ((store.diagnose diagnostics).skip, firstSourceById)
    | (diagnostics, some entry) =>
      let store := store.diagnose diagnostics
      match firstSourceById.lookup entry.id with
      | some source => ((store.diagnose [duplicateDiagnostic entry source]).skip, firstSourceById)
      | none        => (store.push entry, firstSourceById.insert entry.id entry.sourceDirectory)
  | _ =>
    ((store.diagnose [addDiagnostic entryDirectory (candidateId entryDirectory) <|
      ascii "entry must be stored below a category directory"]).skip, firstSourceById)

def sortAndRebuild (store : KnowledgeStore) : KnowledgeStore :=
  let entries := sortEntries store.entries
  { store with entries, idLookup := rebuildLookup entries, report.loadedEntries := entries.length }

-- A root that fails while it is read is cleared a second time.
def loadTree (parse : Bytes → YamlOutcome) (tree : KnowledgeTree) (store : KnowledgeStore) :
    KnowledgeStore :=
  match scanDirectory true store.root tree.val.located with
  | (diagnostics, none) =>
    let store := store.diagnose diagnostics
    if tree.val.openError.isSome then store else { store with entries := [], idLookup := ∅ }
  | (diagnostics, some found) =>
    let store := { store.diagnose diagnostics with report.rootAvailable := true }
    let (later, directories) := scan store.root found
    let store := store.diagnose later
    let candidates := candidates store.root (tree.val.located :: directories)
    let store := { store with report.discoveredEntries := candidates.length }
    let store := (candidates.foldl (consider parse) (store, ∅)).1.sortAndRebuild
    store.diagnose <| store.entries.flatMap (relatedDiagnostics store.idLookup)

def load (parse : Bytes → YamlOutcome) (directory : Bytes) (outcome : KnowledgeRoot)
    (store : KnowledgeStore) : KnowledgeStore :=
  let store := store.clear directory
  let fail (message : Bytes) := store.diagnose [KnowledgeBase.rootError store.root message]
  match outcome with
  | .missing              => fail <| ascii "knowledge root does not exist"
  | .inspectError message => fail <| ascii "cannot inspect knowledge root: " ++ message
  | .notDirectory         => fail <| ascii "knowledge root is not a directory"
  | .tree tree            => store.loadTree parse tree

def findById (store : KnowledgeStore) (id : Bytes) : Option KnowledgeEntry :=
  (store.idLookup.lookup id).bind (store.entries[·]?)

end KnowledgeStore

-- A call of `load`, with what the YAML parser and the file system answer while it runs.
structure LoadCall where
  parse     : Bytes → YamlOutcome
  directory : Bytes
  outcome   : KnowledgeRoot

def LoadCall.apply (store : KnowledgeStore) (call : LoadCall) : KnowledgeStore :=
  store.load call.parse call.directory call.outcome

def KnowledgeBase.store (knowledge : KnowledgeBase) : KnowledgeStore where
  root     := knowledge.root
  entries  := knowledge.entries
  idLookup := knowledge.idLookup
  report   := knowledge.report

end Howlinux
