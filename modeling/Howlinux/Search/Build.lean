import Howlinux.Search.Index

open Bytes

namespace Howlinux

-- A document as an index stores it, with the set in which `build` gathers the tokens of its fields.
structure IndexedDocument where
  document  : EntryDocument
  allTokens : Finset Bytes

-- The members of an index, as `build` fills them in.
structure IndexMembers (K : Type) where
  documents          : List IndexedDocument := []
  postings           : Postings := ∅
  idf                : Finmap fun _ : Bytes => K := ∅
  knownCommands      : Finset Bytes := ∅
  vocabulary         : List Bytes := []
  vocabularyByLength : Finmap fun _ : ℕ => List Bytes := ∅

-- The places where `build` walks through a hash container, for the fields of each document.
inductive Walk
  | idTokens (index : ℕ)
  | titleTokens (index : ℕ)
  | aliasTokens (index : ℕ)
  | keywordTokens (index : ℕ)
  | commandTokens (index : ℕ)
  | conceptTokens (index : ℕ)
  | allTokens (index : ℕ)
  | postings
  deriving DecidableEq, Repr

abbrev Walks :=
  Walk → HashOrder Bytes

def addTokens (target : Finset Bytes) (values : List Bytes) : Finset Bytes :=
  values.foldl (fun target value => insert value target) target

section

variable (walks : Walks)

def gatherTokens (index : ℕ) (document : EntryDocument) : Finset Bytes :=
  let allTokens := addTokens ∅ ((walks <| .idTokens index).list document.idTokens)
  let allTokens := addTokens allTokens ((walks <| .titleTokens index).list document.titleTokens)
  let allTokens := addTokens allTokens ((walks <| .aliasTokens index).list document.aliasTokens)
  let allTokens := addTokens allTokens ((walks <| .keywordTokens index).list document.keywordTokens)
  let allTokens := addTokens allTokens ((walks <| .commandTokens index).list document.commandTokens)
  addTokens allTokens ((walks <| .conceptTokens index).list document.conceptTokens)

namespace IndexMembers

variable {K : Type} (members : IndexMembers K)

-- Each of the members is cleared.
def clear (_members : IndexMembers K) : IndexMembers K where
  documents          := []
  postings           := ∅
  idf                := ∅
  knownCommands      := ∅
  vocabulary         := []
  vocabularyByLength := ∅

def addDocument (concepts : ConceptDictionary) (entry : KnowledgeEntry) : IndexMembers K :=
  let document := entryDocument concepts entry
  { members with
    documents     := members.documents ++ [⟨document, gatherTokens walks members.documents.length document⟩]
    knownCommands := if entry.command.isEmpty then members.knownCommands else
      addTokens members.knownCommands (tokenize entry.command false) }

def addPostings (document : IndexedDocument × ℕ) : IndexMembers K := { members with
  postings := ((walks <| .allTokens document.2).list document.1.allTokens).foldl (addPosting document.2)
    members.postings }

def addLength (token : Bytes) : IndexMembers K := { members with
  vocabularyByLength := members.vocabularyByLength.push token.length token }

section

variable [NatCast K] [Add K] [Div K] [OfScientific K] (log : K → K)

def finishToken (token : Bytes) : IndexMembers K :=
  let indices := (members.postings.lookup token).getD []
  let indices := (indices.sortBy fun left right => decide (left < right)).unique id
  { members with
    postings   := members.postings.insert token indices
    idf        := members.idf.insert token <|
      log (((members.documents.length : K) + 1.0) / ((indices.length : K) + 1.0)) + 1.0
    vocabulary := members.vocabulary ++ [token] }

def sortVocabulary : IndexMembers K := { members with
  vocabulary := members.vocabulary.sortBy fun left right => decide (left < right) }

-- `members` is what the index held before.
def build (knowledge : KnowledgeBase) (concepts : ConceptDictionary) : IndexMembers K :=
  let members := knowledge.entries.foldl (addDocument walks · concepts) members.clear
  let members := members.documents.zipIdx.foldl (addPostings walks) members
  let members := ((walks .postings).list members.postings.keys).foldl (finishToken · log) members
  let members := members.sortVocabulary
  members.vocabulary.foldl addLength members

end

end IndexMembers

end

end Howlinux
