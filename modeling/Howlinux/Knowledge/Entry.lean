import Howlinux.Knowledge.Diagnostics
import Howlinux.Library.Sorting

open Bytes

namespace Howlinux

structure KnowledgeEntry where
  id              : Bytes
  title           : Bytes
  type            : Bytes
  command         : Bytes
  aliases         : List Bytes
  keywords        : List Bytes
  related         : List Bytes
  intents         : List Bytes
  difficulty      : Bytes
  platforms       : List Bytes
  tags            : List Bytes
  examples        : List Bytes
  category        : Bytes
  sourceDirectory : Bytes
  content         : Bytes
  deriving DecidableEq, Repr

-- What the file system answers about a file an entry requires.
inductive FileOutcome
  | missing
  | inspectError (message : Bytes)
  | irregular
  | unopenable
  | unreadable
  | text (content : Bytes)
  deriving DecidableEq, Repr

def metadataFilename : Bytes := ascii "meta.yaml"

def contentFilename : Bytes := ascii "content.md"

def addDiagnostic (path entryId message : Bytes) : Diagnostic where
  severity := .warning
  path     := path
  entryId  := entryId
  message  := message

def isSpace (character : UInt8) : Bool :=
  (9 ≤ character && character ≤ 13) || character == byte ' '

def hasNonWhitespace (value : Bytes) : Bool :=
  value.any (!isSpace ·)

def isPortableEntryId (value : Bytes) : Bool :=
  if value.isEmpty || value.head? == some (byte '-') || value.getLast? == some (byte '-') then
    false
  else
    value.all fun character =>
      (byte 'a' ≤ character && character ≤ byte 'z') ||
      (byte '0' ≤ character && character ≤ byte '9') || character == byte '-'

-- The last component of a path.
def candidateId (entryDirectory : Bytes) : Bytes :=
  entryDirectory.rtakeWhile (· != byte '/')

def pathIsPresent (outcome : FileOutcome) : Bool :=
  outcome != .missing

def validateRegularFile (outcome : FileOutcome) (path entryId description : Bytes) :
    List Diagnostic × Bool :=
  match outcome with
  | .missing => ([addDiagnostic path entryId <| ascii "missing required " ++ description], false)
  | .inspectError message => ([addDiagnostic path entryId <|
      ascii "cannot inspect required " ++ description ++ ascii ": " ++ message], false)
  | .irregular => ([addDiagnostic path entryId <|
      description ++ ascii " must be a regular file (symbolic links are not accepted)"], false)
  | _ => ([], true)

-- Files that `validateRegularFile` turns down are never opened.
def readFileByteExact (outcome : FileOutcome) (path entryId description : Bytes) :
    List Diagnostic × Option Bytes :=
  match outcome with
  | .text content => ([], some content)
  | .unreadable => ([addDiagnostic path entryId <| ascii "failed while reading " ++ description], none)
  | _ => ([addDiagnostic path entryId <|
      ascii "cannot open " ++ description ++ ascii " for reading"], none)

-- What reading one field leaves behind: its diagnostics, the returned flag and the output variable.
structure FieldRead (α : Type*) where
  diagnostics : List Diagnostic := []
  valid       : Bool := true
  output      : α

def isField (field : Bytes) (item : Yaml × Yaml) : Bool :=
  match item.1 with
  | .scalar key => key == field
  | _           => false

-- `metadata[field]` of a mapping.
def field (metadata : List (Yaml × Yaml)) (field : Bytes) : Option Yaml :=
  (metadata.find? <| isField field).map (·.2)

section

variable (metadata : List (Yaml × Yaml)) (name path entryId : Bytes)

def readRequiredString : FieldRead Bytes :=
  match field metadata name with
  | none | some .null => {
      diagnostics := [addDiagnostic path entryId <|
        ascii "missing required metadata field '" ++ name ++ ascii "'"]
      valid       := false
      output      := [] }
  | some (.scalar output) =>
    if hasNonWhitespace output then { output } else {
      diagnostics := [addDiagnostic path entryId <|
        ascii "required metadata field '" ++ name ++ ascii "' must not be empty"]
      valid       := false
      output }
  | some _ => {
      diagnostics := [addDiagnostic path entryId <|
        ascii "metadata field '" ++ name ++ ascii "' must be a string"]
      valid       := false
      output      := [] }

def readOptionalString : FieldRead Bytes :=
  match field metadata name with
  | none => { output := [] }
  | some (.scalar output) => { output }
  | some _ => {
      diagnostics := [addDiagnostic path entryId <|
        ascii "metadata field '" ++ name ++ ascii "' must be a string when present"]
      valid       := false
      output      := [] }

def readItems (index : ℕ) : List Yaml → FieldRead (List Bytes)
  | [] => { output := [] }
  | .scalar text :: rest =>
    let read := readItems (index + 1) rest
    { read with output := text :: read.output }
  | _ :: rest =>
    let read := readItems (index + 1) rest
    { diagnostics := addDiagnostic path entryId (ascii "metadata field '" ++ name ++
        ascii "' item " ++ decimal index ++ ascii " must be a string") :: read.diagnostics
      valid       := false
      output      := read.output }

def readOptionalStringList : FieldRead (List Bytes) :=
  match field metadata name with
  | none => { output := [] }
  | some (.sequence items) =>
    let read := readItems name path entryId 0 items
    { read with output := if read.valid then read.output else [] }
  | some _ => {
      diagnostics := [addDiagnostic path entryId <|
        ascii "metadata field '" ++ name ++ ascii "' must be a list of strings"]
      valid       := false
      output      := [] }

end

def knownFields : List Bytes := [
  "id",        "title",    "type",       "command", "aliases",
  "keywords",  "related",  "intent",     "difficulty",
  "platforms", "tags",     "examples"].map ascii

def isKnownMetadataField (field : Bytes) : Bool :=
  field ∈ knownFields

-- The keys of the mapping. The output are the unknown fields.
def readKeys (path entryId : Bytes) (seenFields : Finset Bytes) :
    List (Yaml × Yaml) → FieldRead (List Bytes)
  | [] => { output := [] }
  | (.scalar field, _) :: rest =>
    if field ∈ seenFields then
      let read := readKeys path entryId seenFields rest
      { diagnostics := addDiagnostic path entryId (ascii "duplicate metadata field '" ++ field ++
          ascii "'") :: read.diagnostics
        valid       := false
        output      := read.output }
    else
      let read := readKeys path entryId (insert field seenFields) rest
      if isKnownMetadataField field then read else { read with output := field :: read.output }
  | _ :: rest =>
    let read := readKeys path entryId seenFields rest
    { diagnostics :=
        addDiagnostic path entryId (ascii "metadata field names must be strings") :: read.diagnostics
      valid       := false
      output      := read.output }

-- The entry without its content, which is read last.
def readMetadata (metadata : List (Yaml × Yaml)) (unknownFields : List Bytes)
    (entryDirectory category path provisionalId : Bytes) :
    List Diagnostic × Option KnowledgeEntry :=
  let id           := readRequiredString metadata (ascii "id") path provisionalId
  let diagnosticId := if hasNonWhitespace id.output then id.output else provisionalId
  let title        := readRequiredString metadata (ascii "title") path diagnosticId
  let type         := readRequiredString metadata (ascii "type") path diagnosticId
  let command      := readOptionalString metadata (ascii "command") path diagnosticId
  let difficulty   := readOptionalString metadata (ascii "difficulty") path diagnosticId
  let aliases      := readOptionalStringList metadata (ascii "aliases") path diagnosticId
  let keywords     := readOptionalStringList metadata (ascii "keywords") path diagnosticId
  let related      := readOptionalStringList metadata (ascii "related") path diagnosticId
  let intents      := readOptionalStringList metadata (ascii "intent") path diagnosticId
  let platforms    := readOptionalStringList metadata (ascii "platforms") path diagnosticId
  let tags         := readOptionalStringList metadata (ascii "tags") path diagnosticId
  let examples     := readOptionalStringList metadata (ascii "examples") path diagnosticId
  let unknown      := (unknownFields.sortBy fun left right => decide (left < right)).map fun field =>
    addDiagnostic path diagnosticId <|
      ascii "unknown metadata field '" ++ field ++ ascii "' was ignored"
  let diagnostics  := id.diagnostics ++ title.diagnostics ++ type.diagnostics ++
    command.diagnostics ++ difficulty.diagnostics ++ aliases.diagnostics ++ keywords.diagnostics ++
    related.diagnostics ++ intents.diagnostics ++ platforms.diagnostics ++ tags.diagnostics ++
    examples.diagnostics ++ unknown
  if id.valid && title.valid && type.valid && command.valid && difficulty.valid && aliases.valid &&
      keywords.valid && related.valid && intents.valid && platforms.valid && tags.valid &&
      examples.valid then
    (diagnostics, some {
      id              := id.output
      title           := title.output
      type            := type.output
      command         := command.output
      aliases         := aliases.output
      keywords        := keywords.output
      related         := related.output
      intents         := intents.output
      difficulty      := difficulty.output
      platforms       := platforms.output
      tags            := tags.output
      examples        := examples.output
      category        := category
      sourceDirectory := entryDirectory
      content         := [] })
  else
    (diagnostics, none)

def idDiagnostics (id path provisionalId : Bytes) : List Diagnostic :=
  (if isPortableEntryId id then [] else [addDiagnostic path id <|
    ascii "id should use lowercase ASCII letters, digits and hyphens only"]) ++
  (if id = provisionalId then [] else [addDiagnostic path id <|
    ascii "id does not match the entry directory name '" ++ provisionalId ++ ascii "'"])

def readContent (outcome : FileOutcome) (path : Bytes) (entry : KnowledgeEntry) :
    List Diagnostic × Option KnowledgeEntry :=
  match readFileByteExact outcome path entry.id (ascii "content file 'content.md'") with
  | (diagnostics, none) => (diagnostics, none)
  | (diagnostics, some content) =>
    if hasNonWhitespace content then
      (diagnostics, some { entry with content })
    else
      (diagnostics ++ [addDiagnostic path entry.id (ascii "content file must not be empty")], none)

section

variable (parse : Bytes → YamlOutcome) (metadata content : FileOutcome)

def loadMetadata (entryDirectory category : Bytes) : List Diagnostic × Option KnowledgeEntry :=
  let path          := slash entryDirectory metadataFilename
  let provisionalId := candidateId entryDirectory
  match readFileByteExact metadata path provisionalId (ascii "metadata file 'meta.yaml'") with
  | (diagnostics, none) => (diagnostics, none)
  | (_, some text) =>
    match parse text with
    | .yamlException what =>
      ([addDiagnostic path provisionalId <| ascii "invalid YAML: " ++ what], none)
    | .exception what =>
      ([addDiagnostic path provisionalId <| ascii "cannot parse metadata: " ++ what], none)
    | .node (.map items) =>
      let keys := readKeys path provisionalId ∅ items
      if keys.valid then
        readMetadata items keys.output entryDirectory category path provisionalId
      else
        (keys.diagnostics, none)
    | .node _ => ([addDiagnostic path provisionalId (ascii "metadata root must be a mapping")], none)

def loadEntry (entryDirectory category : Bytes) : List Diagnostic × Option KnowledgeEntry :=
  let metadataPath  := slash entryDirectory metadataFilename
  let contentPath   := slash entryDirectory contentFilename
  let provisionalId := candidateId entryDirectory
  let (metadataDiagnostics, metadataValid) :=
    validateRegularFile metadata metadataPath provisionalId (ascii "metadata file 'meta.yaml'")
  let (contentDiagnostics, contentValid) :=
    validateRegularFile content contentPath provisionalId (ascii "content file 'content.md'")
  if !metadataValid || !contentValid then
    (metadataDiagnostics ++ contentDiagnostics, none)
  else
    match loadMetadata parse metadata entryDirectory category with
    | (diagnostics, none) => (diagnostics, none)
    | (diagnostics, some entry) =>
      let (read, entry') := readContent content contentPath entry
      (diagnostics ++ idDiagnostics entry.id metadataPath provisionalId ++ read, entry')

end

end Howlinux
