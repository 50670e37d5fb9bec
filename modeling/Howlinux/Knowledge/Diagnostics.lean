import Howlinux.Library.Bytes

open Bytes

namespace Howlinux

inductive DiagnosticSeverity
  | warning
  | error
  deriving DecidableEq, Repr

-- Paths are kept in the generic form in which they are printed and compared.
structure Diagnostic where
  severity : DiagnosticSeverity := .warning
  path     : Bytes
  entryId  : Bytes
  message  : Bytes
  deriving DecidableEq, Repr

def formatDiagnostic (diagnostic : Diagnostic) : Bytes :=
  ascii (if diagnostic.severity = .error then "error" else "warning") ++
  (if diagnostic.path.isEmpty then [] else ascii ": " ++ diagnostic.path) ++
  (if diagnostic.entryId.isEmpty then [] else ascii " (entry '" ++ diagnostic.entryId ++ ascii "')") ++
  (if diagnostic.message.isEmpty then [] else ascii ": " ++ diagnostic.message)

-- `operator/` of a path and a relative name.
def slash (path name : Bytes) : Bytes :=
  if path.isEmpty || path.getLast? == some (byte '/') then path ++ name else path ++ byte '/' :: name

theorem injective_slash (path : Bytes) : Function.Injective (slash path) := by
  intro name name' h
  unfold slash at h
  split at h
  case isTrue  => exact List.append_cancel_left h
  case isFalse => simpa using h

def isAbsolute (path : Bytes) : Bool :=
  path.head? == some (byte '/')

-- The names of a path, with `.` and `..` resolved as far as the text allows. The last of `names` comes
-- first.
def resolveNames (absolute : Bool) (names : List Bytes) (name : Bytes) : List Bytes :=
  if name.isEmpty || name == ascii "." then
    names
  else if name == ascii ".." then
    match names with
    | []          => if absolute then [] else [name]
    | last :: top => if last == ascii ".." then name :: names else top
  else
    name :: names

def lexicallyNormal (path : Bytes) : Bytes :=
  let absolute := path.head? == some (byte '/')
  let parts    := path.splitOn (byte '/')
  let names    := parts.foldl (resolveNames absolute) []
  let open'    := [[], ascii ".", ascii ".."].contains (parts.getLastD []) &&
    names.head?.any (· != ascii "..")
  let normal   := (if absolute then [byte '/'] else []) ++ [byte '/'].intercalate names.reverse ++
    (if open' then [byte '/'] else [])
  if path.isEmpty then [] else if normal.isEmpty then ascii "." else normal

-- What iterating over a path gives: the root directory, the names and an empty one behind a last slash.
def pathElements (path : Bytes) : List Bytes :=
  let parts := path.splitOn (byte '/')
  let names := parts.filter (!·.isEmpty)
  (if isAbsolute path then [[byte '/']] else []) ++ names ++
    (if !names.isEmpty && (parts.getLastD []).isEmpty then [[]] else [])

def commonLength (elements elements' : List Bytes) : ℕ :=
  ((elements.zip elements').takeWhile fun (element, element') => element == element').length

-- The elements of the path that leads from `base` to `path`, none if there is no such path.
def lexicallyRelative (path base : Bytes) : List Bytes :=
  let elements := pathElements path
  let common   := commonLength elements (pathElements base)
  let rest     := elements.drop common
  let left     := (pathElements base).drop common
  let up       := left.countP fun name => !name.isEmpty && name != ascii "." && name != ascii ".."
  let down     := left.count (ascii "..")
  if isAbsolute path ≠ isAbsolute base ∨ up < down then
    []
  else if up = down ∧ rest.head?.all (·.isEmpty) then
    [ascii "."]
  else
    List.replicate (up - down) (ascii "..") ++ rest

-- The nodes `yaml-cpp` hands to the loaders.
inductive Yaml
  | null
  | scalar (text : Bytes)
  | sequence (items : List Yaml)
  | map (items : List (Yaml × Yaml))

-- What loading a document ends in: a `YAML::Exception`, another exception or a node.
inductive YamlOutcome
  | yamlException (what : Bytes)
  | exception (what : Bytes)
  | node (root : Yaml)

end Howlinux
