import Howlinux.Knowledge.Entry
import Howlinux.Library.Lists

open Bytes

namespace Howlinux

-- What `symlink_status` answers about a child while the tree is scanned.
inductive Child (α : Type)
  | statusError (message : Bytes)
  | directory (directory : α)
  | symlink (toDirectory : Bool)
  | other

-- A directory as the loader sees it: the two files an entry requires, and what the directory iterator
-- yields, in the order in which the file system enumerates it.
inductive Directory
  | mk (metadata content : FileOutcome) (openError : Option Bytes)
      (children : List (Bytes × Child Directory)) (readError : Option Bytes)

namespace Directory

def metadata : Directory → FileOutcome
  | mk metadata .. => metadata

def content : Directory → FileOutcome
  | mk _ content .. => content

def openError : Directory → Option Bytes
  | mk _ _ openError .. => openError

def children : Directory → List (Bytes × Child Directory)
  | mk _ _ _ children _ => children

-- Only stepping over a child can fail.
def readError : Directory → Option Bytes
  | mk _ _ _ children readError => if children.isEmpty then none else readError

def subdirectory : Bytes × Child Directory → Option (Bytes × Directory)
  | (name, .directory directory) => some (name, directory)
  | _                            => none

-- The subdirectories the loader gets to see.
def subdirectories (directory : Directory) : List (Bytes × Directory) :=
  if directory.openError.isSome then [] else directory.children.filterMap subdirectory

end Directory

-- The names a file system gives to the children of a directory.
structure IsName (name : Bytes) : Prop where
  ne_nil   : name ≠ []
  ne_dot   : name ≠ ascii "."
  no_slash : byte '/' ∉ name

instance (name : Bytes) : Decidable (IsName name) :=
  decidable_of_iff (name ≠ [] ∧ name ≠ ascii "." ∧ byte '/' ∉ name)
    ⟨fun ⟨h₁, h₂, h₃⟩ => ⟨h₁, h₂, h₃⟩, fun ⟨h₁, h₂, h₃⟩ => ⟨h₁, h₂, h₃⟩⟩

-- A directory at or below the root, with the names that lead to it.
@[ext]
structure Located where
  names     : List Bytes
  directory : Directory

namespace Located

def path (root : Bytes) (located : Located) : Bytes :=
  located.names.foldl slash root

def child (located : Located) (child : Bytes × Directory) : Located where
  names     := located.names ++ [child.1]
  directory := child.2

def subdirectories (located : Located) : List Located :=
  located.directory.subdirectories.map located.child

def Reaches : Located → Located → Prop :=
  Relation.ReflTransGen fun upper lower => lower ∈ upper.subdirectories

theorem sum_sizeOf_subdirectory_lt (children : List (Bytes × Child Directory)) :
    ((children.filterMap Directory.subdirectory).map fun child => sizeOf child.2).sum <
      sizeOf children := by
  induction children
  case nil => simp
  case cons child children hi =>
    have ⟨name, child⟩ := child
    cases child
    case directory =>
      simp only [Directory.subdirectory, List.filterMap_cons, List.map_cons, List.sum_cons,
        List.cons.sizeOf_spec, Prod.mk.sizeOf_spec, Child.directory.sizeOf_spec]
      omega
    all_goals
      simp only [Directory.subdirectory, List.filterMap_cons, List.cons.sizeOf_spec]
      omega

-- A work-list that replaces a directory by its subdirectories gets smaller.
theorem sum_sizeOf_subdirectories_lt (located : Located) :
    (located.subdirectories.map (sizeOf ·.directory)).sum < sizeOf located.directory := by
  have hl := sum_sizeOf_subdirectory_lt located.directory.children
  have ⟨names, .mk metadata content openError children readError⟩ := located
  simp only [subdirectories, Directory.subdirectories, Directory.openError, Directory.children,
    Directory.mk.sizeOf_spec] at hl ⊢
  by_cases h : openError.isSome
  case pos => simp [h]
  case neg =>
    simp only [h, Bool.false_eq_true, if_false, List.map_map, Function.comp_def, child]
    omega

end Located

namespace Directory

def located (directory : Directory) : Located where
  names     := []
  directory := directory

-- The children of a directory have names, and no two of them have the same.
inductive WellFormed : Directory → Prop
  | intro :
    (∀ child ∈ directory.children, IsName child.1) → (directory.children.map (·.1)).Nodup →
    (∀ child ∈ directory.subdirectories, WellFormed child.2) → WellFormed directory

theorem WellFormed.isName : (WellFormed directory) → ∀ child ∈ directory.children, IsName child.1
  | intro h _ _ => h

theorem WellFormed.nodup : (WellFormed directory) → (directory.children.map (·.1)).Nodup
  | intro _ h _ => h

theorem WellFormed.subdirectories :
    (WellFormed directory) → ∀ child ∈ directory.subdirectories, WellFormed child.2
  | intro _ _ h => h

end Directory

abbrev KnowledgeTree :=
  { directory : Directory // directory.WellFormed }

end Howlinux
