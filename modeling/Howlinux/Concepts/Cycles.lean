import Howlinux.Knowledge.Diagnostics
import Howlinux.Library.Hashed
import Howlinux.Library.Lists
import Howlinux.Library.Sorting

open Bytes

namespace Howlinux

structure ParsedConceptGroup where
  canonical  : Bytes
  sourceName : Bytes
  aliases    : List Bytes
  deriving DecidableEq, Repr

def addError (path conceptName message : Bytes) : Diagnostic where
  severity := .error
  path     := path
  entryId  := conceptName
  message  := message

-- `std::unique` after `std::sort` with the order of strings.
def sortedUnique (values : List Bytes) : List Bytes :=
  (values.sortBy fun left right => decide (left < right)).eraseDups

abbrev ConceptGraph :=
  Finmap fun _ : Bytes => List Bytes

def addEdges (canonicals : List Bytes) (graph : ConceptGraph) (group : ParsedConceptGroup) :
    ConceptGraph :=
  let destinations := (graph.lookup group.canonical).getD [] ++
    group.aliases.filter fun phrase => phrase != group.canonical && canonicals.contains phrase
  graph.insert group.canonical (sortedUnique destinations)

def conceptGraph (groups : List ParsedConceptGroup) : ConceptGraph :=
  groups.foldl (addEdges <| groups.map (·.canonical)) ∅

def ConceptGraph.destinations (graph : ConceptGraph) (canonical : Bytes) : List Bytes :=
  (graph.lookup canonical).getD []

inductive VisitState
  | visiting
  | complete
  deriving DecidableEq, Repr

-- `cycle` is the error of the source together with its flag `cycle_reported`.
structure CycleSearch where
  states : Finmap fun _ : Bytes => VisitState := ∅
  stack  : List Bytes := []
  cycle  : Option Diagnostic := none

def cycleError (path canonical destination : Bytes) (stack : List Bytes) : Diagnostic :=
  let loop := stack.dropWhile (· != destination)
  addError path canonical <|
    ascii "circular concept definition: " ++ (ascii " -> ").intercalate loop ++
    ascii " -> " ++ destination

def CycleSearch.enter (search : CycleSearch) (canonical : Bytes) : CycleSearch := { search with
  states := search.states.insert canonical .visiting
  stack  := search.stack ++ [canonical] }

-- A reported cycle leaves the stack as it is.
def CycleSearch.leave (search : CycleSearch) (canonical : Bytes) : CycleSearch :=
  if search.cycle.isSome then search else { search with
    stack  := search.stack.dropLast
    states := search.states.insert canonical .complete }

-- The body of the loop over the destinations of `canonical`.
def followEdge
    (visit : Bytes → CycleSearch → Option CycleSearch) (path canonical : Bytes)
    (search : CycleSearch) (destination : Bytes) : Option CycleSearch :=
  if search.cycle.isSome then
    some search
  else
    match search.states.lookup destination with
    | none           => visit destination search
    | some .visiting => some { search with
        cycle := some <| cycleError path canonical destination search.stack }
    | some .complete => some search

-- `none` stands for a recursion that is deeper than the fuel.
def visit (path : Bytes) (graph : ConceptGraph) : ℕ → Bytes → CycleSearch → Option CycleSearch
  | 0, _, _ => none
  | fuel + 1, canonical, search =>
    if search.cycle.isSome then
      some search
    else
      (graph.destinations canonical).foldlM (followEdge (visit path graph fuel) path canonical)
        (search.enter canonical) |>.map (·.leave canonical)

def visitGroups (path : Bytes) (groups : List ParsedConceptGroup) (fuel : ℕ) : Option CycleSearch :=
  groups.foldlM (fun search group =>
    if search.cycle.isSome || group.canonical ∈ search.states then
      some search
    else
      visit path (conceptGraph groups) fuel group.canonical search) {}

section

variable {canonicals : List Bytes} {graph : ConceptGraph} {groups : List ParsedConceptGroup}
  {canonical destination : Bytes}

@[simp]
theorem mem_sortedUnique {values : List Bytes} {value : Bytes} :
    value ∈ sortedUnique values ↔ value ∈ values := by
  simp [sortedUnique]

theorem mem_destinations_addEdges {group : ParsedConceptGroup} :
    destination ∈ (addEdges canonicals graph group).destinations canonical ↔
      destination ∈ graph.destinations canonical ∨ (group.canonical = canonical ∧
        destination ∈ group.aliases ∧ destination ≠ canonical ∧ destination ∈ canonicals) := by
  by_cases h : canonical = group.canonical
  case pos =>
    subst h
    simp [addEdges, ConceptGraph.destinations]
  case neg =>
    simp [addEdges, ConceptGraph.destinations, Finmap.lookup_insert_of_ne _ h, Ne.symm h]

-- The edges of the concept graph lead from a canonical to the other canonicals among its aliases.
theorem mem_destinations_conceptGraph :
    destination ∈ (conceptGraph groups).destinations canonical ↔ ∃ group ∈ groups,
      group.canonical = canonical ∧ destination ∈ group.aliases ∧ destination ≠ canonical ∧
        destination ∈ groups.map (·.canonical) := by
  have go (canonicals : List Bytes) (graph : ConceptGraph) (l : List ParsedConceptGroup) :
      destination ∈ (l.foldl (addEdges canonicals) graph).destinations canonical ↔
        destination ∈ graph.destinations canonical ∨ ∃ group ∈ l, group.canonical = canonical ∧
          destination ∈ group.aliases ∧ destination ≠ canonical ∧ destination ∈ canonicals := by
    induction l generalizing graph
    case nil         => simp
    case cons g l hi => simp [hi, mem_destinations_addEdges, or_assoc]
  have he : (∅ : ConceptGraph).destinations canonical = [] := by
    simp [ConceptGraph.destinations]
  simp [conceptGraph, go, he]

end

-- The canonicals a search has not reached yet. Every nested call of `visit` reaches a new one.
def unseen (groups : List ParsedConceptGroup) (search : CycleSearch) : Finset Bytes :=
  (groups.map (·.canonical)).toFinset \ search.states.keys

section

variable {canonical : Bytes} {groups : List ParsedConceptGroup} {search search' : CycleSearch}
  {fuel : ℕ}

theorem mem_unseen :
    canonical ∈ unseen groups search ↔
      canonical ∈ groups.map (·.canonical) ∧ canonical ∉ search.states := by
  simp only [unseen, Finset.mem_sdiff, List.mem_toFinset, Finmap.mem_keys]

theorem unseen_subset (h : search.states.keys ⊆ search'.states.keys) :
    unseen groups search' ⊆ unseen groups search :=
  Finset.sdiff_subset_sdiff subset_rfl h

theorem keys_subset_enter : search.states.keys ⊆ (search.enter canonical).states.keys := by
  intro c h
  simp_all [CycleSearch.enter, Finmap.mem_keys]

theorem keys_subset_leave : search.states.keys ⊆ (search.leave canonical).states.keys := by
  intro c h
  unfold CycleSearch.leave
  split <;> simp_all [Finmap.mem_keys]

theorem card_unseen_enter (hc : canonical ∈ groups.map (·.canonical))
    (hn : canonical ∉ search.states) :
    (unseen groups (search.enter canonical)).card < (unseen groups search).card := by
  apply Finset.card_lt_card
  apply Finset.ssubset_iff_subset_ne.mpr ⟨unseen_subset keys_subset_enter, ?_⟩
  intro he
  have := he ▸ mem_unseen.mpr ⟨hc, hn⟩
  simp [mem_unseen, CycleSearch.enter] at this

theorem visit_eq_some (path : Bytes) (hc : canonical ∈ groups.map (·.canonical)) (hn : canonical ∉ search.states)
    (hf : (unseen groups search).card ≤ fuel) :
    ∃ search', visit path (conceptGraph groups) fuel canonical search = some search' ∧
      search.states.keys ⊆ search'.states.keys := by
  induction fuel generalizing canonical search
  case zero =>
    have hm := mem_unseen.mpr ⟨hc, hn⟩
    simp [Finset.card_eq_zero.mp <| Nat.le_zero.mp hf] at hm
  case succ fuel hi =>
    by_cases hr : search.cycle.isSome
    case pos => exact ⟨search, by simp [visit, hr], subset_rfl⟩
    case neg =>
      have hm := card_unseen_enter hc hn
      have step (s : CycleSearch) (hs : (search.enter canonical).states.keys ⊆ s.states.keys)
          (destination : Bytes) (hd : destination ∈ (conceptGraph groups).destinations canonical) :
          ∃ s', followEdge (visit path (conceptGraph groups) fuel) path canonical s destination =
            some s' ∧ (search.enter canonical).states.keys ⊆ s'.states.keys := by
        have ⟨_, _, _, _, _, hg⟩ := mem_destinations_conceptGraph.mp hd
        have hu := Finset.card_le_card (unseen_subset hs : unseen groups s ⊆ _)
        unfold followEdge
        split
        · exact ⟨s, rfl, hs⟩
        · split
          case h_1 hl =>
            have hn := Finmap.lookup_eq_none.mp hl
            have ⟨s', he, hs'⟩ := hi hg hn (by omega)
            exact ⟨s', he, hs.trans hs'⟩
          all_goals exact ⟨_, rfl, hs⟩
      have ⟨s', he, hs'⟩ := List.exists_foldlM_eq_some step _ subset_rfl
      refine ⟨s'.leave canonical, by simp [visit, hr, he], ?_⟩
      exact keys_subset_enter.trans <| hs'.trans keys_subset_leave

theorem visitGroups_isSome (path : Bytes) (groups : List ParsedConceptGroup) :
    (visitGroups path groups groups.length).isSome := by
  have step (s : CycleSearch) (_ : True) (group : ParsedConceptGroup) (hg : group ∈ groups) :
      ∃ s', (if s.cycle.isSome || group.canonical ∈ s.states then some s
        else visit path (conceptGraph groups) groups.length group.canonical s) = some s' ∧ True := by
    split
    case isTrue => exact ⟨s, rfl, trivial⟩
    case isFalse h =>
      simp only [Bool.or_eq_true, decide_eq_true_eq, not_or] at h
      have hc := List.mem_map_of_mem (f := (·.canonical)) hg
      have hf : (unseen groups s).card ≤ groups.length :=
        (Finset.card_le_card Finset.sdiff_subset).trans <|
          (List.toFinset_card_le _).trans_eq <| List.length_map ..
      have ⟨s', he, _⟩ := visit_eq_some path hc h.right hf
      exact ⟨s', he, trivial⟩
  have ⟨s', he, _⟩ := List.exists_foldlM_eq_some step {} trivial
  rw [visitGroups, he, Option.isSome_some]

end

-- The nesting of `visit` never exceeds the number of groups.
def detectCycles (groups : List ParsedConceptGroup) (path : Bytes) : List Diagnostic :=
  ((visitGroups path groups groups.length).get <| visitGroups_isSome path groups).cycle.toList

theorem detectCycles_eq_nil {groups : List ParsedConceptGroup}
    (h : ∀ canonical, (conceptGraph groups).destinations canonical = []) (path : Bytes) :
    detectCycles groups path = [] := by
  have step (s : CycleSearch) (hs : s.cycle = none) (group : ParsedConceptGroup)
      (hg : group ∈ groups) :
      ∃ s', (if s.cycle.isSome || group.canonical ∈ s.states then some s
        else visit path (conceptGraph groups) groups.length group.canonical s) = some s' ∧
          s'.cycle = none := by
    have ⟨fuel, hf⟩ := Nat.exists_eq_succ_of_ne_zero <| List.length_pos_of_mem hg |>.ne'
    split
    · exact ⟨s, rfl, hs⟩
    · exact ⟨(s.enter group.canonical).leave group.canonical,
        by simp [hf, visit, hs, h], by simp [CycleSearch.enter, CycleSearch.leave, hs]⟩
  have ⟨s', he, hs'⟩ := List.exists_foldlM_eq_some step {} rfl
  have : visitGroups path groups groups.length = some s' := he
  simp [detectCycles, this, hs']

end Howlinux
