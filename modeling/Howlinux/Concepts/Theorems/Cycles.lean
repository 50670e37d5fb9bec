import Howlinux.Concepts.Cycles
import Howlinux.Library.Cycles

open Bytes List Relation

namespace Howlinux

-- The graph of a concepts file leads from a canonical to the other canonicals among its aliases.
def Refers (groups : List ParsedConceptGroup) (canonical destination : Bytes) : Prop :=
  ∃ group ∈ groups, group.canonical = canonical ∧ destination ∈ group.aliases ∧
    destination ≠ canonical ∧ destination ∈ groups.map (·.canonical)

-- An error that shows a cycle of the graph.
def Shows (path : Bytes) (groups : List ParsedConceptGroup) (error : Diagnostic) : Prop :=
  ∃ canonical loop, IsCycle (Refers groups) loop ∧ error = addError path canonical
    (ascii "circular concept definition: " ++ (ascii " -> ").intercalate loop)

namespace CycleSearch

def Completed (search : CycleSearch) : Set Bytes :=
  { canonical | search.states.lookup canonical = some .complete }

-- What holds of a search that found no cycle so far: it visits the canonicals on its stack, which
-- is a walk, and no cycle runs through those it completed.
structure Searching (groups : List ParsedConceptGroup) (search : CycleSearch) : Prop where
  unreported : search.cycle = none
  visiting   : ∀ canonical, search.states.lookup canonical = some .visiting ↔ canonical ∈ search.stack
  edges      : search.stack.IsChain (Refers groups)
  settled    : Settled (Refers groups) search.Completed

-- What a visit leads to, unless it finds a cycle.
structure Visited (groups : List ParsedConceptGroup) (search search' : CycleSearch) : Prop
    extends Searching groups search' where
  stack     : search'.stack = search.stack
  completed : search.Completed ⊆ search'.Completed

def Found (path : Bytes) (groups : List ParsedConceptGroup) (search : CycleSearch) : Prop :=
  ∃ error, search.cycle = some error ∧ Shows path groups error

def Outcome (path : Bytes) (groups : List ParsedConceptGroup) (visited : List Bytes)
    (search search' : CycleSearch) : Prop :=
  Found path groups search' ∨ (Visited groups search search' ∧ ∀ canonical ∈ visited, canonical ∈ search'.Completed)

section

variable {path canonical destination : Bytes} {groups : List ParsedConceptGroup} {search search' : CycleSearch}

theorem Searching.visited (h : Searching groups search) : Visited groups search search :=
  { h with stack := rfl, completed := subset_rfl }

theorem Visited.trans {search'' : CycleSearch} (h : Visited groups search search')
    (h' : Visited groups search' search'') : Visited groups search search'' :=
  { h' with stack := h'.stack.trans h.stack, completed := h.completed.trans h'.completed }

theorem completed_enter (hn : canonical ∉ search.states) : (search.enter canonical).Completed = search.Completed := by
  ext c
  by_cases hc : c = canonical
  case pos => simp [Completed, enter, hc, Finmap.lookup_eq_none.mpr hn]
  case neg => simp [Completed, enter, Finmap.lookup_insert_of_ne _ hc]

theorem Searching.enter (h : Searching groups search) (hn : canonical ∉ search.states)
    (he : (search.stack ++ [canonical]).IsChain (Refers groups)) : Searching groups (search.enter canonical) where
  unreported := h.unreported
  edges      := he
  settled    := completed_enter hn ▸ h.settled
  visiting c := by
    by_cases hc : c = canonical
    case pos => subst hc; simp [CycleSearch.enter]
    case neg => simp [CycleSearch.enter, Finmap.lookup_insert_of_ne _ hc, hc, h.visiting]

theorem completed_leave (h : search.cycle = none) :
    (search.leave canonical).Completed = insert canonical search.Completed := by
  ext c
  by_cases hc : c = canonical
  case pos => simp [Completed, leave, h, hc]
  case neg => simp [Completed, leave, h, hc, Finmap.lookup_insert_of_ne _ hc]

-- A canonical is completed once all its destinations are.
theorem Visited.leave (h : Searching groups search) (hn : canonical ∉ search.states)
    (hv : Visited groups (search.enter canonical) search')
    (hd : ∀ destination, Refers groups canonical destination → destination ∈ search'.Completed) :
    Visited groups search (search'.leave canonical) where
  unreported := by simp [CycleSearch.leave, hv.unreported]
  stack      := by simp [CycleSearch.leave, hv.unreported, hv.stack, CycleSearch.enter]
  edges      := by simpa [CycleSearch.leave, hv.unreported, hv.stack, CycleSearch.enter] using h.edges
  completed  := by
    rw [completed_leave hv.unreported, ← completed_enter hn]
    exact hv.completed.trans <| Set.subset_insert ..
  settled    := by
    have hs : canonical ∈ search'.stack := by simp [hv.stack, CycleSearch.enter]
    have hc : canonical ∉ search'.Completed := by simp [Completed, (hv.visiting canonical).mpr hs]
    exact completed_leave hv.unreported ▸ hv.settled.insert hc hd
  visiting c := by
    have hm := hv.visiting c
    by_cases hc : c = canonical
    case pos =>
      subst hc
      have hs := (h.visiting c).not.mp (by simp [Finmap.lookup_eq_none.mpr hn])
      simpa [CycleSearch.leave, hv.unreported, hv.stack, CycleSearch.enter] using hs
    case neg =>
      simpa [CycleSearch.leave, hv.unreported, hc, hv.stack, CycleSearch.enter, Finmap.lookup_insert_of_ne _ hc]
        using hm

-- An edge to a canonical on the stack closes a cycle.
theorem shows_cycleError (hs : Searching groups search) (ht : search.stack.getLast? = some canonical)
    (hd : Refers groups canonical destination) (hm : destination ∈ search.stack) :
    Shows path groups (cycleError path canonical destination search.stack) := by
  have he : (search.stack ++ [destination]).IsChain (Refers groups) :=
    hs.edges.append (.singleton _) (by simp [ht, hd])
  have hn : search.stack.dropWhile (· != destination) ≠ [] := by
    simpa [dropWhile_eq_nil_iff] using hm
  refine ⟨canonical, _, isCycle_dropWhile he hm, ?_⟩
  rw [cycleError, intercalate_concat hn]
  simp

-- What `visit` does for a canonical that is not visited yet.
def Visits (path : Bytes) (groups : List ParsedConceptGroup) (recur : Bytes → CycleSearch → Option CycleSearch) : Prop :=
  ∀ canonical search search', Searching groups search → canonical ∉ search.states →
    (search.stack ++ [canonical]).IsChain (Refers groups) → recur canonical search = some search' →
    Outcome path groups [canonical] search search'

variable {recur : Bytes → CycleSearch → Option CycleSearch} {destinations : List Bytes}

theorem outcome_followEdge (hv : Visits path groups recur) (hs : Searching groups search)
    (ht : search.stack.getLast? = some canonical) (hd : Refers groups canonical destination)
    (h : followEdge recur path canonical search destination = some search') :
    Outcome path groups [destination] search search' := by
  rw [followEdge, hs.unreported, if_neg (by simp)] at h
  cases hl : search.states.lookup destination
  case none =>
    have he : (search.stack ++ [destination]).IsChain (Refers groups) :=
      hs.edges.append (.singleton _) (by simp [ht, hd])
    exact hv destination search search' hs (Finmap.lookup_eq_none.mp hl) he (by simpa [hl] using h)
  case some state =>
    simp only [hl] at h
    cases state
    case visiting =>
      cases h
      exact .inl ⟨_, rfl, shows_cycleError hs ht hd <| (hs.visiting destination).mp hl⟩
    case complete =>
      cases h
      exact .inr ⟨hs.visited, forall_mem_singleton.mpr hl⟩

-- A loop of the search stops at the first cycle, and leaves the stack alone as long as there is none.
theorem outcome_foldlM {α : Type*} {step : CycleSearch → α → Option CycleSearch} {key : α → Bytes} {items : List α}
    {stack : List Bytes} (hr : ∀ search item, search.cycle.isSome → step search item = some search)
    (hf : ∀ item ∈ items, ∀ search search', Searching groups search → search.stack = stack →
      step search item = some search' → Outcome path groups [key item] search search')
    (hs : Searching groups search) (ht : search.stack = stack) (h : items.foldlM step search = some search') :
    Outcome path groups (items.map key) search search' := by
  induction items generalizing search
  case nil =>
    cases h
    exact .inr ⟨hs.visited, by simp⟩
  case cons item rest hi =>
    have ⟨hf, hf'⟩ := forall_mem_cons.mp hf
    rw [foldlM_cons] at h
    have ⟨next, hn, h⟩ := Option.bind_eq_some_iff.mp h
    rcases hf search next hs ht hn with ⟨error, he, hc⟩ | ⟨hn, hm⟩
    case inl =>
      have hk : rest.foldlM step next = some next :=
        foldlM_eq_some_self fun _ _ => hr next _ (Option.isSome_of_eq_some he)
      rw [hk] at h
      cases h
      exact .inl ⟨error, he, hc⟩
    case inr =>
      refine (hi hf' hn.toSearching (hn.stack.trans ht) h).imp_right fun ⟨hv, hc⟩ => ⟨hn.trans hv, ?_⟩
      exact forall_mem_cons.mpr ⟨hv.completed <| hm _ mem_cons_self, hc⟩

-- By induction on the fuel, the calls of `visit` for the destinations do what they should.
theorem visits_visit {fuel : ℕ} : Visits path groups (Howlinux.visit path (conceptGraph groups) fuel) := by
  induction fuel
  case zero => intro _ _ _ _ _ _ h; contradiction
  case succ fuel hi =>
    intro canonical search search' hs hn he h
    rw [Howlinux.visit, hs.unreported, if_neg (by simp)] at h
    obtain ⟨last, hl, h⟩ := Option.map_eq_some_iff.mp h
    have hd : ∀ destination, destination ∈ (conceptGraph groups).destinations canonical ↔
        Refers groups canonical destination := fun _ => mem_destinations_conceptGraph
    have hr (search : CycleSearch) (destination : Bytes) (hc : search.cycle.isSome) :
        followEdge (Howlinux.visit path (conceptGraph groups) fuel) path canonical search destination = some search :=
      if_pos hc
    have hf : ∀ destination ∈ (conceptGraph groups).destinations canonical, ∀ search' search'',
        Searching groups search' → search'.stack = search.stack ++ [canonical] →
        followEdge (Howlinux.visit path (conceptGraph groups) fuel) path canonical search' destination =
          some search'' →
        Outcome path groups [id destination] search' search'' := fun destination hm search' search'' hs' ht h =>
      outcome_followEdge hi hs' (by simp [ht]) ((hd destination).mp hm) h
    rcases outcome_foldlM hr hf (hs.enter hn he) rfl hl with ⟨error, hc, hf⟩ | ⟨hv, hc⟩
    case inl =>
      have hl : last.leave canonical = last := by simp [leave, hc]
      exact .inl ⟨error, by rw [← h, hl, hc], hf⟩
    case inr =>
      rw [map_id] at hc
      have hv' := hv.leave hs hn fun destination hr => hc destination <| (hd destination).mpr hr
      refine h ▸ .inr ⟨hv', ?_⟩
      simp [completed_leave hv.unreported]

-- Every group is visited, one way or the other.
theorem outcome_visitGroups {fuel : ℕ} (h : visitGroups path groups fuel = some search) :
    Outcome path groups (groups.map (·.canonical)) {} search := by
  have hs : Searching groups {} :=
    { unreported := rfl, visiting := by simp, edges := .nil, settled := by simpa [Completed] using Settled.empty }
  refine outcome_foldlM ?_ ?_ hs rfl h
  case refine_1 =>
    intro search group hc
    rw [hc]
    rfl
  case refine_2 =>
    intro group _ search search' hs ht h
    rw [hs.unreported] at h
    split at h
    case isTrue hm =>
      cases h
      have ⟨state, hl⟩ := Finmap.mem_iff.mp (by simpa using hm : group.canonical ∈ search.states)
      refine .inr ⟨hs.visited, forall_mem_singleton.mpr ?_⟩
      cases state
      case complete => exact hl
      case visiting =>
        have hm := (hs.visiting group.canonical).mp hl
        simp [ht] at hm
    case isFalse hm =>
      have hn : group.canonical ∉ search.states := by simpa using hm
      exact visits_visit group.canonical search search' hs hn (by simp [ht]) h

end

end CycleSearch

section

variable {path canonical : Bytes} {groups : List ParsedConceptGroup} {graph : ConceptGraph}
  {search search' : CycleSearch} {fuel fuel' : ℕ}

-- A recursion that ends does so with any greater fuel.
theorem visit_mono (hf : fuel ≤ fuel') (h : visit path graph fuel canonical search = some search') :
    visit path graph fuel' canonical search = some search' := by
  induction fuel generalizing canonical search search' fuel'
  case zero => contradiction
  case succ fuel hi =>
    obtain ⟨fuel', rfl⟩ := Nat.exists_eq_add_one_of_ne_zero (by omega : fuel' ≠ 0)
    rw [visit] at h ⊢
    split at h
    case isTrue hc => rwa [if_pos hc]
    case isFalse hc =>
      obtain ⟨last, hl, he⟩ := Option.map_eq_some_iff.mp h
      have hl := foldlM_eq_some_of_imp (g := followEdge (visit path graph fuel') path canonical) ?_ hl
      case refine_1 =>
        intro search destination search' h
        unfold followEdge at h ⊢
        split at h
        case isTrue hc => rwa [if_pos hc]
        case isFalse hc =>
          rw [if_neg hc]
          split at h
          case h_1 hl => simpa only [hl] using hi (by omega) h
          all_goals simp_all
      rw [if_neg hc, hl, Option.map_some, he]

theorem visitGroups_mono (hf : fuel ≤ fuel') (h : visitGroups path groups fuel = some search) :
    visitGroups path groups fuel' = some search := by
  refine foldlM_eq_some_of_imp (fun search group search' h => ?_) h
  split at h
  case isTrue hc  => rwa [if_pos hc]
  case isFalse hc => rw [if_neg hc]; exact visit_mono hf h

theorem not_isCycle_of_completed (hs : Settled (Refers groups) search.Completed)
    (h : ∀ group ∈ groups, group.canonical ∈ search.Completed) : ¬∃ loop, IsCycle (Refers groups) loop := by
  intro ⟨loop, hl⟩
  have ⟨canonical, ht⟩ := hl.exists_transGen
  have ⟨_, ⟨group, hg, he, _⟩, _⟩ := TransGen.head'_iff.mp ht
  exact hs.acyclic canonical (he ▸ h group hg) ht

end

-- The search ends, and reports a cycle exactly when there is one.
theorem detectCycles_finds_cycles (groups : List ParsedConceptGroup) (path : Bytes) :
    (∀ fuel ≥ groups.length, (visitGroups path groups fuel).map (·.cycle.toList) = some (detectCycles groups path)) ∧
    ((∃ loop, IsCycle (Refers groups) loop) ∧ (∃ error, detectCycles groups path = [error] ∧ Shows path groups error) ∨
      (¬∃ loop, IsCycle (Refers groups) loop) ∧ detectCycles groups path = []) := by
  obtain ⟨search, hs⟩ := Option.isSome_iff_exists.mp <| visitGroups_isSome path groups
  have hd : detectCycles groups path = search.cycle.toList := by simp [detectCycles, hs]
  constructor
  case left => exact fun fuel hf => by rw [visitGroups_mono hf hs, Option.map_some, hd]
  case right =>
    rcases CycleSearch.outcome_visitGroups hs with ⟨error, he, hc⟩ | ⟨hv, hc⟩
    case inl =>
      obtain ⟨canonical, loop, hl, hm⟩ := hc
      exact .inl ⟨⟨loop, hl⟩, error, by rw [hd, he]; rfl, canonical, loop, hl, hm⟩
    case inr =>
      have hn := not_isCycle_of_completed hv.settled <| forall_mem_map.mp hc
      exact .inr ⟨hn, by rw [hd, hv.unreported]; rfl⟩

end Howlinux
