import Howlinux.Knowledge.Theorems.Messages

open Bytes List

namespace Howlinux

-- The related ids are the edges of an undirected graph without loops.
structure IsGraph (entries : List KnowledgeEntry) : Prop where
  simple    : ∀ entry ∈ entries, entry.related.Nodup
  loopless  : ∀ entry ∈ entries, entry.id ∉ entry.related
  closed    : ∀ entry ∈ entries, ∀ relatedId ∈ entry.related, ∃ other ∈ entries, other.id = relatedId
  symmetric : ∀ entry ∈ entries, ∀ other ∈ entries, other.id ∈ entry.related → entry.id ∈ other.related

def relatedMessages : List String := [
  "related id '",
  "duplicate related id: '",
  "entry must not relate to itself"]

def Diagnostic.IsRelated (diagnostic : Diagnostic) : Prop :=
  Begins relatedMessages diagnostic.message

section

variable {knowledge : KnowledgeBase} {entry : KnowledgeEntry} {diagnostic : Diagnostic} {related : List Bytes}
  {relatedIds : Finset Bytes}

theorem findById_eq_some_iff {id : Bytes} : knowledge.findById id = some entry ↔
    entry ∈ knowledge.entries ∧ entry.id = id := by
  have hs : knowledge.findById id = knowledge.store.findById id := rfl
  have hn : (knowledge.entries.map (·.id)).Nodup := pairwise_map.mpr <| knowledge.sorted.imp ne_of_lt
  have hf {other : KnowledgeEntry} (h : knowledge.entries.find? (·.id = id) = some other) :
      other ∈ knowledge.entries ∧ other.id = id :=
    ⟨mem_of_find?_eq_some h, by simpa using find?_some h⟩
  rw [hs, KnowledgeStore.findById_eq_find?]
  constructor
  case mp  => exact hf
  case mpr =>
    intro ⟨hm, he⟩
    have ⟨other, ho⟩ : ∃ other, knowledge.entries.find? (·.id = id) = some other :=
      Option.isSome_iff_exists.mp <| find?_isSome.mpr ⟨entry, hm, by simp [he]⟩
    have ⟨hm', he'⟩ := hf ho
    exact inj_on_of_nodup_map hn hm' hm (he'.trans he.symm) ▸ ho

theorem lintRelated_cons_eq_nil_iff {relatedId : Bytes} :
    lintRelated knowledge entry relatedIds (relatedId :: related) = [] ↔
      relatedId ∉ relatedIds ∧ relatedId ≠ entry.id ∧
      (∀ other ∈ knowledge.findById relatedId, entry.id ∈ other.related) ∧
      lintRelated knowledge entry (insert relatedId relatedIds) related = [] := by
  have hr : (∀ other ∈ knowledge.findById relatedId, entry.id ∈ other.related) ↔
      (knowledge.findById relatedId).any (entry.id ∉ ·.related) = false := by
    cases knowledge.findById relatedId <;> simp
  rw [hr, lintRelated]
  split_ifs <;> simp_all

theorem mem_idLookup {id : Bytes} : id ∈ knowledge.idLookup ↔ ∃ other ∈ knowledge.entries, other.id = id := by
  rw [← Finmap.lookup_isSome, knowledge.lookup_eq, rebuildLookup, Finmap.lookup_foldl_emplace]
  simp only [Finmap.lookup_empty, Option.none_or, Option.isSome_map, find?_isSome, decide_eq_true_eq]
  constructor
  case mp =>
    rintro ⟨pair, hm, he⟩
    exact ⟨pair.1, fst_mem_of_mem_zipIdx hm, he⟩
  case mpr =>
    rintro ⟨other, hm, he⟩
    obtain ⟨i, hi⟩ := mem_iff_getElem?.mp hm
    exact ⟨(other, i), mem_zipIdx_iff_getElem?.mpr hi, he⟩

-- The lint of the related ids of an entry, with the ids in front of them.
theorem lintRelated_eq_nil_iff : lintRelated knowledge entry relatedIds related = [] ↔
    related.Nodup ∧ (∀ relatedId ∈ related, relatedId ∉ relatedIds) ∧ entry.id ∉ related ∧
      ∀ relatedId ∈ related, ∀ other ∈ knowledge.findById relatedId, entry.id ∈ other.related := by
  induction related generalizing relatedIds
  case nil => simp [lintRelated]
  case cons relatedId rest hi =>
    rw [lintRelated_cons_eq_nil_iff, hi]
    simp only [nodup_cons, mem_cons, forall_eq_or_imp, Finset.mem_insert, not_or, ne_comm (a := relatedId)]
    constructor
    case mp =>
      intro ⟨hs, he, ho, hn, hr, he', ho'⟩
      exact ⟨⟨fun hm => (hr relatedId hm).left rfl, hn⟩, ⟨hs, fun id hm => (hr id hm).right⟩, ⟨he, he'⟩, ho, ho'⟩
    case mpr =>
      intro ⟨⟨hm, hn⟩, ⟨hs, hr⟩, ⟨he, he'⟩, ho, ho'⟩
      exact ⟨hs, he, ho, hn, fun id hi => ⟨fun h => hm (h ▸ hi), hr id hi⟩, he', ho'⟩

theorem isRelated_of_mem_relatedDiagnostics {lookup : Finmap fun _ : Bytes => ℕ}
    (h : diagnostic ∈ relatedDiagnostics lookup entry) : diagnostic.IsRelated := by
  have ⟨_, _, he⟩ := mem_map.mp h
  exact he ▸ (Begins.literal (by simp [relatedMessages])).append.append

theorem isRelated_of_mem_lintRelated (h : diagnostic ∈ lintRelated knowledge entry relatedIds related) :
    diagnostic.IsRelated := by
  induction related generalizing relatedIds
  case nil => contradiction
  case cons relatedId rest hi =>
    simp only [lintRelated] at h
    split_ifs at h
    case neg => exact hi h
    all_goals
      cases mem_cons.mp h
    case pos.inl h     => exact h ▸ (Begins.literal (by simp [relatedMessages])).append.append
    case pos.inr h     => exact hi h
    case pos.inl h     => exact h ▸ .literal (by simp [relatedMessages])
    case pos.inr h     => exact hi h
    case pos.inl h     => exact h ▸ (Begins.literal (by simp [relatedMessages])).append.append
    case pos.inr h     => exact hi h

variable {parse : Bytes → YamlOutcome} {directory : Bytes} {outcome : KnowledgeRoot} {self : KnowledgeBase}
  {targets : LinkTargets} {order : HashOrder Bytes} {concepts : ConceptDictionary}

-- The messages for related ids in the report of a load are those for ids without an entry.
theorem mem_diagnostics_load_iff :
    (diagnostic ∈ (self.load parse directory outcome).report.diagnostics ∧ diagnostic.IsRelated) ↔
      diagnostic ∈ (self.load parse directory outcome).entries.flatMap
        (relatedDiagnostics (self.load parse directory outcome).idLookup) := by
  constructor
  case mp =>
    intro ⟨hm, hr⟩
    exact (mem_diagnostics_load hm).resolve_left fun hb => hb.not_begins (by decide +kernel) hr
  case mpr =>
    intro h
    have ⟨_, _, hd⟩ := mem_flatMap.mp h
    exact ⟨mem_diagnostics_load_of_related h, isRelated_of_mem_relatedDiagnostics hd⟩

theorem mem_diagnostics_lint_iff :
    (diagnostic ∈ (knowledge.lint targets order concepts).diagnostics ∧ diagnostic.IsRelated) ↔
      diagnostic ∈ knowledge.entries.flatMap fun entry => lintRelated knowledge entry ∅ entry.related := by
  constructor
  case mp =>
    intro ⟨hm, hr⟩
    cases mem_append.mp hm
    case inl hm => exact (mem_lintEntries hm).resolve_left fun hb => hb.not_begins (by decide +kernel) hr
    case inr hm =>
      have ⟨_, _, he⟩ := mem_map.mp hm
      subst he
      have hb : Begins ["concept is not used"] (ascii "concept is not used by any searchable entry metadata") :=
        ⟨_, mem_singleton_self _, by decide +kernel⟩
      exact absurd hr <| hb.not_begins (by decide +kernel)
  case mpr =>
    intro h
    have ⟨_, _, hd⟩ := mem_flatMap.mp h
    exact ⟨mem_append_left _ <| mem_lintEntries_of_related h, isRelated_of_mem_lintRelated hd⟩

end

-- A load finds the ids that lead nowhere, and the lint everything else that keeps the entries from being a graph.
theorem related_clean_iff (parse : Bytes → YamlOutcome) (directory : Bytes) (outcome : KnowledgeRoot)
    (self : KnowledgeBase) (targets : LinkTargets) (order : HashOrder Bytes) (concepts : ConceptDictionary) :
    let knowledge := self.load parse directory outcome
    let report    := knowledge.lint targets order concepts
    (∀ diagnostic ∈ knowledge.report.diagnostics ++ report.diagnostics, ¬diagnostic.IsRelated) ↔
      IsGraph knowledge.entries := by
  intro knowledge report
  have hload : (∀ diagnostic ∈ knowledge.report.diagnostics, ¬diagnostic.IsRelated) ↔
      ∀ entry ∈ knowledge.entries, relatedDiagnostics knowledge.idLookup entry = [] := by
    rw [← flatMap_eq_nil_iff, eq_nil_iff_forall_not_mem]
    exact forall_congr' fun _ => not_and.symm.trans <| not_congr mem_diagnostics_load_iff
  have hlint : (∀ diagnostic ∈ report.diagnostics, ¬diagnostic.IsRelated) ↔
      ∀ entry ∈ knowledge.entries, lintRelated knowledge entry ∅ entry.related = [] := by
    rw [← flatMap_eq_nil_iff, eq_nil_iff_forall_not_mem]
    exact forall_congr' fun _ => not_and.symm.trans <| not_congr mem_diagnostics_lint_iff
  have hnone (entry : KnowledgeEntry) : relatedDiagnostics knowledge.idLookup entry = [] ↔
      ∀ relatedId ∈ entry.related, ∃ other ∈ knowledge.entries, other.id = relatedId := by
    simp [relatedDiagnostics, mem_idLookup]
  simp only [forall_mem_append, hload, hnone, hlint, lintRelated_eq_nil_iff]
  constructor
  case mp  =>
    intro ⟨hc, h⟩
    exact {
      simple    := fun entry he => (h entry he).left
      loopless  := fun entry he => (h entry he).right.right.left
      closed    := hc
      symmetric := fun entry he other ho hr =>
        (h entry he).right.right.right other.id hr other (findById_eq_some_iff.mpr ⟨ho, rfl⟩) }
  case mpr =>
    intro h
    refine ⟨h.closed, fun entry he => ⟨h.simple entry he, by simp, h.loopless entry he, ?_⟩⟩
    intro relatedId hr other ho
    have ⟨ho, hid⟩ := findById_eq_some_iff.mp ho
    exact h.symmetric entry he other ho (hid ▸ hr)

end Howlinux
