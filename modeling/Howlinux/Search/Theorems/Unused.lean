import Howlinux.Knowledge.Theorems.Related
import Howlinux.Search.Theorems.Points

open Bytes List

namespace Howlinux

def unusedMessage : Bytes :=
  ascii "concept is not used by any searchable entry metadata"

-- The diagnostic for a concept that nothing is found by.
def Diagnostic.ReportsUnused (diagnostic : Diagnostic) (canonical : Bytes) : Prop :=
  diagnostic.entryId = canonical ∧ diagnostic.message = unusedMessage

instance (diagnostic : Diagnostic) (canonical : Bytes) : Decidable (diagnostic.ReportsUnused canonical) :=
  inferInstanceAs <| Decidable (_ ∧ _)

def ConceptDictionary.IsCanonical (concepts : ConceptDictionary) (canonical : Bytes) : Prop :=
  ∃ phrase, concepts.phraseToCanonical.lookup phrase = some canonical

section

variable {knowledge : KnowledgeBase} {concepts : ConceptDictionary} {order order' : HashOrder Bytes}
  {targets : LinkTargets} {entry : KnowledgeEntry} {canonical : Bytes} {diagnostic : Diagnostic}

-- The lint and the index go through the same texts of an entry, in another order.
theorem mem_collectConcepts :
    canonical ∈ collectConcepts concepts entry ↔ canonical ∈ (entryDocument concepts entry).conceptTokens := by
  simp only [collectConcepts, entryDocument, addConcepts, mem_toFinset, mem_flatMap, mem_cons, mem_append]
  refine exists_congr fun value => and_congr_left' ?_
  simp only [not_mem_nil, or_false]
  tauto

theorem mem_canonicalConcepts : canonical ∈ canonicalConcepts order concepts ↔ concepts.IsCanonical canonical := by
  simp only [canonicalConcepts, mem_sortedUnique, mem_filterMap, order.mem, Finmap.mem_keys]
  refine exists_congr fun phrase => and_iff_right_of_imp fun h => Finmap.mem_of_lookup_eq_some h

theorem nodup_canonicalConcepts : (canonicalConcepts order concepts).Nodup :=
  nodup_eraseDups _

-- Nothing else that the lint reports is for a concept.
theorem not_reportsUnused_of_mem_lintEntries {known : Finmap fun _ : Bytes => Bytes}
    (h : diagnostic ∈ lintEntries targets knowledge known knowledge.entries) :
    ¬diagnostic.ReportsUnused canonical := by
  have hu : Begins ["concept "] unusedMessage := ⟨_, mem_singleton_self _, by decide +kernel⟩
  intro ⟨_, he⟩
  rw [← he] at hu
  cases mem_lintEntries h
  case inl hb => exact hu.not_begins (by decide +kernel) hb
  case inr hm =>
    have ⟨_, _, hm⟩ := mem_flatMap.mp hm
    exact hu.not_begins (by decide +kernel) (isRelated_of_mem_lintRelated hm)

theorem filter_reportsUnused : ((knowledge.lint targets order concepts).diagnostics.filter
      (·.ReportsUnused canonical)).map (·.entryId) =
    ((canonicalConcepts order concepts).filter
      (!(knowledge.entries.flatMap <| collectConcepts concepts).contains ·)).filter (· = canonical) := by
  have he : (lintEntries targets knowledge ∅ knowledge.entries).filter (·.ReportsUnused canonical) = [] :=
    filter_eq_nil_iff.mpr fun _ hm => by simpa using not_reportsUnused_of_mem_lintEntries hm
  simp only [KnowledgeBase.lint, filter_append, he, nil_append, lintConcepts, filter_map, map_map]
  refine Eq.trans (map_congr_left fun _ _ => rfl) (map_id _) |>.trans ?_
  refine filter_congr fun _ _ => ?_
  simp [Diagnostic.ReportsUnused, addLintDiagnostic, addDiagnostic, unusedMessage]

end

variable {K : Type} [Field K] [LinearOrder K]

-- The lint reports the concepts that no entry can earn anything for, each of them once.
theorem unused_iff (numerics : Numerics K) (config : SearchConfig K) (knowledge : KnowledgeBase)
    (concepts : ConceptDictionary) (order order' : HashOrder Bytes) (targets : LinkTargets) (canonical : Bytes) :
    let index   := InvertedIndex.build order knowledge concepts
    let reports := (knowledge.lint targets order' concepts).diagnostics.filter (·.ReportsUnused canonical)
    (reports ≠ [] ↔ concepts.IsCanonical canonical ∧
      ∀ document ∈ index.documents, canonical ∉ document.conceptTokens) ∧
    reports.length ≤ 1 ∧
    (reports ≠ [] → ∀ document ∈ index.documents, conceptPoints numerics config index document canonical = 0) := by
  intro index reports
  have hr : reports.map (·.entryId) = ((canonicalConcepts order' concepts).filter
      (!(knowledge.entries.flatMap <| collectConcepts concepts).contains ·)).filter (· = canonical) :=
    filter_reportsUnused
  have hn : (reports.map (·.entryId)).Nodup := hr ▸ (nodup_canonicalConcepts.filter _).filter _
  have hu : canonical ∈ reports.map (·.entryId) ↔ concepts.IsCanonical canonical ∧
      ∀ document ∈ index.documents, canonical ∉ document.conceptTokens := by
    simp [hr, mem_canonicalConcepts, mem_collectConcepts, index, InvertedIndex.documents_build]
  have hm : ∀ id ∈ reports.map (·.entryId), id = canonical := by
    rw [hr]
    exact fun id h => of_decide_eq_true (mem_filter.mp h).right
  have hi : reports ≠ [] ↔ canonical ∈ reports.map (·.entryId) := by
    rw [← not_iff_not, not_not, ← map_eq_nil_iff (f := (·.entryId)), eq_nil_iff_forall_not_mem]
    exact ⟨fun h => h canonical, fun h id hid => h (hm id hid ▸ hid)⟩
  refine ⟨hi.trans hu, ?_, fun h document hd => if_neg <| (hu.mp <| hi.mp h).right document hd⟩
  have hs : reports.map (·.entryId) ⊆ [canonical] := fun id h => mem_singleton.mpr (hm id h)
  simpa using (hn.subperm hs).length_le

end Howlinux
