import Howlinux.Search.Theorems.Candidates

open Bytes List

namespace Howlinux

variable {K : Type} [Field K] [LinearOrder K] [IsStrictOrderedRing K]

-- The policy looks at no more than two results.
omit [IsStrictOrderedRing K] in
theorem ResultPolicy.decide_take {policy : ResultPolicy K} {results : List (SearchResult K)} {limit : ℕ}
    (h : 2 ≤ limit) : policy.decide (results.take limit) = policy.decide results := by
  have ⟨n, hn⟩ := Nat.exists_eq_add_of_le' h
  subst hn
  rcases results with _ | ⟨front, _ | ⟨second, rest⟩⟩ <;> rfl

theorem thresholds : (8.0 : K) = 8 ∧ (90.0 : K) = 90 ∧ (15.0 : K) = 15 := by
  norm_num

-- One entry is far ahead of all others.
structure Outstanding (results : List (SearchResult K)) (result : SearchResult K) : Prop where
  mem    : result ∈ results
  score  : 90 ≤ result.score
  margin : ∀ other ∈ results, other.entry ≠ result.entry → 15 ≤ result.score - other.score

omit [IsStrictOrderedRing K] in
theorem score_le_of_key_lt {left right : SearchResult K} (h : left.key < right.key) :
    right.score ≤ left.score := by
  simp only [SearchResult.key, Prod.Lex.toLex_lt_toLex, OrderDual.toDual_lt_toDual,
    OrderDual.toDual_inj] at h
  exact h.elim le_of_lt (·.left.ge)

namespace SearchEngine

variable {engine : SearchEngine K} {query : QueryContext} {front result : SearchResult K}
  {rest : List (SearchResult K)}

theorem mem_ranking (hn : IsNormal query) (hc : engine.config = {}) :
    result ∈ engine.ranking query ↔ result ∈ engine.allResults query ∧ 8 ≤ result.score := by
  have h8 : engine.config.meaningfulScore = 8 := hc ▸ meaningfulScore_default
  rw [ranking_eq_rank_allResults hn (by rw [h8]; norm_num), rank, mem_sortBy, mem_filter, h8]
  simp

-- The front of the ranking is the only entry that can be outstanding.
theorem outstanding_iff (hn : IsNormal query) (hc : engine.config = {})
    (hr : engine.ranking query = front :: rest) :
    Outstanding (engine.allResults query) result ↔
      result = front ∧ 90 ≤ front.score ∧ ∀ other ∈ rest, 15 ≤ front.score - other.score := by
  have h8 : engine.config.meaningfulScore = 8 := hc ▸ meaningfulScore_default
  have hp := pairwise_cons.mp <| hr ▸ pairwise_ranking query hn (by rw [h8]; norm_num)
  have hle : ∀ other ∈ rest, other.score ≤ front.score := fun other ho => score_le_of_key_lt (hp.left other ho)
  have hm : ∀ other, other ∈ front :: rest ↔ other ∈ engine.allResults query ∧ 8 ≤ other.score :=
    fun other => hr ▸ mem_ranking hn hc
  have hf := (hm front).mp mem_cons_self
  have he : ∀ other ∈ engine.allResults query, ∀ other' ∈ engine.allResults query,
      other.entry = other'.entry → other = other' := fun other ho other' ho' h =>
    inj_on_of_nodup_map nodup_id_allResults ho ho' (congrArg (·.id) h)
  constructor
  case mp =>
    intro ⟨hmem, hscore, hmargin⟩
    have hin := (hm result).mpr ⟨hmem, by linarith⟩
    have hfront : result = front := by
      by_contra hne
      have hrest := (mem_cons.mp hin).resolve_left hne
      have := hmargin front hf.left fun h => hne (he _ hmem _ hf.left h.symm)
      linarith [hle result hrest]
    subst hfront
    refine ⟨rfl, hscore, fun other ho => ?_⟩
    have hother := ((hm other).mp <| mem_cons_of_mem _ ho).left
    refine hmargin other hother fun h => ?_
    exact absurd (he _ hother _ hmem h ▸ hp.left other ho) (lt_irrefl _)
  case mpr =>
    intro ⟨h, hscore, hmargin⟩
    subst h
    refine ⟨hf.left, hscore, fun other ho hne => ?_⟩
    by_cases h8 : 8 ≤ other.score
    case pos =>
      have hin := (mem_cons.mp <| (hm other).mpr ⟨ho, h8⟩).resolve_left fun h => hne (h ▸ rfl)
      exact hmargin other hin
    case neg => linarith

-- In a ranking the runner-up stands for all that follow it.
theorem decide_cons (hn : IsNormal query) (hc : engine.config = {})
    (hr : engine.ranking query = front :: rest) :
    ({} : ResultPolicy K).decide (front :: rest) =
      if 90 ≤ front.score ∧ ∀ other ∈ rest, 15 ≤ front.score - other.score then
        { status := .confident, selected := front }
      else
        { status := .uncertain } := by
  have h8 : engine.config.meaningfulScore = 8 := hc ▸ meaningfulScore_default
  have ⟨ht, hs, hg⟩ := thresholds (K := K)
  have hp := (pairwise_cons.mp <| hr ▸ pairwise_ranking query hn (by rw [h8]; norm_num)).right
  have hf := ((mem_ranking hn hc).mp (hr ▸ mem_cons_self)).right
  simp only [ResultPolicy.decide, ht, hs, hg, hf.not_gt, if_false, Bool.and_eq_true, decide_eq_true_eq]
  cases rest
  case nil => simp
  case cons second rest =>
    have hle : ∀ other ∈ rest, other.score ≤ second.score :=
      fun other ho => score_le_of_key_lt ((pairwise_cons.mp hp).left other ho)
    have : (∀ other ∈ second :: rest, 15 ≤ front.score - other.score) ↔ 15 ≤ front.score - second.score := by
      simp only [mem_cons, forall_eq_or_imp]
      exact and_iff_left_of_imp fun h other ho => by linarith [hle other ho]
    simp only [this, decide_eq_true_eq]

theorem decide_ranking (hn : IsNormal query) (hc : engine.config = {}) :
    let decision := ({} : ResultPolicy K).decide (engine.ranking query)
    (decision.status = .noMatch ↔ ∀ result ∈ engine.allResults query, result.score < 8) ∧
    (∀ result, decision.status = .confident ∧ decision.selected = some result ↔
      Outstanding (engine.allResults query) result) ∧
    (decision.status ≠ .confident → decision.selected = none) := by
  cases hr : engine.ranking query
  case nil =>
    have hm : ∀ result ∈ engine.allResults query, result.score < 8 := fun result h => by
      have := mt (mem_ranking hn hc).mpr (hr ▸ not_mem_nil (a := result))
      simpa [h] using this
    refine ⟨iff_of_true rfl hm, fun result => iff_of_false (by simp [ResultPolicy.decide]) fun h => ?_,
      by simp [ResultPolicy.decide]⟩
    linarith [hm result h.mem, h.score]
  case cons front rest =>
    have hf := (mem_ranking hn hc).mp (hr ▸ mem_cons_self)
    have hl : ¬∀ result ∈ engine.allResults query, result.score < 8 :=
      fun h => absurd (h front hf.left) hf.right.not_gt
    simp only [outstanding_iff hn hc hr, decide_cons hn hc hr]
    split
    case isTrue h  => exact ⟨by simp [hl], fun _ => by simpa [h.left, eq_comm] using fun _ => h.right, by simp⟩
    case isFalse h => exact ⟨by simp [hl], fun _ => by simp [h], by simp⟩

end SearchEngine

end Howlinux
