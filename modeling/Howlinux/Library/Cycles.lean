import Mathlib

open Relation

namespace List

variable {α : Type*} {r : α → α → Prop} {loop path : List α} {a b : α}

-- A walk along the edges of a graph that ends where it starts.
structure IsCycle (r : α → α → Prop) (loop : List α) : Prop where
  edges  : loop.IsChain r
  length : 2 ≤ loop.length
  closed : loop.head? = loop.getLast?

theorem IsCycle.exists_transGen (h : IsCycle r loop) : ∃ a, TransGen r a a := by
  have ⟨he, hl, hc⟩ := h
  match loop with
  | a :: b :: rest =>
    have ⟨hab, hr⟩ := isChain_cons_cons.mp he
    have hn : b :: rest ≠ [] := cons_ne_nil b rest
    have ha : (b :: rest).getLast hn = a := by
      rw [head?_cons, getLast?_cons_cons, getLast?_eq_some_getLast hn] at hc
      exact (Option.some.inj hc).symm
    exact ⟨a, .head' hab <| relationReflTransGen_of_exists_isChain_cons _ hr ha⟩

-- A walk that comes back to one of its nodes has a cycle at its end.
theorem isCycle_dropWhile [BEq α] [LawfulBEq α] (h : (path ++ [a]).IsChain r) (ha : a ∈ path) :
    IsCycle r (path.dropWhile (· != a) ++ [a]) := by
  have ⟨start, hs⟩ := dropWhile_suffix (· != a) (l := path)
  have he : (path.dropWhile (· != a) ++ [a]).IsChain r := by
    rw [← hs, append_assoc] at h
    exact h.right_of_append
  cases hd : path.dropWhile (· != a)
  case nil =>
    have hb := dropWhile_eq_nil_iff.mp hd a ha
    simp at hb
  case cons b rest =>
    have hb := head?_dropWhile_not (· != a) path
    have hb : b = a := by simpa [hd] using hb
    exact ⟨hd ▸ he, by simp, by rw [getLast?_append, hb]; rfl⟩

end List

namespace Relation

variable {α : Type*} {r : α → α → Prop} {s : Set α} {a : α}

-- A set of nodes that no edge leaves and no cycle runs through.
structure Settled (r : α → α → Prop) (s : Set α) : Prop where
  closed  : ∀ a ∈ s, ∀ b, r a b → b ∈ s
  acyclic : ∀ a ∈ s, ¬TransGen r a a

namespace Settled

theorem empty : Settled r ∅ where
  closed  := by simp
  acyclic := by simp

theorem mem_of_transGen (h : Settled r s) {a b : α} (ha : a ∈ s) (hr : TransGen r a b) : b ∈ s := by
  induction hr
  case single hr     => exact h.closed _ ha _ hr
  case tail _ hr hi  => exact h.closed _ hi _ hr

-- It grows by a node all of whose edges lead into it.
theorem insert (h : Settled r s) (ha : a ∉ s) (hr : ∀ b, r a b → b ∈ s) : Settled r (Insert.insert a s) where
  closed c hc b hb := .inr <| hc.elim (fun he => hr b (he ▸ hb)) fun hc => h.closed c hc b hb
  acyclic c hc ht := by
    rcases hc with rfl | hc
    · have ⟨b, hb, hp⟩ := TransGen.head'_iff.mp ht
      rcases reflTransGen_iff_eq_or_transGen.mp hp with he | hp
      · exact ha <| he ▸ hr b hb
      · exact ha <| h.mem_of_transGen (hr b hb) hp
    · exact h.acyclic c hc ht

end Settled

end Relation
