import Mathlib

-- Alignments of two lists, built up from their ends. No part of a list takes part in two edits.
inductive Aligns {α : Type*} : List α → List α → ℕ → Prop
  | nil        : Aligns [] [] 0
  | keep       : Aligns a b n → Aligns (a ++ [c]) (b ++ [c]) n
  | substitute : Aligns a b n → Aligns (a ++ [c]) (b ++ [d]) (n + 1)
  | delete     : Aligns a b n → Aligns (a ++ [c]) b (n + 1)
  | insert     : Aligns a b n → Aligns a (b ++ [d]) (n + 1)
  | transpose  : Aligns a b n → Aligns (a ++ [d] ++ [c]) (b ++ [c] ++ [d]) (n + 1)

namespace Aligns

open List

variable {α : Type*} {a b : List α} {c d : α} {n m : ℕ}

-- The optimal string alignment distance is the least cost of an alignment.
def IsDistance (a b : List α) : ℕ → Prop :=
  IsLeast {n | Aligns a b n}

theorem refl : (a : List α) → Aligns a a 0 := fun a => by
  induction a using reverseRecOn
  case nil             => exact .nil
  case append_singleton hi => exact hi.keep

theorem length_left_le (h : Aligns a b n) : a.length ≤ b.length + n := by
  induction h <;> simp <;> omega

theorem length_right_le (h : Aligns a b n) : b.length ≤ a.length + n := by
  induction h <;> simp <;> omega

theorem nil_left : (b : List α) → Aligns [] b b.length := fun b => by
  induction b using reverseRecOn
  case nil                 => exact .nil
  case append_singleton hi => simpa using hi.insert

theorem nil_right : (a : List α) → Aligns a [] a.length := fun a => by
  induction a using reverseRecOn
  case nil                 => exact .nil
  case append_singleton hi => simpa using hi.delete

theorem isDistance_nil_left (b : List α) : IsDistance [] b b.length :=
  ⟨nil_left b, fun _ h => by simpa using h.length_right_le⟩

theorem isDistance_nil_right (a : List α) : IsDistance a [] a.length :=
  ⟨nil_right a, fun _ h => by simpa using h.length_left_le⟩

theorem isDistance_self (a : List α) : IsDistance a a 0 :=
  ⟨refl a, fun _ _ => Nat.zero_le _⟩

theorem exists_isDistance (a b : List α) : ∃ n, IsDistance a b n := by
  have h : ∃ n, Aligns a b n := by
    induction b using reverseRecOn
    case nil => exact ⟨_, nil_right a⟩
    case append_singleton hi =>
      have ⟨n, h⟩ := hi
      exact ⟨n + 1, h.insert⟩
  exact ⟨_, isLeast_csInf h⟩

-- The ways in which an alignment of two lists can end.
theorem concat_iff : Aligns (a ++ [c]) (b ++ [d]) n ↔
    (c = d ∧ Aligns a b n) ∨ ∃ m, n = m + 1 ∧ (Aligns a b m ∨ Aligns a (b ++ [d]) m ∨ Aligns (a ++ [c]) b m ∨
      ∃ a' b', a = a' ++ [d] ∧ b = b' ++ [c] ∧ Aligns a' b' m) := by
  constructor
  case mp =>
    generalize ha : a ++ [c] = x
    generalize hb : b ++ [d] = y
    intro h
    cases h
    case nil => simp at ha
    case keep h =>
      have ⟨ha, hc⟩ := append_inj' ha rfl
      have ⟨hb, hd⟩ := append_inj' hb rfl
      subst ha hb
      exact .inl ⟨by simp_all, h⟩
    case substitute m _ _ h =>
      have ⟨ha, _⟩ := append_inj' ha rfl
      have ⟨hb, _⟩ := append_inj' hb rfl
      subst ha hb
      exact .inr ⟨m, rfl, .inl h⟩
    case delete m _ h =>
      have ⟨ha, _⟩ := append_inj' ha rfl
      subst ha hb
      exact .inr ⟨m, rfl, .inr <| .inl h⟩
    case insert m _ h =>
      have ⟨hb, _⟩ := append_inj' hb rfl
      subst ha hb
      exact .inr ⟨m, rfl, .inr <| .inr <| .inl h⟩
    case transpose a' b' m _ _ h =>
      have ⟨ha', hc⟩ := append_inj' ha rfl
      have ⟨hb', hd⟩ := append_inj' hb rfl
      rw [List.singleton_inj] at hc hd
      exact .inr ⟨m, rfl, .inr <| .inr <| .inr ⟨a', b', hd ▸ ha', hc ▸ hb', h⟩⟩
  case mpr =>
    rintro (⟨rfl, h⟩ | ⟨m, rfl, h | h | h | ⟨a', b', rfl, rfl, h⟩⟩)
    · exact h.keep
    · exact h.substitute
    · exact h.delete
    · exact h.insert
    · exact h.transpose

-- What stands at the start of the left list is aligned with a start of the right one, at no higher cost.
-- A transposition that is cut in two leaves a substitution.
theorem exists_take (h : Aligns a b n) (r : ℕ) :
    ∃ s ≤ b.length, ∃ m ≤ n, Aligns (a.take r) (b.take s) m := by
  have full {a b : List α} {n : ℕ} (h : Aligns a b n) (hr : a.length ≤ r) :
      ∃ s ≤ b.length, ∃ m ≤ n, Aligns (a.take r) (b.take s) m :=
    ⟨b.length, le_rfl, n, le_rfl, by rwa [take_of_length_le hr, take_length]⟩
  have part {a b : List α} {n : ℕ} (a' b' : List α) (k : ℕ) (hr : r ≤ a.length)
      (hi : ∃ s ≤ b.length, ∃ m ≤ n, Aligns (a.take r) (b.take s) m) :
      ∃ s ≤ (b ++ b').length, ∃ m ≤ n + k, Aligns ((a ++ a').take r) ((b ++ b').take s) m := by
    have ⟨s, hs, m, hm, h⟩ := hi
    refine ⟨s, by simp; omega, m, by omega, ?_⟩
    rwa [take_append_of_le_length hr, take_append_of_le_length hs]
  induction h
  case nil => exact full .nil (Nat.zero_le r)
  case keep a b n c h hi =>
    rcases le_or_gt r a.length with hr | hr
    · exact part _ _ 0 hr hi
    · exact full h.keep (by simpa using hr)
  case substitute a b n c d h hi =>
    rcases le_or_gt r a.length with hr | hr
    · exact part _ _ 1 hr hi
    · exact full h.substitute (by simpa using hr)
  case delete a b n c h hi =>
    rcases le_or_gt r a.length with hr | hr
    · simpa using part [c] [] 1 hr hi
    · exact full h.delete (by simpa using hr)
  case insert a b n d h hi =>
    have ⟨s, hs, m, hm, hi⟩ := hi
    refine ⟨s, by simp; omega, m, by omega, ?_⟩
    rwa [take_append_of_le_length hs]
  case transpose a b n d c h hi =>
    rcases lt_trichotomy r (a.length + 1) with hr | rfl | hr
    · have := part [d, c] [c, d] 1 (Nat.lt_succ_iff.mp hr) hi
      rwa [append_assoc, append_assoc]
    · refine ⟨b.length + 1, by simp, n + 1, le_rfl, ?_⟩
      rw [take_left' (by simp), take_left' (by simp)]
      exact h.substitute
    · exact full h.transpose (by simp; omega)

section

variable [DecidableEq α] {x y z w : ℕ}

-- The least cost of an alignment whose last step is no transposition.
def step (c d : α) (x y z : ℕ) : ℕ :=
  min (x + 1) (min (y + 1) (z + if c = d then 0 else 1))

theorem aligns_step (hx : Aligns a (b ++ [d]) x) (hy : Aligns (a ++ [c]) b y) (hz : Aligns a b z) :
    Aligns (a ++ [c]) (b ++ [d]) (step c d x y z) := by
  have hs : Aligns (a ++ [c]) (b ++ [d]) (z + if c = d then 0 else 1) := by
    split
    case isTrue h  => exact h ▸ hz.keep
    case isFalse   => exact hz.substitute
  exact min_rec' (Aligns (a ++ [c]) (b ++ [d])) hx.delete <|
    min_rec' (Aligns (a ++ [c]) (b ++ [d])) hy.insert hs

theorem step_le (hx : IsDistance a (b ++ [d]) x) (hy : IsDistance (a ++ [c]) b y) (hz : IsDistance a b z)
    (h : Aligns (a ++ [c]) (b ++ [d]) n) : step c d x y z ≤ n ∨
      ∃ a' b' m, n = m + 1 ∧ a = a' ++ [d] ∧ b = b' ++ [c] ∧ Aligns a' b' m := by
  unfold step
  rcases concat_iff.mp h with ⟨hc, h⟩ | ⟨m, rfl, h | h | h | ⟨a', b', ha, hb, h⟩⟩
  · have := hz.right h
    simp only [hc, if_true]
    omega
  · have := hz.right h
    split <;> omega
  · have := hx.right h
    omega
  · have := hy.right h
    omega
  · exact .inr ⟨a', b', m, rfl, ha, hb, h⟩

theorem isDistance_concat (hx : IsDistance a (b ++ [d]) x) (hy : IsDistance (a ++ [c]) b y)
    (hz : IsDistance a b z) (hw : ∀ a' b', a = a' ++ [d] → b ≠ b' ++ [c]) :
    IsDistance (a ++ [c]) (b ++ [d]) (step c d x y z) where
  left    := aligns_step hx.left hy.left hz.left
  right _ h := (step_le hx hy hz h).resolve_right fun ⟨a', b', _, _, ha, hb, _⟩ => hw a' b' ha hb

theorem isDistance_transpose (hx : IsDistance (a ++ [d]) (b ++ [c] ++ [d]) x)
    (hy : IsDistance (a ++ [d] ++ [c]) (b ++ [c]) y) (hz : IsDistance (a ++ [d]) (b ++ [c]) z)
    (hw : IsDistance a b w) :
    IsDistance (a ++ [d] ++ [c]) (b ++ [c] ++ [d]) (min (step c d x y z) (w + 1)) where
  left := min_rec' (Aligns (a ++ [d] ++ [c]) (b ++ [c] ++ [d])) (aligns_step hx.left hy.left hz.left)
    hw.left.transpose
  right n h := by
    rcases step_le hx hy hz h with hs | ⟨a', b', m, rfl, ha, hb, h⟩
    · exact (min_le_left _ _).trans hs
    · rw [append_left_inj] at ha hb
      have := hw.right (ha ▸ hb ▸ h)
      exact (min_le_right _ _).trans (by omega)

end

end Aligns
