import Mathlib

namespace List

variable {α : Type*}

-- A cut that does not split a run of `p`.
def Apart (p : α → Bool) (left right : List α) : Prop :=
  ∀ a ∈ left.getLast?, ∀ b ∈ right.head?, p a → p b = false

-- A text that is cut into parts. What falls between them has no `p`, and no cut splits a run of `p`.
inductive Slices (p : α → Bool) : List α → List (List α) → Prop
  | gap {gap : List α} : (∀ a ∈ gap, p a = false) → Slices p gap []
  | part {gap part rest : List α} {parts : List (List α)} : (∀ a ∈ gap, p a = false) → Apart p part rest →
    Slices p rest parts → Slices p (gap ++ part ++ rest) (part :: parts)

section

variable {p : α → Bool} {left middle right : List α}

theorem Apart.of_head (h : ∀ b ∈ right.head?, p b = false) : Apart p left right :=
  fun _ _ b hb _ => h b hb

theorem Apart.nil_right : Apart p left [] :=
  .of_head (by simp)

theorem Apart.of_last (h : ∀ a ∈ left.getLast?, p a = false) : Apart p left right :=
  fun a ha _ _ hp => absurd hp (by simp [h a ha])

theorem Apart.of_append (h : Apart p (left ++ middle) right) : Apart p middle right :=
  fun a ha => h a (by simp [getLast?_append, Option.mem_def.mp ha])

theorem Apart.append (h : Apart p left middle) (h' : Apart p (left ++ middle) right) :
    Apart p left (middle ++ right) := by
  cases middle
  case nil  => simpa using h'
  case cons => exact h

-- A run of `p` is on one side of the cut.
theorem Apart.run {before run after : List α} (h : Apart p left right) (hr : ∀ a ∈ run, p a)
    (ht : left ++ right = before ++ run ++ after) :
    (∃ middle, left = before ++ run ++ middle ∧ after = middle ++ right) ∨
      ∃ middle, right = middle ++ run ++ after ∧ before = left ++ middle := by
  rcases append_eq_append_iff.mp ht with ⟨middle, hb, hm⟩ | ⟨middle, hl, ha⟩
  case inr => exact .inl ⟨middle, by simp [hl], ha⟩
  case inl =>
    rcases append_eq_append_iff.mp hb with ⟨inner, hl, hi⟩ | ⟨outer, hl, ho⟩
    case inr => exact .inr ⟨outer, by rw [hm, ho], hl⟩
    case inl =>
      -- The run would be cut into `inner` and `middle`.
      cases middle
      case nil => exact .inl ⟨[], by simp [hl, hi], hm.symm⟩
      case cons b middle =>
        rcases eq_nil_or_concat inner with he | ⟨inner', a, he⟩
        case inl => exact .inr ⟨[], by simp [hm, hi, he], by simp [hl, he]⟩
        case inr =>
          have hf := h a (by simp [hl, he]) b (by simp [hm]) (hr a (by simp [hi, he]))
          have ht := hr b (by simp [hi])
          simp [hf] at ht

end

namespace Slices

variable {p : α → Bool} {text text' gap : List α} {parts parts' : List (List α)}

theorem nil : Slices p [] [] :=
  .gap (by simp)

theorem skip (hg : ∀ a ∈ gap, p a = false) (h : Slices p text parts) : Slices p (gap ++ text) parts := by
  have ha {gap' : List α} (h : ∀ a ∈ gap', p a = false) : ∀ a ∈ gap ++ gap', p a = false :=
    fun a hm => (mem_append.mp hm).elim (hg a) (h a)
  cases h
  case gap h => exact .gap (ha h)
  case part h hp hr =>
    rw [← append_assoc, ← append_assoc]
    exact .part (ha h) hp hr

theorem cons (hp : Apart p text text') (h : Slices p text' parts) : Slices p (text ++ text') (text :: parts) :=
  @part _ _ [] _ _ _ (by simp) hp h

theorem append (hb : Apart p text text') (h : Slices p text parts) (h' : Slices p text' parts') :
    Slices p (text ++ text') (parts ++ parts') := by
  induction h
  case gap hg => exact h'.skip hg
  case part gap part rest parts hg hp hr hi =>
    rw [append_assoc]
    rw [append_assoc] at hb
    exact .part hg (hp.append hb.of_append) (hi hb.of_append.of_append)

-- Nothing of `p` gets lost.
theorem filter_flatten (h : Slices p text parts) : parts.flatten.filter p = text.filter p := by
  have hn {gap : List α} (hg : ∀ a ∈ gap, p a = false) : gap.filter p = [] :=
    filter_eq_nil_iff.mpr fun a ha => by simp [hg a ha]
  induction h
  case gap hg         => simp [hn hg]
  case part hg _ _ hi => simp [hn hg, hi]

-- A run of `p` lies in a single part, with everything around it where it was.
theorem exists_part {before run after : List α} (h : Slices p text parts) (ht : text = before ++ run ++ after)
    (hn : run ≠ []) (hr : ∀ a ∈ run, p a) : ∃ earlier left right later,
    parts = earlier ++ (left ++ run ++ right) :: later ∧
      (earlier.flatten ++ left).filter p = before.filter p ∧
      (right ++ later.flatten).filter p = after.filter p := by
  have ⟨a, run', hc⟩ := exists_cons_of_ne_nil hn
  have ha : a ∈ run := by simp [hc]
  have hg {gap : List α} (hg : ∀ a ∈ gap, p a = false) : a ∉ gap ∧ gap.filter p = [] :=
    ⟨fun hm => by simpa [hg a hm] using hr a ha, filter_eq_nil_iff.mpr fun a ha => by simp [hg a ha]⟩
  induction h generalizing before
  case gap gap hp => exact absurd (by simp [ht, ha]) (hg hp).left
  case part gap part rest parts hp hs h hi =>
    rw [append_assoc] at ht
    rcases (Apart.of_last fun b hb => hp b (mem_of_mem_getLast? hb)).run hr ht with ⟨_, hb, _⟩ | ⟨before, ht, hb⟩
    case inl => exact absurd (by simp [hb, ha]) (hg hp).left
    case inr =>
      rcases hs.run hr ht with ⟨right, hl, ha⟩ | ⟨middle, hm, hl⟩
      case inl => exact ⟨[], before, right, parts, by simp [hl], by simp [hb, hg hp], by simp [ha, h.filter_flatten]⟩
      case inr =>
        have ⟨earlier, left, right, later, he, hw, hw'⟩ := hi hm
        refine ⟨part :: earlier, left, right, later, by simp [he], ?_, hw'⟩
        rw [filter_append] at hw
        simp [hb, hl, (hg hp).right, ← hw]

end Slices

end List
