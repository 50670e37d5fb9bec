import Mathlib

namespace List

variable {α κ : Type*} [LinearOrder κ] {before : α → α → Bool} {key : α → κ} {l l₁ l₂ : List α}

-- `std::sort` with a strict comparison.
def sortBy (before : α → α → Bool) (l : List α) : List α :=
  l.insertionSort fun a b => before b a = false

theorem perm_sortBy (before : α → α → Bool) (l : List α) : (l.sortBy before).Perm l :=
  perm_insertionSort _ _

@[simp]
theorem mem_sortBy {a : α} : a ∈ l.sortBy before ↔ a ∈ l :=
  (perm_sortBy before l).mem_iff

@[simp]
theorem length_sortBy : (l.sortBy before).length = l.length :=
  (perm_sortBy before l).length_eq

-- The comparisons of the program order their elements by a key.
def ComparesBy (before : α → α → Bool) (key : α → κ) : Prop :=
  ∀ a b, before a b ↔ key a < key b

theorem ComparesBy.not_before_iff (h : ComparesBy before key) (a b : α) :
    before b a = false ↔ key a ≤ key b := by
  rw [← Bool.not_eq_true, h, not_lt]

theorem pairwise_sortBy (h : ComparesBy before key) (l : List α) :
    (l.sortBy before).Pairwise (key · ≤ key ·) := by
  have : Std.Total fun a b => before b a = false := ⟨fun a b => by
    simpa only [h.not_before_iff] using le_total ..⟩
  have : IsTrans α fun a b => before b a = false := ⟨fun a b c => by
    simpa only [h.not_before_iff] using le_trans⟩
  exact (pairwise_insertionSort _ l).imp <| (h.not_before_iff _ _).mp

-- Of all elements with a property, a search in the sorted list finds a least one.
theorem le_of_find?_sortBy {p : α → Bool} {a b : α} (h : ComparesBy before key)
    (ha : (l.sortBy before).find? p = some a) (hb : b ∈ l) (hp : p b) : key a ≤ key b := by
  have ⟨_, first, rest, hs, hf⟩ := find?_eq_some_iff_append.mp ha
  have hl := pairwise_sortBy h l
  rw [hs] at hl
  have hm : b ∈ first ++ a :: rest := hs ▸ mem_sortBy.mpr hb
  rw [mem_append, mem_cons] at hm
  rcases hm with hm | rfl | hm
  · simpa [hp] using hf b hm
  · exact le_rfl
  · exact rel_of_pairwise_cons (pairwise_append.mp hl).right.left hm

theorem comparesBy_lt {_ : DecidableLT κ} (key : α → κ) :
    ComparesBy (fun a b => decide (key a < key b)) key :=
  fun _ _ => decide_eq_true_iff

theorem pairwise_lt_sortBy (h : ComparesBy before key) (hn : (l.map key).Nodup) :
    (l.sortBy before).Pairwise (key · < key ·) := by
  have hn := pairwise_map.mp <| ((perm_sortBy before l).map key).nodup_iff.mpr hn
  exact (pairwise_sortBy h l).and hn |>.imp fun h => lt_of_le_of_ne h.left h.right

-- When the key tells the elements apart, the result does not depend on the order of the input.
theorem sortBy_eq_of_perm (h : ComparesBy before key) (hi : ∀ a ∈ l₁, ∀ b ∈ l₁, key a = key b → a = b)
    (hp : l₁.Perm l₂) : l₁.sortBy before = l₂.sortBy before := by
  have h₁ := perm_sortBy before l₁
  have h₂ := perm_sortBy before l₂
  refine (h₁.trans <| hp.trans h₂.symm).eq_of_pairwise ?_ (pairwise_sortBy h l₁) (pairwise_sortBy h l₂)
  intro a b ha hb hab hba
  exact hi a (h₁.mem_iff.mp ha) b (hp.mem_iff.mpr <| h₂.mem_iff.mp hb) (le_antisymm hab hba)

-- `std::unique`: of every run of elements with one key the first one stays.
def unique (key : α → κ) (l : List α) : List α :=
  l.destutter (key · ≠ key ·)

theorem mem_of_mem_unique {a : α} (h : a ∈ l.unique key) : a ∈ l :=
  (destutter_sublist _ l).mem h

theorem exists_mem_unique {a : α} (h : a ∈ l) : ∃ b ∈ l.unique key, key b = key a := by
  have go (c : α) (l : List α) (a : α) (h : a ∈ c :: l) :
      ∃ b ∈ l.destutter' (key · ≠ key ·) c, key b = key a := by
    induction l generalizing c
    case nil => exact ⟨c, by simp_all⟩
    case cons d l hi =>
      by_cases hd : key c = key d
      case pos =>
        rw [destutter'_cons_neg _ (by simp [hd])]
        by_cases ha : a = d
        case pos => exact ⟨c, mem_destutter' .., ha ▸ hd⟩
        case neg => exact hi c (by simp_all)
      case neg =>
        rw [destutter'_cons_pos _ hd]
        cases mem_cons.mp h
        case inl ha => exact ⟨c, mem_cons_self, ha ▸ rfl⟩
        case inr ha =>
          have ⟨b, hb, he⟩ := hi d ha
          exact ⟨b, mem_cons_of_mem _ hb, he⟩
  cases l
  case nil         => simp at h
  case cons c l    => exact go c l a h

-- A key that tells the elements apart makes `unique` keep them all.
theorem mem_unique {a : α} (hi : ∀ a ∈ l, ∀ b ∈ l, key a = key b → a = b) :
    a ∈ l.unique key ↔ a ∈ l where
  mp    := mem_of_mem_unique
  mpr h :=
    have ⟨b, hb, he⟩ := exists_mem_unique h
    hi b (mem_of_mem_unique hb) a h he ▸ hb

theorem pairwise_unique (h : l.Pairwise (key · ≤ key ·)) : (l.unique key).Pairwise (key · < key ·) := by
  have : IsTrans α (key · < key ·) := ⟨fun _ _ _ => lt_trans⟩
  have hle := (h.sublist <| destutter_sublist (key · ≠ key ·) l).isChain
  have hne := isChain_destutter (key · ≠ key ·) l
  rw [isChain_iff_getElem] at hle hne
  exact isChain_iff_pairwise.mp <| isChain_iff_getElem.mpr fun i hi => lt_of_le_of_ne (hle i hi) (hne i hi)

-- Lists whose elements correspond to each other stay so when they are sorted by comparisons that agree.
section

variable {β : Type*} {R : α → β → Prop} {left : List α} {right : List β} {before' : β → β → Bool}
  {key' : β → κ}

theorem forall₂_orderedInsert (hb : ∀ a b a' b', R a b → R a' b' → before a a' = before' b b') {a : α} {b : β}
    (hr : R a b) (h : Forall₂ R left right) :
    Forall₂ R (left.orderedInsert (fun a a' => before a' a = false) a)
      (right.orderedInsert (fun b b' => before' b' b = false) b) := by
  induction h
  case nil => exact .cons hr .nil
  case cons a' b' left right hr' h hi =>
    rw [orderedInsert_cons, orderedInsert_cons, hb a' b' a b hr' hr]
    split
    case isTrue  => exact .cons hr <| .cons hr' h
    case isFalse => exact .cons hr' hi

theorem forall₂_sortBy (hb : ∀ a b a' b', R a b → R a' b' → before a a' = before' b b')
    (h : Forall₂ R left right) : Forall₂ R (left.sortBy before) (right.sortBy before') := by
  unfold sortBy
  induction h
  case nil             => exact .nil
  case cons hr _ hi    => exact forall₂_orderedInsert hb hr hi

theorem forall₂_destutter' (hk : ∀ a b, R a b → key a = key' b) {a : α} {b : β} (hr : R a b)
    (h : Forall₂ R left right) :
    Forall₂ R (left.destutter' (key · ≠ key ·) a) (right.destutter' (key' · ≠ key' ·) b) := by
  induction h generalizing a b
  case nil => exact .cons hr .nil
  case cons a' b' left right hr' h hi =>
    simp only [destutter'_cons, hk a b hr, hk a' b' hr']
    split
    case isTrue  => exact .cons hr <| hi hr'
    case isFalse => exact hi hr

theorem forall₂_unique (hk : ∀ a b, R a b → key a = key' b) (h : Forall₂ R left right) :
    Forall₂ R (left.unique key) (right.unique key') := by
  cases h
  case nil       => exact .nil
  case cons hr h => exact forall₂_destutter' hk hr h

end

end List
