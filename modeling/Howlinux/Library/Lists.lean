import Howlinux.Library.Bytes

namespace List

variable {α : Type*} {p : α → Bool}

-- A run of `p` that is glued to a rest which does not continue it.
theorem takeWhile_append_of_stop {l r : List α} (h : ∀ a ∈ l, p a) (hr : ∀ a ∈ r.head?, p a = false) :
    (l ++ r).takeWhile p = l := by
  rw [takeWhile_append_of_pos h]
  cases r <;> simp_all

theorem dropWhile_append_of_stop {l r : List α} (h : ∀ a ∈ l, p a) (hr : ∀ a ∈ r.head?, p a = false) :
    (l ++ r).dropWhile p = r := by
  rw [dropWhile_append_of_pos h]
  cases r <;> simp_all

-- Such a cut is the only one.
theorem append_inj_of_stop {l r l' r' : List α} (h : ∀ a ∈ l, p a) (hr : ∀ a ∈ r.head?, p a = false)
    (h' : ∀ a ∈ l', p a) (hr' : ∀ a ∈ r'.head?, p a = false) (he : l ++ r = l' ++ r') :
    l = l' ∧ r = r' := by
  have ht := congrArg (takeWhile p) he
  have hd := congrArg (dropWhile p) he
  rw [takeWhile_append_of_stop h hr, takeWhile_append_of_stop h' hr'] at ht
  rw [dropWhile_append_of_stop h hr, dropWhile_append_of_stop h' hr'] at hd
  exact ⟨ht, hd⟩

theorem mem_of_mem_splitOnP {x : α} {l part : List α} (hp : part ∈ l.splitOnP p) (h : x ∈ part) :
    x ∈ l := by
  induction l generalizing part
  case nil => simp_all
  case cons a l hi =>
    rw [splitOnP_cons_eq_if_modifyHead] at hp
    split at hp
    case isTrue =>
      cases mem_cons.mp hp
      case inl hp => simp_all
      case inr hp => exact mem_cons_of_mem _ (hi hp h)
    case isFalse =>
      have ⟨head, tail, hs⟩ := exists_cons_of_ne_nil <| splitOnP_ne_nil p l
      rw [hs] at hi
      simp only [hs, modifyHead_cons, mem_cons] at hp
      cases hp
      case inl hp =>
        subst hp
        cases mem_cons.mp h
        case inl h => simp [h]
        case inr h => exact mem_cons_of_mem _ (hi mem_cons_self h)
      case inr hp => exact mem_cons_of_mem _ (hi (mem_cons_of_mem _ hp) h)

theorem exists_rdropWhile_append (p : α → Bool) (l : List α) : ∃ r, l.rdropWhile p ++ r = l :=
  rdropWhile_prefix p l

theorem rdropWhile_append_of_mem {a l : List α} (h : ∃ x ∈ l, p x = false) :
    (a ++ l).rdropWhile p = a ++ l.rdropWhile p := by
  have hl : (l.reverse.dropWhile p).isEmpty = false := by
    simp only [isEmpty_eq_false_iff, ne_eq, dropWhile_eq_nil_iff, mem_reverse, not_forall]
    obtain ⟨x, hx, hp⟩ := h
    exact ⟨x, hx, by simp [hp]⟩
  simp [rdropWhile, dropWhile_append, hl]

theorem rdropWhile_append_of_stop {a l : List α} (h : ∀ x ∈ a, p x = false) :
    (a ++ l).rdropWhile p = a ++ l.rdropWhile p := by
  by_cases hl : ∃ x ∈ l, p x = false
  case pos => exact rdropWhile_append_of_mem hl
  case neg =>
    have hl : ∀ x ∈ l, p x = true := by simpa using hl
    have hr : l.rdropWhile p = [] := rdropWhile_eq_nil_iff.mpr hl
    have ha : a.rdropWhile p = a := rdropWhile_eq_self_iff.mpr fun hn => by simp [h _ (getLast_mem hn)]
    rw [hr, append_nil, rdropWhile, reverse_append, dropWhile_append_of_pos (by simpa using hl)]
    exact ha

theorem mem_rdropWhile_iff {a : α} {l : List α} (h : p a = false) : a ∈ l.rdropWhile p ↔ a ∈ l := by
  simp only [rdropWhile, mem_reverse]
  constructor
  case mp  => exact fun hm => mem_reverse.mp <| (dropWhile_sublist p).mem hm
  case mpr =>
    intro hm
    have hm : a ∈ l.reverse.takeWhile p ++ l.reverse.dropWhile p := by
      rwa [takeWhile_append_dropWhile, mem_reverse]
    refine (mem_append.mp hm).resolve_left fun ht => ?_
    simp [mem_takeWhile_imp ht] at h

theorem isEmpty_rdropWhile_dropWhile (p : α → Bool) (l : List α) :
    ((l.dropWhile p).rdropWhile p).isEmpty = l.all p := by
  rw [Bool.eq_iff_iff, isEmpty_iff, rdropWhile_eq_nil_iff, all_eq_true]
  constructor
  case mp =>
    intro h
    rw [← dropWhile_eq_nil_iff]
    have hs := head?_dropWhile_not p l
    cases hd : l.dropWhile p
    case nil => rfl
    case cons a l' =>
      have ha := h a (hd ▸ mem_cons_self)
      simp [hd, ha] at hs
  case mpr => exact fun h a ha => h a <| (dropWhile_sublist p).mem ha

theorem drop_length_takeWhile (p : α → Bool) (l : List α) : l.drop (l.takeWhile p).length = l.dropWhile p := by
  conv_lhs => arg 2; rw [← takeWhile_append_dropWhile (p := p) (l := l)]
  exact drop_left

theorem dropWhile_dropWhile_of_imp {q : α → Bool} (h : ∀ a, q a → p a) (l : List α) :
    (l.dropWhile q).dropWhile p = l.dropWhile p := by
  induction l
  case nil => rfl
  case cons a l hi =>
    rw [dropWhile_cons]
    split
    case isTrue ha  => rw [hi, dropWhile_cons_of_pos (h a ha)]
    case isFalse    => rfl

section

variable [BEq α] [LawfulBEq α]

theorem nodup_eraseDups (l : List α) : l.eraseDups.Nodup := by
  induction h : l.length using Nat.strong_induction_on generalizing l
  case h n hi =>
    cases l
    case nil => simp
    case cons a l =>
      have hl := length_filter_le (fun b => !b == a) l
      rw [eraseDups_cons, nodup_cons]
      refine ⟨by simp, hi _ ?_ _ rfl⟩
      simp only [length_cons] at h
      omega

theorem eraseDups_of_nodup {l : List α} (h : l.Nodup) : l.eraseDups = l := by
  induction l
  case nil => simp
  case cons a l hi =>
    have ⟨ha, hl⟩ := nodup_cons.mp h
    have hf : l.filter (fun b => !b == a) = l :=
      filter_eq_self.mpr fun b hb => by simpa using ne_of_mem_of_not_mem hb ha
    rw [eraseDups_cons, hf, hi hl]

theorem exists_prefix_eraseDups {l kept : List α} (h : kept <+: l.eraseDups) :
    ∃ first, first <+: l ∧ first.eraseDups = kept := by
  induction l using reverseRecOn
  case nil => exact ⟨[], nil_prefix, by simp_all⟩
  case append_singleton l a hi =>
    by_cases ha : a ∈ l
    case pos =>
      have he : (l ++ [a]).eraseDups = l.eraseDups := by simp [eraseDups_append, removeAll, ha]
      have ⟨first, hf, hk⟩ := hi (he ▸ h)
      exact ⟨first, hf.trans <| prefix_append .., hk⟩
    case neg =>
      have he : (l ++ [a]).eraseDups = l.eraseDups ++ [a] := by
        simp [eraseDups_append, removeAll, ha, eraseDups_cons]
      cases prefix_concat_iff.mp (he ▸ h)
      case inl h => exact ⟨l ++ [a], prefix_rfl, he ▸ h.symm⟩
      case inr h =>
        have ⟨first, hf, hk⟩ := hi h
        exact ⟨first, hf.trans <| prefix_append .., hk⟩

-- A run of the elements without repetitions is what some stretch of the list adds to what came before.
theorem infix_eraseDups_iff {l run : List α} :
    run <:+: l.eraseDups ↔ ∃ before stretch after, before ++ stretch ++ after = l ∧
      (stretch.removeAll before).eraseDups = run := by
  constructor
  case mp =>
    intro ⟨old, later, h⟩
    have ⟨first, ⟨after, hl⟩, hf⟩ := exists_prefix_eraseDups ⟨later, h⟩
    have ⟨before, ⟨stretch, hs⟩, hb⟩ := exists_prefix_eraseDups ⟨run, hf.symm⟩
    rw [← hs, eraseDups_append, hb] at hf
    exact ⟨before, stretch, after, hs ▸ hl, append_cancel_left hf⟩
  case mpr =>
    intro ⟨before, stretch, after, hl, hr⟩
    rw [← hl, eraseDups_append, eraseDups_append, hr]
    exact infix_append ..

end

-- A monadic fold is defined as long as every step from a state with `P` is and keeps `P`.
theorem exists_foldlM_eq_some {β : Type*} {f : β → α → Option β} {P : β → Prop} {l : List α}
    (hf : ∀ b, P b → ∀ a ∈ l, ∃ b', f b a = some b' ∧ P b') (b : β) (hb : P b) :
    ∃ b', l.foldlM f b = some b' ∧ P b' := by
  induction l generalizing b
  case nil => exact ⟨b, by simp, hb⟩
  case cons a l hi =>
    have ⟨b', he, hb'⟩ := hf b hb a mem_cons_self
    have ⟨b'', hl, hb''⟩ := hi (fun b hb a ha => hf b hb a <| mem_cons_of_mem _ ha) b' hb'
    exact ⟨b'', by simp [he, hl], hb''⟩

-- A monadic fold does not change where its step is extended.
theorem foldlM_eq_some_of_imp {β : Type*} {f g : β → α → Option β} {l : List α} {b b' : β}
    (hf : ∀ b a b', f b a = some b' → g b a = some b') (h : l.foldlM f b = some b') : l.foldlM g b = some b' := by
  induction l generalizing b
  case nil => exact h
  case cons a l hi =>
    rw [foldlM_cons] at h ⊢
    have ⟨c, hc, h⟩ := Option.bind_eq_some_iff.mp h
    exact Option.bind_eq_some_iff.mpr ⟨c, hf b a c hc, hi h⟩

theorem foldlM_eq_some_self {β : Type*} {f : β → α → Option β} {l : List α} {b : β} (hf : ∀ a ∈ l, f b a = some b) :
    l.foldlM f b = some b := by
  induction l
  case nil => rfl
  case cons a l hi =>
    have ⟨ha, hl⟩ := forall_mem_cons.mp hf
    rw [foldlM_cons, ha]
    exact hi hl

theorem eq_filterMap_of_mapM_eq_some {β : Type*} {f : α → Option β} {l : List α} {r : List β}
    (h : l.mapM f = some r) : r = l.filterMap f := by
  induction l generalizing r
  case nil => simp_all
  case cons a l hi =>
    rw [mapM_cons] at h
    cases ha : f a
    case none => simp [ha] at h
    case some b =>
      cases hl : l.mapM f
      case none => simp [ha, hl] at h
      case some r' =>
        have := hi hl
        simp_all

theorem filterMap_getElem?_range (l : List α) : (range l.length).filterMap (l[·]?) = l := by
  induction l
  case nil          => rfl
  case cons a l hi  => simpa [range_succ_eq_map, filterMap_map, Function.comp_def] using hi

theorem foldl_add_eq {M : Type*} [AddMonoid M] (f : α → M) (l : List α) (b : M) :
    l.foldl (fun sum a => sum + f a) b = b + (l.map f).sum := by
  induction l generalizing b
  case nil          => simp
  case cons a l hi  => rw [foldl_cons, hi, map_cons, sum_cons, add_assoc]

-- Another element in the place of one changes the sum by the difference of the two.
theorem sum_map_replace {M : Type*} [AddCommMonoid M] [DecidableEq α] {l : List α} {u v : α} (f : α → M)
    (hn : l.Nodup) (hu : u ∈ l) :
    ((l.map fun a => if a = u then v else a).map f).sum + f u = (l.map f).sum + f v := by
  induction l
  case nil => simp at hu
  case cons a l hi =>
    have ⟨ha, hn⟩ := nodup_cons.mp hn
    by_cases he : a = u
    case pos =>
      subst he
      have hl : (l.map fun b => if b = a then v else b) = l.map id :=
        map_congr_left fun b hb => if_neg <| ne_of_mem_of_not_mem hb ha
      rw [map_cons, if_pos rfl, map_cons, sum_cons, hl, map_id, map_cons, sum_cons, add_comm, add_assoc,
        add_comm (f v)]
    case neg =>
      have hi := hi hn <| (mem_cons.mp hu).resolve_left (Ne.symm he)
      rw [map_cons, if_neg he, map_cons, sum_cons, add_assoc, hi, map_cons, sum_cons, add_assoc]

theorem foldl_max_le_iff {κ : Type*} [LinearOrder κ] {l : List κ} {b c : κ} :
    l.foldl max b ≤ c ↔ b ≤ c ∧ ∀ a ∈ l, a ≤ c := by
  induction l generalizing b
  case nil          => simp
  case cons a l hi  => rw [foldl_cons, hi, max_le_iff, forall_mem_cons, and_assoc]

-- The greatest element does not depend on the order.
theorem foldl_max_congr {κ : Type*} [LinearOrder κ] {l l' : List κ} {b : κ} (h : ∀ a, a ∈ l ↔ a ∈ l') :
    l.foldl max b = l'.foldl max b := by
  refine eq_of_forall_ge_iff fun c => ?_
  simp only [foldl_max_le_iff, h]

-- Looking an element up by its number finds what a search finds.
theorem find?_zipIdx_bind (p : α → Bool) (l : List α) :
    ((l.zipIdx.find? (p ·.1)).map (·.2)).bind (l[·]?) = l.find? p := by
  have hf : l.find? p = (l.zipIdx.find? (p ·.1)).map (·.1) := by
    have : (l.zipIdx.map Prod.fst).find? p = (l.zipIdx.find? (p ·.1)).map (·.1) := find?_map
    rwa [zipIdx_map_fst] at this
  rw [hf]
  cases h : l.zipIdx.find? (p ·.1)
  case none      => rfl
  case some pair => exact mem_zipIdx_iff_getElem?.mp <| mem_of_find?_eq_some h

-- An element that a strict order tells apart is found exactly when it is the only one.
theorem find?_eq_some_iff_filter {r : α → α → Prop} {l : List α} {a : α} (h : l.Pairwise r)
    (hp : ∀ a b, p a → p b → ¬r a b) : l.find? p = some a ↔ l.filter p = [a] := by
  rw [← head?_filter]
  have hl := h.filter p
  have hm : ∀ b ∈ l.filter p, p b := fun b hb => (mem_filter.mp hb).right
  generalize l.filter p = found at hl hm
  cases found
  case nil => simp
  case cons b found =>
    cases found
    case nil => simp
    case cons c found =>
      have := hp b c (hm b (by simp)) (hm c (by simp))
      simp [this] at hl

end List
