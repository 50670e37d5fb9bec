import Mathlib

-- The order in which a hash container is walked. Nothing is known about it, except that every key
-- comes up once.
structure HashOrder (α : Type*) where
  list  : Finset α → List α
  nodup : ∀ s, (list s).Nodup
  mem   : ∀ s a, a ∈ list s ↔ a ∈ s

namespace HashOrder

variable {α : Type*}

theorem perm_toList (order : HashOrder α) (s : Finset α) : (order.list s).Perm s.toList :=
  (List.perm_ext_iff_of_nodup (order.nodup s) s.nodup_toList).mpr fun a => by simp [order.mem]

theorem perm (o₁ o₂ : HashOrder α) (s : Finset α) : (o₁.list s).Perm (o₂.list s) :=
  (o₁.perm_toList s).trans (o₂.perm_toList s).symm

-- Walking in increasing order is one of the orders.
def sorted [LinearOrder α] : HashOrder α where
  list s  := Quot.liftOn s.val (List.insertionSort (· ≤ ·)) fun _ _ h =>
    (((List.perm_insertionSort _ _).trans h).trans (List.perm_insertionSort _ _).symm).eq_of_pairwise'
      (List.pairwise_insertionSort _ _) (List.pairwise_insertionSort _ _)
  nodup s := by
    have ⟨m, h⟩ := s
    induction m using Quot.inductionOn
    exact (List.perm_insertionSort _ _).nodup_iff.mpr h
  mem s a := by
    have ⟨m, h⟩ := s
    induction m using Quot.inductionOn
    exact List.mem_insertionSort _

end HashOrder

namespace Finmap

variable {α β : Type*} [DecidableEq α]

-- `std::unordered_map::emplace`: a key that is present keeps its value.
def emplace (key : α) (value : β) (m : Finmap fun _ : α => β) : Finmap fun _ : α => β :=
  if key ∈ m then m else m.insert key value

theorem lookup_emplace {key a : α} {value : β} {m : Finmap fun _ : α => β} :
    (m.emplace key value).lookup a =
      if a = key then some ((m.lookup key).getD value) else m.lookup a := by
  unfold emplace
  split
  case isTrue h =>
    have ⟨b, hb⟩ := mem_iff.mp h
    by_cases ha : a = key
    case pos => subst ha; simp [hb]
    case neg => simp [ha]
  case isFalse h =>
    by_cases ha : a = key
    case pos => subst ha; simp [lookup_eq_none.mpr h]
    case neg => simp [ha, lookup_insert_of_ne]

-- A key that comes up several times keeps the first of its values.
theorem lookup_foldl_emplace {γ : Type*} {key : γ → α} {value : γ → β} {l : List γ} {a : α}
    {m : Finmap fun _ : α => β} :
    (l.foldl (fun m c => m.emplace (key c) (value c)) m).lookup a =
      (m.lookup a).or ((l.find? fun c => key c = a).map value) := by
  induction l generalizing m
  case nil => simp
  case cons c l hi =>
    rw [List.foldl_cons, hi, lookup_emplace, List.find?_cons]
    by_cases h : key c = a
    case pos =>
      subst h
      cases m.lookup (key c) <;> simp
    case neg => simp [h, Ne.symm h]

-- `map[key].push_back(value)`.
def push (m : Finmap fun _ : α => List β) (key : α) (value : β) : Finmap fun _ : α => List β :=
  m.insert key ((m.lookup key).getD [] ++ [value])

theorem lookup_push {key a : α} {value : β} {m : Finmap fun _ : α => List β} :
    (m.push key value).lookup a = if a = key then some ((m.lookup a).getD [] ++ [value]) else m.lookup a := by
  by_cases h : a = key
  case pos => subst h; simp [push]
  case neg => simp [push, h, lookup_insert_of_ne]

-- Every key collects its values in the order in which they come.
theorem lookup_foldl_push {γ : Type*} {key : γ → α} {value : γ → β} {l : List γ} {a : α}
    {m : Finmap fun _ : α => List β} :
    (l.foldl (fun m c => m.push (key c) (value c)) m).lookup a =
      if l.any (key · = a) then some ((m.lookup a).getD [] ++ (l.filter (key · = a)).map value) else
        m.lookup a := by
  induction l generalizing m
  case nil => simp
  case cons c l hi =>
    rw [List.foldl_cons, hi, lookup_push]
    by_cases h : key c = a
    case pos =>
      by_cases hl : l.any (key · = a)
      case pos => simp [h, hl]
      case neg =>
        have hf : l.filter (key · = a) = [] := by simpa [List.filter_eq_nil_iff] using hl
        simp [h, hl, hf]
    case neg => simp [h, Ne.symm h]

end Finmap
