import Mathlib.Data.List.Basic

variable {α β : Type*}

-- A text with places in which a value is shown, and with fixed texts around them.
def Spells (shown output : β → List α) : Prop :=
  ∃ pieces, ∀ value, output value = (shown value).intercalate pieces

namespace Spells

variable {shown output output' : β → List α}

theorem const [Inhabited β] (h : ∀ value value', output value = output value') : Spells shown output :=
  ⟨[output default], fun value => by rw [List.intercalate_singleton, h value]⟩

theorem value : Spells shown shown :=
  ⟨[[], []], fun _ => by simp [List.intercalate_cons_cons]⟩

-- The last piece of the one text and the first piece of the other are one piece of both.
theorem intercalate_append_intercalate (value last first : List α) (front back : List (List α)) :
    value.intercalate (front ++ [last]) ++ value.intercalate (first :: back) =
      value.intercalate (front ++ (last ++ first) :: back) := by
  induction front
  case nil => cases back <;> simp [List.intercalate_cons_cons]
  case cons piece front hi =>
    have hl : front ++ [last] ≠ [] := by simp
    have hr : front ++ (last ++ first) :: back ≠ [] := by simp
    rw [List.cons_append, List.cons_append, List.intercalate_cons_of_ne_nil hl,
      List.intercalate_cons_of_ne_nil hr, List.append_assoc, hi]

theorem append (h : Spells shown output) (h' : Spells shown output') :
    Spells shown fun value => output value ++ output' value := by
  obtain ⟨pieces, h⟩   := h
  obtain ⟨pieces', h'⟩ := h'
  rcases List.eq_nil_or_concat pieces with rfl | ⟨front, last, rfl⟩
  case inl => exact ⟨pieces', fun value => by simp [h, h']⟩
  rcases pieces' with _ | ⟨first, back⟩
  case nil  => exact ⟨front.concat last, fun value => by simp [h, h']⟩
  case cons =>
    refine ⟨front ++ (last ++ first) :: back, fun value => ?_⟩
    simp only [h, h', List.concat_eq_append, intercalate_append_intercalate]

end Spells
