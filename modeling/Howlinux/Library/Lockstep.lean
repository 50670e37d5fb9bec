import Mathlib

open List

-- Two machines read the same input. What they have in common is compared through a key.
namespace Lockstep

variable {σ τ ι κ : Type*} (step : σ → ι → σ) (step' : τ → ι → τ) (key : σ → κ) (key' : τ → κ)

-- After every part of the input the machines have the same key.
def Agree (s : σ) (t : τ) (input : List ι) : Prop :=
  ∀ before after, input = before ++ after → key (before.foldl step s) = key' (before.foldl step' t)

-- The inputs on which machines with the same key part.
def Splits (diverges : κ → ι → Prop) : Prop :=
  ∀ s t i, key s = key' t → (key (step s i) = key' (step' t i) ↔ ¬diverges (key s) i)

variable {step step' key key'} {s : σ} {t : τ} {input : List ι} {diverges : κ → ι → Prop}

theorem Agree.nil (h : key s = key' t) : Agree step step' key key' s t [] := by
  intro before after hb
  have ⟨hb, _⟩ := append_eq_nil_iff.mp hb.symm
  subst hb
  exact h

theorem agree_cons {i : ι} : Agree step step' key key' s t (i :: input) ↔
    key s = key' t ∧ Agree step step' key key' (step s i) (step' t i) input where
  mp h := ⟨h [] _ rfl, fun before after hb => h (i :: before) after (hb ▸ rfl)⟩
  mpr h := by
    intro before after hb
    cases before
    case nil => exact h.left
    case cons j before =>
      have ⟨hj, hr⟩ := cons.inj hb
      subst hj
      exact h.right before after hr

-- The machines agree all along exactly if they do not part at any step.
theorem agree_iff (hs : Splits step step' key key' diverges) (h : key s = key' t) :
    Agree step step' key key' s t input ↔
      ∀ before i after, input = before ++ i :: after → ¬diverges (key (before.foldl step s)) i := by
  induction input generalizing s t
  case nil => exact iff_of_true (.nil h) (by simp)
  case cons i input hi =>
    rw [agree_cons, and_iff_right h]
    constructor
    case mp =>
      intro ha before j after hb
      have hk := ha [] _ rfl
      cases before
      case nil =>
        have ⟨hj, _⟩ := cons.inj hb
        subst hj
        exact (hs s t i h).mp hk
      case cons b before =>
        have ⟨hb, hr⟩ := cons.inj hb
        subst hb
        exact (hi hk).mp ha before j after hr
    case mpr =>
      intro hd
      have hk := (hs s t i h).mpr <| hd [] i input rfl
      exact (hi hk).mpr fun before j after hb => hd (i :: before) j after (hb ▸ rfl)

end Lockstep
