import Mathlib.Logic.Basic

/-!
# Checks one after the other

A computation that stops at the first error comes to a value if and only if each of its steps does.
A check is a step that may end the matter with an answer of its own; otherwise the rest decides.
-/

namespace Checks

universe u

variable {ε : Type*} {α β : Type u} {x : Except ε α} {f : α → Except ε β} {c : α → Prop}
  [DecidablePred c] {stop y : β} {rest : Except ε β}

/-! ## What a value tells of the steps -/

theorem bind_eq_ok_iff : x >>= f = .ok y ↔ ∃ a, x = .ok a ∧ f a = .ok y := by
  cases x with
  | error e =>
    constructor
    · rintro ⟨⟩
    · rintro ⟨_, ⟨⟩, _⟩
  | ok a =>
    constructor
    · exact fun h ↦ ⟨a, rfl, h⟩
    · rintro ⟨_, ha, h⟩
      exact Except.ok.inj ha ▸ h

theorem check_eq_ok (h : (x >>= fun a ↦ if c a then pure stop else rest) = .ok y) :
    ∃ a, x = .ok a ∧ (c a ∧ y = stop ∨ ¬ c a ∧ rest = .ok y) := by
  obtain ⟨a, ha, h⟩ := bind_eq_ok_iff.mp h
  refine ⟨a, ha, ?_⟩
  by_cases hc : c a
  · rw [if_pos hc] at h
    exact Or.inl ⟨hc, (Except.ok.inj h).symm⟩
  · rw [if_neg hc] at h
    exact Or.inr ⟨hc, h⟩

theorem toOption_eq_some {a : α} : x.toOption = some a ↔ x = .ok a := by
  cases x with
  | error e => exact ⟨nofun, nofun⟩
  | ok b => simp [Except.toOption]

/-! ## Steps that come to a value -/

theorem bind_ok (hx : ∃ a, x = .ok a) (hf : ∀ a, ∃ y, f a = .ok y) : ∃ y, x >>= f = .ok y := by
  obtain ⟨a, rfl⟩ := hx
  exact hf a

theorem check_ok (hx : ∃ a, x = .ok a) (hrest : ∃ y, rest = .ok y) :
    ∃ y, (x >>= fun a ↦ if c a then pure stop else rest) = .ok y := by
  refine bind_ok hx fun a ↦ ?_
  split
  · exact ⟨stop, rfl⟩
  · exact hrest

end Checks
