import Mathlib.Logic.Function.Basic

/-!
# Updates by key

A list of updates, each of one key, carried out one after the other. What a key has in the end is
what the last update of it says.
-/

namespace Updates

variable {γ κ ν : Type*} [DecidableEq κ] (key : γ → κ) (value : γ → ν)

/-- Carry out one update. -/
def write (m : κ → ν) (c : γ) : κ → ν := Function.update m (key c) (value c)

variable {key value} {m : κ → ν} {k : κ} {l : List γ}

@[simp] theorem write_self (m : κ → ν) (c : γ) : write key value m c (key c) = value c :=
  Function.update_self _ _ _

theorem write_of_ne {c : γ} (h : key c ≠ k) : write key value m c k = m k :=
  Function.update_of_ne (Ne.symm h) _ _

theorem foldl_write_of_absent (h : ∀ c ∈ l, key c ≠ k) : l.foldl (write key value) m k = m k := by
  induction l generalizing m with
  | nil => rfl
  | cons c l ih =>
    rw [List.foldl_cons, ih fun d hd ↦ h d (List.mem_cons_of_mem c hd)]
    exact write_of_ne (h c List.mem_cons_self)

/-- The updates of a key after which all others say the same decide. -/
theorem foldl_write_of_last {a b : List γ} {c : γ} (hc : key c = k)
    (h : ∀ d ∈ b, key d = k → value d = value c) :
    (a ++ c :: b).foldl (write key value) m k = value c := by
  rw [List.foldl_append, List.foldl_cons]
  generalize a.foldl (write key value) m = m'
  have hstart : write key value m' c k = value c := hc ▸ write_self m' c
  generalize write key value m' c = m'' at hstart
  induction b generalizing m'' with
  | nil => exact hstart
  | cons d b ih =>
    rw [List.foldl_cons]
    refine ih (fun e he ↦ h e (List.mem_cons_of_mem d he)) _ ?_
    by_cases hd : key d = k
    · rw [← hd, write_self]
      exact h d List.mem_cons_self hd
    · exact (write_of_ne hd).trans hstart

/-- Where all updates of a key say the same, that is what it has. -/
theorem foldl_write_of_forall {v : ν} (hex : ∃ c ∈ l, key c = k)
    (h : ∀ c ∈ l, key c = k → value c = v) : l.foldl (write key value) m k = v := by
  obtain ⟨c, hc, hkey⟩ := hex
  obtain ⟨a, b, rfl⟩ := List.append_of_mem hc
  rw [← h c hc hkey]
  refine foldl_write_of_last hkey fun d hd hdkey ↦ ?_
  rw [h c hc hkey, h d (List.mem_append_right _ (List.mem_cons_of_mem c hd)) hdkey]

/-- A key that is updated is updated for the last time. -/
theorem exists_last (hex : ∃ c ∈ l, key c = k) :
    ∃ a c b, l = a ++ c :: b ∧ key c = k ∧ ∀ d ∈ b, key d ≠ k := by
  induction l with
  | nil => exact absurd hex fun ⟨_, hc, _⟩ ↦ List.not_mem_nil hc
  | cons e l ih =>
    by_cases hlater : ∃ c ∈ l, key c = k
    · obtain ⟨a, c, b, rfl, hc, hb⟩ := ih hlater
      exact ⟨e :: a, c, b, rfl, hc, hb⟩
    · obtain ⟨c, hc, hkey⟩ := hex
      rcases List.mem_cons.mp hc with rfl | hc
      · exact ⟨[], c, l, rfl, hkey, fun d hd hdkey ↦ hlater ⟨d, hd, hdkey⟩⟩
      · exact absurd ⟨c, hc, hkey⟩ hlater

end Updates
