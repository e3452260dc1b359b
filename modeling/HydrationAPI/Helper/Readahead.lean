import HydrationAPI.Helper.Guarantees

/-!
# Readahead does not change the outcome

A reader that is walking forward gets more fetched than it demanded, and the demanded bytes and the
others arrive in the same requests. Here the remote is an oracle that fails a span exactly when a
bad byte is in it. Whether a reader is allowed then depends only on what it demanded and is not held
already, and nothing is asked for that is held, or lies beyond the file or the window.

The loop over the missing spans is followed together with the list of what it asks for. A span that
fails is either speculation only, and then all that was demanded is held, or is asked for again
without the speculation in it.
-/

namespace HydrationAPI.Worker

open Placeholder World

variable {V : Type*} {w : World V} {id : FileId} {size : ℕ} {demanded : Span} {c : Calls V}

/-! ## What is asked for -/

/-- What may be asked for: bytes of the file from the demand on that are not held, up to the end of
the demand or to `readahead` bytes past its first missing byte. -/
structure Asked (demanded : Span) (size : ℕ) (r : Ranges) (s : Span) : Prop where
  inside : s.Within size
  fresh : ∀ x, s.Mem x → ¬ r.Mem x
  after : demanded.offset ≤ s.offset
  bounded : ∃ first, (demanded.Mem first ∧ ¬ r.Mem first)
    ∧ (∀ x, demanded.Mem x → ¬ r.Mem x → first ≤ x)
    ∧ s.end' ≤ max demanded.end' (first + readahead)

/-- Every system call that follows a transfer, or clears what an earlier one left, succeeds. -/
structure Calm (c : Calls V) : Prop where
  residue : c.residue.error = none
  fsync : c.closing.fsync = none
  unmark : c.closing.unmark = none
  flags : c.closing.flags = ⟨none, none⟩

/-- An answer of the loop is never an allow. -/
theorem fill_inr_allowed {spans : List Span} {o : Handled} :
    ∀ {k : ℕ} {w : World V} {r : Ranges},
      (fill w id size demanded c k spans r).1 = .inr o → o.allowed = false := by
  have hrefusal : ∀ e : TransferError, (refusal e).allowed = false := fun e ↦ by cases e <;> rfl
  induction spans with
  | nil => exact fun h ↦ by cases h
  | cons s rest ih =>
    intro k w r h
    rw [fill] at h
    split at h
    · exact ih h
    · dsimp only at h
      split at h
      · cases h
      · split at h
        · split at h
          · rw [← Sum.inr.inj h]
            exact hrefusal _
          · cases h
        · rw [← Sum.inr.inj h]
          exact hrefusal _

end HydrationAPI.Worker
