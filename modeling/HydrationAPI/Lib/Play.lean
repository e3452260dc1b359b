import HydrationAPI.Lib.Dialogue

/-!
# Programs that are answered by a function

Where every answer is determined by the question and by a state, a program has one run. The run of a
program that is made of two is that of the first, and then that of the second.
-/

namespace Dialogue

variable {Q : Type} {A : Q → Type} {α β W : Type}

/-- The one run of a program. -/
def play (answer : (q : Q) → W → A q × W) : Dialogue Q A α → W → α × W
  | done a, w => (a, w)
  | ask q next, w => play answer (next (answer q w).1) (answer q w).2

theorem play_bind (answer : (q : Q) → W → A q × W) (p : Dialogue Q A α) (f : α → Dialogue Q A β)
    (w : W) :
    play answer (p.bind f) w = play answer (f (play answer p w).1) (play answer p w).2 := by
  induction p generalizing w with
  | done a => rfl
  | ask q next ih => exact ih _ _

/-- The one run is a run of any world that can answer so. -/
theorem play_steps {E : Env Q A W} {answer : (q : Q) → W → A q × W}
    (hanswers : ∀ q w, E.answers q w (answer q w).1 (answer q w).2) (p : Dialogue Q A α) (w : W) :
    Relation.ReflTransGen (Step E) (p, w) (.done (play answer p w).1, (play answer p w).2) := by
  induction p generalizing w with
  | done a => exact Relation.ReflTransGen.refl
  | ask q next ih => exact Relation.ReflTransGen.head (.answered (hanswers q w)) (ih _ _)

end Dialogue

namespace Errand

open Dialogue

variable {Q : Type} {A : Q → Type} {S ε α β W : Type} {answer : (q : Q) → W → A q × W}
  {m : Errand Q A S ε α} {s s' : S} {w w' : W}

theorem play_bind_ok {f : α → Errand Q A S ε β} {a : α}
    (h : play answer (m s) w = ((.ok a, s'), w')) :
    play answer ((m >>= f) s) w = play answer (f a s') w' := by
  have hbind := play_bind answer (m s) (resume f) w
  rw [h] at hbind
  exact hbind

theorem play_bind_error {f : α → Errand Q A S ε β} {e : ε}
    (h : play answer (m s) w = ((.error e, s'), w')) :
    play answer ((m >>= f) s) w = ((.error e, s'), w') := by
  have hbind := play_bind answer (m s) (resume f) w
  rw [h] at hbind
  exact hbind

theorem play_attempt {r : Except ε α} (h : play answer (m s) w = ((r, s'), w')) :
    play answer (attempt m s) w = ((.ok r, s'), w') := by
  have hbind := play_bind answer (m s)
    (fun p ↦ (.done (.ok p.1, p.2) : Dialogue Q A (Except ε (Except ε α) × S))) w
  rw [h] at hbind
  exact hbind

end Errand
