import Mathlib.Data.List.Basic
import Mathlib.Data.List.Induction

/-!
# Since

A machine that takes inputs one after the other, and what has been so since. A fact about its state
that some inputs bring about and some put an end to holds exactly if, in the history, one that
brings it about has come after the last that ends it.
-/

namespace History

variable {σ ι : Type*} (step : σ → ι → σ) (init : σ)

/-- The state after a history. -/
def run (cs : List ι) : σ := cs.foldl step init

/-- An input that starts it was met, and from there on none that stops it, each judged by the state
it was met in. -/
def Since (start stop : σ → ι → Prop) (cs : List ι) : Prop :=
  ∃ a c b, cs = a ++ c :: b ∧ start (run step init a) c
    ∧ ∀ b₁ d b₂, b = b₁ ++ d :: b₂ → ¬ stop (run step init (a ++ c :: b₁)) d

variable {step init} {start stop : σ → ι → Prop} {cs : List ι} {c : ι}

theorem run_concat (cs : List ι) (c : ι) :
    run step init (cs ++ [c]) = step (run step init cs) c := by
  rw [run, List.foldl_append, List.foldl_cons, List.foldl_nil]
  rfl

theorem not_since_nil : ¬ Since step init start stop [] := by
  rintro ⟨a, c, b, h, -⟩
  exact absurd h.symm (List.append_ne_nil_of_right_ne_nil a (List.cons_ne_nil c b))

/-- **One input more**: it starts it, or it does not stop it. -/
theorem since_concat : Since step init start stop (cs ++ [c])
    ↔ start (run step init cs) c
      ∨ Since step init start stop cs ∧ ¬ stop (run step init cs) c := by
  constructor
  · rintro ⟨a, x, b, h, hstart, hstop⟩
    rcases List.eq_nil_or_concat' b with rfl | ⟨b', e, rfl⟩
    · obtain ⟨rfl, hx⟩ := List.append_inj' h rfl
      obtain rfl := List.singleton_inj.mp hx
      exact Or.inl hstart
    · have hsplit : cs ++ [c] = (a ++ x :: b') ++ [e] := by
        rw [h, List.append_assoc, List.cons_append]
      obtain ⟨rfl, hx⟩ := List.append_inj' hsplit rfl
      obtain rfl := List.singleton_inj.mp hx
      refine Or.inr ⟨⟨a, x, b', rfl, hstart, fun b₁ d b₂ hb ↦ ?_⟩, hstop b' c [] rfl⟩
      exact hstop b₁ d (b₂ ++ [c]) (by rw [hb, List.append_assoc, List.cons_append])
  · rintro (hstart | ⟨⟨a, x, b, rfl, hstart, hstop⟩, hlast⟩)
    · refine ⟨cs, c, [], rfl, hstart, fun b₁ d b₂ hb ↦ ?_⟩
      exact absurd hb.symm (List.append_ne_nil_of_right_ne_nil b₁ (List.cons_ne_nil d b₂))
    · refine ⟨a, x, b ++ [c], by rw [List.append_assoc, List.cons_append], hstart, ?_⟩
      intro b₁ d b₂ hb
      rcases List.eq_nil_or_concat' b₂ with rfl | ⟨b', e, rfl⟩
      · obtain ⟨rfl, hd⟩ := List.append_inj' hb rfl
        obtain rfl := List.singleton_inj.mp hd
        exact hlast
      · have hsplit : b ++ [c] = (b₁ ++ d :: b') ++ [e] := by
          rw [hb, List.append_assoc, List.cons_append]
        exact hstop b₁ d b' (List.append_inj' hsplit rfl).1

/-- **A fact that is started and stopped holds since it was started.** -/
theorem holds_iff_since {holds : σ → Prop} (hinit : ¬ holds init)
    (hstep : ∀ s c, holds (step s c) ↔ start s c ∨ holds s ∧ ¬ stop s c) (cs : List ι) :
    holds (run step init cs) ↔ Since step init start stop cs := by
  induction cs using List.reverseRecOn with
  | nil => exact iff_of_false hinit not_since_nil
  | append_singleton cs c ih => rw [run_concat, hstep, ih, since_concat]

/-- What holds at first and is kept by every input holds after every history. -/
theorem run_induction {holds : List ι → σ → Prop} (hinit : holds [] init)
    (hstep : ∀ cs c, holds cs (run step init cs) → holds (cs ++ [c]) (step (run step init cs) c))
    (cs : List ι) : holds cs (run step init cs) := by
  induction cs using List.reverseRecOn with
  | nil => exact hinit
  | append_singleton cs c ih =>
    rw [run_concat]
    exact hstep cs c ih

end History
