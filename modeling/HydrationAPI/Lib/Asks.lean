import HydrationAPI.Lib.Dialogue

/-!
# What a program may ask

Where every question of a program is of one kind, and no answer to a question of that kind ends a
property of the world, the program keeps the property. What is answered does not matter then, so
that the kind is read off the program alone. So is what holds of every result.

Where it does matter, it is enough to know which answers there can be.
-/

namespace Dialogue

variable {Q : Type} {A : Q → Type} {α β W : Type} {C C' : Q → Prop} {R : α → Prop}
  {p : Dialogue Q A α}

/-- Whatever is answered, every question is of the kind, and `R` holds of the result. -/
def Asks (C : Q → Prop) (R : α → Prop) : Dialogue Q A α → Prop
  | done a => R a
  | ask q next => C q ∧ ∀ a, Asks C R (next a)

theorem Asks.mono (h : Asks C R p) (hC : ∀ q, C q → C' q) : Asks C' R p := by
  induction p with
  | done a => exact h
  | ask q next ih => exact ⟨hC q h.1, fun a ↦ ih a (h.2 a)⟩

theorem Asks.bind {R' : β → Prop} {f : α → Dialogue Q A β} (h : Asks C R p)
    (hf : ∀ a, R a → Asks C R' (f a)) : Asks C R' (p.bind f) := by
  induction p with
  | done a => exact hf a h
  | ask q next ih => exact ⟨h.1, fun a ↦ ih a (h.2 a)⟩

/-- **What no answer to such a question ends is kept.** -/
theorem Asks.safe {E : Env Q A W} {I P : W → Prop} {w : W} (h : Asks C R p) (hstable : Stable E P)
    (hinv : ∀ w, P w → I w) (hkeeps : ∀ q w a w', C q → P w → E.answers q w a w' → P w')
    (hw : P w) : Safe E I (fun a w ↦ R a ∧ P w) p w := by
  induction p generalizing w with
  | done a => exact safe_done hstable hw fun v hv ↦ ⟨hinv v hv, h, hv⟩
  | ask q next ih =>
    exact safe_ask hstable hw hinv fun v a v' hv ha ↦ ih a (h.2 a) (hkeeps q v a v' h.1 hv ha)

/-- As long as what is answered is of what `L` allows, every question is of the kind, and `R` holds
of the result. -/
def AsksGiven (L : (q : Q) → A q → Prop) (C : Q → Prop) (R : α → Prop) : Dialogue Q A α → Prop
  | done a => R a
  | ask q next => C q ∧ ∀ a, L q a → AsksGiven L C R (next a)

variable {L : (q : Q) → A q → Prop}

theorem AsksGiven.bind {R' : β → Prop} {f : α → Dialogue Q A β} (h : AsksGiven L C R p)
    (hf : ∀ a, R a → AsksGiven L C R' (f a)) : AsksGiven L C R' (p.bind f) := by
  induction p with
  | done a => exact hf a h
  | ask q next ih => exact ⟨h.1, fun a ha ↦ ih a (h.2 a ha)⟩

theorem AsksGiven.mono {R' : α → Prop} (h : AsksGiven L C R p) (hR : ∀ a, R a → R' a) :
    AsksGiven L C R' p := by
  induction p with
  | done a => exact hR a h
  | ask q next ih => exact ⟨h.1, fun a ha ↦ ih a (h.2 a ha)⟩

/-- **What no such answer to such a question ends is kept**, and keeps the answers as they are. -/
theorem AsksGiven.safe {E : Env Q A W} {I P : W → Prop} {w : W} (h : AsksGiven L C R p)
    (hstable : Stable E P) (hinv : ∀ w, P w → I w)
    (hkeeps : ∀ q w a w', C q → P w → E.answers q w a w' → L q a ∧ P w')
    (hw : P w) : Safe E I (fun a w ↦ R a ∧ P w) p w := by
  induction p generalizing w with
  | done a => exact safe_done hstable hw fun v hv ↦ ⟨hinv v hv, h, hv⟩
  | ask q next ih =>
    refine safe_ask hstable hw hinv fun v a v' hv ha ↦ ?_
    obtain ⟨hallowed, hv'⟩ := hkeeps q v a v' h.1 hv ha
    exact ih a (h.2 a hallowed) hv'

end Dialogue

namespace Errand

open Dialogue

variable {Q : Type} {A : Q → Type} {S ε α β W : Type} {C C' : Q → Prop} {K : S → Prop}
  {m : Errand Q A S ε α}

/-- Begun in a state in which `K` holds, it asks questions of the kind, and leaves such a state. -/
def Asks (C : Q → Prop) (K : S → Prop) (m : Errand Q A S ε α) : Prop :=
  ∀ s, K s → Dialogue.Asks C (fun r ↦ K r.2) (m s)

theorem Asks.mono (h : Asks C K m) (hC : ∀ q, C q → C' q) : Asks C' K m :=
  fun s hs ↦ (h s hs).mono hC

theorem asks_lift {r : Except ε α} : Asks C K (lift r : Errand Q A S ε α) := fun _ hs ↦ hs

theorem asks_pure {a : α} : Asks C K (pure a : Errand Q A S ε α) := asks_lift

theorem asks_throw {e : ε} : Asks C K (throw e : Errand Q A S ε α) := asks_lift

theorem asks_modify {f : S → S} (h : ∀ s, K s → K (f s)) :
    Asks C K (modify f : Errand Q A S ε Unit) := h

theorem asks_ask {q : Q} (h : C q) : Asks C K (ask q : Errand Q A S ε (A q)) :=
  fun _ hs ↦ ⟨h, fun _ ↦ hs⟩

theorem asks_bind {f : α → Errand Q A S ε β} (h : Asks C K m) (hf : ∀ a, Asks C K (f a)) :
    Asks C K (m >>= f) := by
  refine fun s hs ↦ (h s hs).bind fun r hr ↦ ?_
  match r with
  | (.ok a, s) => exact hf a s hr
  | (.error e, s) => exact hr

theorem asks_attempt (h : Asks C K m) : Asks C K (attempt m) :=
  fun s hs ↦ (h s hs).bind fun _ hr ↦ hr

theorem Asks.meets {E : Env Q A W} {I P : W → Prop} {s : S} {w : W} (h : Asks C K m)
    (hstable : Stable E P) (hinv : ∀ w, P w → I w)
    (hkeeps : ∀ q w a w', C q → P w → E.answers q w a w' → P w') (hs : K s) (hw : P w) :
    Meets E I (fun _ s w ↦ K s ∧ P w) m s w :=
  (h s hs).safe hstable hinv hkeeps hw

section Given

variable {L : (q : Q) → A q → Prop} {R : Except ε α × S → Prop} {R' : Except ε β × S → Prop} {s : S}

theorem asksGiven_ask {q : Q} {R : Except ε (A q) × S → Prop} (h : C q)
    (hR : ∀ a, L q a → R (.ok a, s)) :
    AsksGiven L C R ((ask q : Errand Q A S ε (A q)) s) := ⟨h, hR⟩

theorem asksGiven_bind {f : α → Errand Q A S ε β} (h : AsksGiven L C R (m s))
    (hok : ∀ a s', R (.ok a, s') → AsksGiven L C R' (f a s'))
    (herror : ∀ e s', R (.error e, s') → R' (.error e, s')) :
    AsksGiven L C R' ((m >>= f) s) := by
  refine h.bind fun r hr ↦ ?_
  match r with
  | (.ok a, s') => exact hok a s' hr
  | (.error e, s') => exact herror e s' hr

theorem asksGiven_attempt {R : Except ε (Except ε α) × S → Prop}
    (h : AsksGiven L C (fun r ↦ R (.ok r.1, r.2)) (m s)) : AsksGiven L C R (attempt m s) :=
  h.bind fun _ hr ↦ hr

end Given

end Errand
