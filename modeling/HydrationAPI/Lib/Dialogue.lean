import Mathlib.Data.List.Chain
import Mathlib.Logic.Relation

/-!
# Programs that ask

A program asks one question after another of a world that others change in the meantime. A question
is put to the world as it is when it is answered, so that between any two questions, and before the
first and after the last, the others may have taken any number of steps.

What such a program keeps is shown by one rule for each thing it can do; the rule for a question
needs a property of the world that the others keep.
-/

/-- A program that asks questions, each of which is answered, until it is done. -/
inductive Dialogue (Q : Type) (A : Q → Type) (α : Type) where
  | done (a : α)
  | ask (q : Q) (next : A q → Dialogue Q A α)

namespace Dialogue

variable {Q : Type} {A : Q → Type} {α β : Type} {W : Type}

protected def bind : Dialogue Q A α → (α → Dialogue Q A β) → Dialogue Q A β
  | done a, f => f a
  | ask q next, f => ask q fun a ↦ (next a).bind f

/-- A world: what an answer may be, with the world after it, and what the others may do. -/
structure Env (Q : Type) (A : Q → Type) (W : Type) where
  answers : (q : Q) → W → A q → W → Prop
  others : W → W → Prop

/-- The runs of a world whose answers all meet a condition. -/
def Env.under (E : Env Q A W) (C : (q : Q) → W → A q → W → Prop) : Env Q A W :=
  ⟨fun q w a w' ↦ E.answers q w a w' ∧ C q w a w', E.others⟩

/-- A program and the world it is in. -/
inductive Step (E : Env Q A W) : Dialogue Q A α × W → Dialogue Q A α × W → Prop
  | others {p : Dialogue Q A α} {w w' : W} : E.others w w' → Step E (p, w) (p, w')
  | answered {q : Q} {next : A q → Dialogue Q A α} {a : A q} {w w' : W} :
      E.answers q w a w' → Step E (ask q next, w) (next a, w')

/-! ## What is kept -/

/-- Whatever is answered and whatever the others do, `I` holds of the world all the time, and `post`
of what the program is done with from then on. -/
def Safe (E : Env Q A W) (I : W → Prop) (post : α → W → Prop) : Dialogue Q A α → W → Prop
  | done a, w => ∀ w', Relation.ReflTransGen E.others w w' → I w' ∧ post a w'
  | ask q next, w => ∀ w', Relation.ReflTransGen E.others w w' →
      I w' ∧ ∀ a w'', E.answers q w' a w'' → Safe E I post (next a) w''

variable {E : Env Q A W} {I : W → Prop} {post post' : α → W → Prop} {p : Dialogue Q A α} {w w' : W}

theorem Safe.others (h : Safe E I post p w) (hothers : E.others w w') : Safe E I post p w' := by
  match p with
  | done a => exact fun v hv ↦ h v (Relation.ReflTransGen.head hothers hv)
  | ask q next => exact fun v hv ↦ h v (Relation.ReflTransGen.head hothers hv)

theorem Safe.inv (h : Safe E I post p w) : I w := by
  match p with
  | done a => exact (h w Relation.ReflTransGen.refl).1
  | ask q next => exact (h w Relation.ReflTransGen.refl).1

theorem Safe.ends {a : α} (h : Safe E I post (done a) w) : post a w :=
  (h w Relation.ReflTransGen.refl).2

theorem Safe.step {s s' : Dialogue Q A α × W} (h : Safe E I post s.1 s.2) (hstep : Step E s s') :
    Safe E I post s'.1 s'.2 := by
  match hstep with
  | .others hothers => exact h.others hothers
  | .answered ha => exact (h _ Relation.ReflTransGen.refl).2 _ _ ha

/-- **What is safe stays so in every run.** -/
theorem Safe.run {s s' : Dialogue Q A α × W} (h : Safe E I post s.1 s.2)
    (hrun : Relation.ReflTransGen (Step E) s s') : Safe E I post s'.1 s'.2 := by
  induction hrun with
  | refl => exact h
  | tail _ hstep ih => exact ih.step hstep

theorem Safe.mono (h : Safe E I post p w) (hpost : ∀ a w, I w → post a w → post' a w) :
    Safe E I post' p w := by
  induction p generalizing w with
  | done a => exact fun v hv ↦ ⟨(h v hv).1, hpost a v (h v hv).1 (h v hv).2⟩
  | ask q next ih => exact fun v hv ↦ ⟨(h v hv).1, fun a v' ha ↦ ih a ((h v hv).2 a v' ha)⟩

theorem Safe.bind {f : α → Dialogue Q A β} {post : β → W → Prop}
    (h : Safe E I (fun a w ↦ Safe E I post (f a) w) p w) : Safe E I post (p.bind f) w := by
  induction p generalizing w with
  | done a => exact h.ends
  | ask q next ih => exact fun v hv ↦ ⟨(h v hv).1, fun a v' ha ↦ ih a ((h v hv).2 a v' ha)⟩

/-- The others keep the property. -/
def Stable (E : Env Q A W) (P : W → Prop) : Prop := ∀ w w', E.others w w' → P w → P w'

theorem Stable.reach {P : W → Prop} (h : Stable E P) (hw : P w)
    (hreach : Relation.ReflTransGen E.others w w') : P w' := by
  induction hreach with
  | refl => exact hw
  | tail _ hothers ih => exact h _ _ hothers ih

theorem safe_done {P : W → Prop} {a : α} (hstable : Stable E P) (hw : P w)
    (hpost : ∀ w, P w → I w ∧ post a w) : Safe E I post (done a) w :=
  fun v hv ↦ hpost v (hstable.reach hw hv)

theorem safe_ask {P : W → Prop} {q : Q} {next : A q → Dialogue Q A α} (hstable : Stable E P)
    (hw : P w) (hinv : ∀ w, P w → I w)
    (hnext : ∀ w a w', P w → E.answers q w a w' → Safe E I post (next a) w') :
    Safe E I post (ask q next) w :=
  fun v hv ↦ ⟨hinv v (hstable.reach hw hv), fun a v' ha ↦ hnext v a v' (hstable.reach hw hv) ha⟩

/-! ## A program where more can be asked -/

section Via

variable {Q' : Type} {A' : Q' → Type} {f : Q → Q'} {g : ∀ q, A' (f q) → A q}

/-- The same program, whose questions are some among others. -/
def via (f : Q → Q') (g : ∀ q, A' (f q) → A q) : Dialogue Q A α → Dialogue Q' A' α
  | done a => done a
  | ask q next => ask (f q) fun a ↦ (next (g q a)).via f g

/-- **It is as safe there as it was**, if those questions are answered as they were. -/
theorem Safe.via {E' : Env Q' A' W} (h : Safe E I post p w)
    (hothers : ∀ w w', E'.others w w' → E.others w w')
    (hanswers : ∀ q w a w', E'.answers (f q) w a w' → E.answers q w (g q a) w') :
    Safe E' I post (p.via f g) w := by
  induction p generalizing w with
  | done a => exact fun v hv ↦ h v (Relation.ReflTransGen.mono hothers _ _ hv)
  | ask q next ih =>
    intro v hv
    obtain ⟨hinv, hnext⟩ := h v (Relation.ReflTransGen.mono hothers _ _ hv)
    exact ⟨hinv, fun a v' ha ↦ ih (g q a) (hnext (g q a) v' (hanswers q v a v' ha))⟩

end Via

/-! ## What only the others end -/

/-- At one step of a run the others have ended a property. -/
def EndedByOthers (E : Env Q A W) (P : W → Prop) (run : List (Dialogue Q A α × W)) : Prop :=
  ∃ before p u v after, run = before ++ (p, u) :: (p, v) :: after ∧ E.others u v ∧ P u ∧ ¬ P v

/-- **What no answer ends lasts until the others end it**, if what it takes beside it lasts too. -/
theorem kept_or_ended {P X : W → Prop} {Inv : Dialogue Q A α × W → Prop}
    (hinv : ∀ s s', Step E s s' → Inv s → Inv s')
    (hothers : ∀ w w', E.others w w' → P w → X w → P w' → X w')
    (hanswers : ∀ q next a w w', Inv (ask q next, w) → Inv (next a, w') → E.answers q w a w' →
      P w → X w → P w' ∧ X w')
    {s : Dialogue Q A α × W} {run : List (Dialogue Q A α × W)} (hs : Inv s) (hP : P s.2)
    (hX : X s.2) (hrun : (s :: run).IsChain (Step E)) :
    (∀ m ∈ run, P m.2 ∧ X m.2) ∨ EndedByOthers E P (s :: run) := by
  induction run generalizing s with
  | nil => exact Or.inl fun m hm ↦ absurd hm List.not_mem_nil
  | cons t run ih =>
    obtain ⟨hstep, hrest⟩ := List.isChain_cons_cons.mp hrun
    have ht := hinv s t hstep hs
    have hnext : P t.2 ∧ X t.2 ∨ EndedByOthers E P (s :: t :: run) := by
      cases hstep with
      | @others p w w' ho =>
        by_cases hP' : P w'
        · exact Or.inl ⟨hP', hothers w w' ho hP hX hP'⟩
        · exact Or.inr ⟨[], p, w, w', run, rfl, ho, hP, hP'⟩
      | @answered q next a w w' ha => exact Or.inl (hanswers q next a w w' hs ht ha hP hX)
    refine hnext.elim (fun hkept ↦ ?_) Or.inr
    rcases ih ht hkept.1 hkept.2 hrest with hall | ⟨before, p, u, v, after, heq, hended⟩
    · exact Or.inl (List.forall_mem_cons.mpr ⟨hkept, hall⟩)
    · exact Or.inr ⟨s :: before, p, u, v, after, by rw [heq, List.cons_append], hended⟩

end Dialogue

/-! ## Programs with a state that may fail -/

/-- A program with a state of its own that ends with a result or an error. -/
def Errand (Q : Type) (A : Q → Type) (S ε α : Type) : Type := S → Dialogue Q A (Except ε α × S)

namespace Errand

open Dialogue

variable {Q : Type} {A : Q → Type} {S ε α β : Type} {W : Type}

protected def pure (a : α) : Errand Q A S ε α := fun s ↦ .done (.ok a, s)

def throw (e : ε) : Errand Q A S ε α := fun s ↦ .done (.error e, s)

/-- How a program goes on after a result; after an error it does not. -/
def resume (f : α → Errand Q A S ε β) : Except ε α × S → Dialogue Q A (Except ε β × S)
  | (.ok a, s) => f a s
  | (.error e, s) => .done (.error e, s)

protected def bind (m : Errand Q A S ε α) (f : α → Errand Q A S ε β) : Errand Q A S ε β :=
  fun s ↦ (m s).bind (resume f)

instance : Monad (Errand Q A S ε) where
  pure := Errand.pure
  bind := Errand.bind

/-- An error becomes the result. -/
def attempt (m : Errand Q A S ε α) : Errand Q A S ε (Except ε α) :=
  fun s ↦ (m s).bind fun (r, s) ↦ .done (.ok r, s)

def state : Errand Q A S ε S := fun s ↦ .done (.ok s, s)

def modify (f : S → S) : Errand Q A S ε Unit := fun s ↦ .done (.ok (), f s)

def ask (q : Q) : Errand Q A S ε (A q) := fun s ↦ .ask q fun a ↦ .done (.ok a, s)

/-- An answer that may itself be an error. -/
def lift (r : Except ε α) : Errand Q A S ε α := fun s ↦ .done (r, s)

variable {E : Env Q A W} {I : W → Prop} {post post' : Except ε α → S → W → Prop}
  {m : Errand Q A S ε α} {s : S} {w : W}

/-- Begun in a state, in a world, the program is safe: `I` holds all the time, and `post` when it
has ended. -/
def Meets (E : Env Q A W) (I : W → Prop) (post : Except ε α → S → W → Prop) (m : Errand Q A S ε α)
    (s : S) (w : W) : Prop :=
  Safe E I (fun r w ↦ post r.1 r.2 w) (m s) w

/-- `I` holds in every run. -/
theorem Meets.run {r : Dialogue Q A (Except ε α × S) × W} (h : Meets E I post m s w)
    (hrun : Relation.ReflTransGen (Step E) (m s, w) r) : I r.2 :=
  have hsafe : ∀ p : Dialogue Q A (Except ε α × S) × W, Safe E I (fun r w ↦ post r.1 r.2 w) p.1 p.2 →
      Relation.ReflTransGen (Step E) p r → I r.2 := fun _ h hrun ↦ (h.run hrun).inv
  hsafe (m s, w) h hrun

/-- What holds when a program ends is kept by the others, and implies `I`. -/
structure Lasting (E : Env Q A W) (I : W → Prop) (post : Except ε α → S → W → Prop) : Prop where
  stable : ∀ r s, Stable E (post r s)
  inv : ∀ r s w, post r s w → I w

theorem meets_lift {r : Except ε α} (hlasts : Lasting E I post) (h : post r s w) :
    Meets E I post (lift r) s w :=
  safe_done (hlasts.stable r s) h fun v hv ↦ ⟨hlasts.inv r s v hv, hv⟩

theorem meets_pure {a : α} (hlasts : Lasting E I post) (h : post (.ok a) s w) :
    Meets E I post (pure a) s w := meets_lift hlasts h

theorem meets_throw {e : ε} (hlasts : Lasting E I post) (h : post (.error e) s w) :
    Meets E I post (throw e) s w := meets_lift hlasts h

theorem Meets.mono (h : Meets E I post m s w) (hpost : ∀ r s w, I w → post r s w → post' r s w) :
    Meets E I post' m s w := Safe.mono h fun r w hw h ↦ hpost r.1 r.2 w hw h

/-- **One program after another**: the second meets what is asked in every state the first can
leave, and so does every error of the first. -/
theorem meets_bind {f : α → Errand Q A S ε β} {post : Except ε β → S → W → Prop}
    {mid : Except ε α → S → W → Prop} (hlasts : Lasting E I post) (h : Meets E I mid m s w)
    (hok : ∀ a s w, I w → mid (.ok a) s w → Meets E I post (f a) s w)
    (herror : ∀ e s w, I w → mid (.error e) s w → post (.error e) s w) :
    Meets E I post (m >>= f) s w := by
  refine Safe.bind (Safe.mono h fun r w hw hr ↦ ?_)
  match r with
  | (.ok a, s) => exact hok a s w hw hr
  | (.error e, s) => exact meets_throw hlasts (herror e s w hw hr)

theorem meets_attempt {post : Except ε (Except ε α) → S → W → Prop} (hlasts : Lasting E I post)
    (h : Meets E I (fun r s w ↦ post (.ok r) s w) m s w) : Meets E I post (attempt m) s w := by
  refine Safe.bind (Safe.mono h fun r w hw hr ↦ ?_)
  obtain ⟨r, s⟩ := r
  exact meets_lift hlasts hr

theorem meets_state {f : S → Errand Q A S ε β} {post : Except ε β → S → W → Prop}
    (h : Meets E I post (f s) s w) : Meets E I post (state >>= f) s w := h

theorem meets_modify {g : S → S} {f : Unit → Errand Q A S ε β} {post : Except ε β → S → W → Prop}
    (h : Meets E I post (f ()) (g s) w) : Meets E I post (modify g >>= f) s w := h

/-- A question is put with a property of the world that the others keep. -/
theorem meets_ask {q : Q} {f : A q → Errand Q A S ε β} {post : Except ε β → S → W → Prop}
    {P : W → Prop} (hstable : Stable E P) (hw : P w) (hinv : ∀ w, P w → I w)
    (hnext : ∀ w a w', P w → E.answers q w a w' → Meets E I post (f a) s w') :
    Meets E I post (ask q >>= f) s w := safe_ask hstable hw hinv hnext

end Errand
