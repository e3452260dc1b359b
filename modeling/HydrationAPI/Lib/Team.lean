import HydrationAPI.Lib.Asks
import Mathlib.Logic.Function.Basic

/-!
# Programs side by side

Several programs run on one world, in any order of their questions. What the others do to a program
is then not assumed but is what they are answered, so that it is enough to know of each program what
kind of questions it asks, and of each kind what an answer does to the others. Programs begin and
are over, and something may happen that ends them all at once.
-/

namespace Dialogue

variable {ι Q W : Type} {A : Q → Type} {α : ι → Type}

/-- What is running, and the world it runs in. -/
structure Team (ι Q : Type) (A : Q → Type) (α : ι → Type) (W : Type) where
  running : (i : ι) → Option (Dialogue Q A (α i))
  world : W

/-- What may happen to a team. -/
structure Team.Rules (ι Q : Type) (A : Q → Type) (α : ι → Type) (W : Type) where
  answers : (q : Q) → W → A q → W → Prop
  /-- What becomes of the world when a program begins. -/
  begins : (i : ι) → Dialogue Q A (α i) → W → W → Prop
  /-- What becomes of it when a program that is done leaves. -/
  leaves : (i : ι) → α i → W → W → Prop
  /-- What becomes of it when all that is running ends at once. -/
  fails : W → W → Prop

namespace Team

variable {R : Rules ι Q A α W} {t t' : Team ι Q A α W}

inductive Step [DecidableEq ι] (R : Rules ι Q A α W) (t : Team ι Q A α W) : Team ι Q A α W → Prop
  | begins (i : ι) (p : Dialogue Q A (α i)) (w : W) :
      t.running i = none → R.begins i p t.world w →
        Step R t ⟨Function.update t.running i (some p), w⟩
  | answered (i : ι) (q : Q) (next : A q → Dialogue Q A (α i)) (a : A q) (w : W) :
      t.running i = some (.ask q next) → R.answers q t.world a w →
        Step R t ⟨Function.update t.running i (some (next a)), w⟩
  | leaves (i : ι) (a : α i) (w : W) :
      t.running i = some (.done a) → R.leaves i a t.world w →
        Step R t ⟨Function.update t.running i none, w⟩
  | fails (w : W) : R.fails t.world w → Step R t ⟨fun _ ↦ none, w⟩

/-- What each program relies on and what it keeps to. -/
structure Pact (ι Q : Type) (α : ι → Type) (W : Type) where
  /-- What always holds of the world. -/
  inv : W → Prop
  /-- What holds of it beside that while a program is not running. -/
  rest : ι → W → Prop
  /-- What the questions of a program are like. -/
  kind : ι → Q → Prop
  /-- What the others may do to a program. -/
  rely : ι → W → W → Prop
  /-- What holds of the world when a program is done. -/
  post : (i : ι) → α i → W → Prop

/-- The world of one of the programs. -/
def Pact.env (P : Pact ι Q α W) (R : Rules ι Q A α W) (i : ι) : Env Q A W := ⟨R.answers, P.rely i⟩

/-- A program that is running keeps to it. -/
def Pact.Keeps (P : Pact ι Q α W) (R : Rules ι Q A α W) (i : ι) (p : Dialogue Q A (α i)) (w : W) :
    Prop := Safe (P.env R i) P.inv (P.post i) p w ∧ p.Asks (P.kind i) fun _ ↦ True

/-- The pact is kept to, whatever may happen. -/
structure Pact.Sound (P : Pact ι Q α W) (R : Rules ι Q A α W) : Prop where
  /-- What one is answered, the others can bear. -/
  answered : ∀ i j q w a w', i ≠ j → P.kind j q → P.inv w → R.answers q w a w' → P.inv w' →
    P.rely i w w'
  begins : ∀ i p w w', P.inv w → P.rest i w → R.begins i p w w' →
    P.Keeps R i p w' ∧ ∀ j, j ≠ i → P.rely j w w'
  leaves : ∀ i a w w', P.inv w → P.post i a w → R.leaves i a w w' →
    P.inv w' ∧ P.rest i w' ∧ ∀ j, j ≠ i → P.rely j w w'
  rests : ∀ i w w', P.inv w → P.inv w' → P.rely i w w' → P.rest i w → P.rest i w'
  fails : ∀ w w', P.inv w → R.fails w w' → P.inv w' ∧ ∀ i, P.rest i w'

/-- What holds of each member. -/
def Pact.Member (P : Pact ι Q α W) (R : Rules ι Q A α W) (i : ι) (w : W) :
    Option (Dialogue Q A (α i)) → Prop
  | none => P.rest i w
  | some p => P.Keeps R i p w

/-- What holds of a team all the time. -/
structure Pact.Holds (P : Pact ι Q α W) (R : Rules ι Q A α W) (t : Team ι Q A α W) : Prop where
  inv : P.inv t.world
  members : ∀ i, P.Member R i t.world (t.running i)

variable {P : Pact ι Q α W} {i : ι} {w w' : W}

/-- What the others do leaves a member as it was. -/
theorem Pact.Member.others {r : Option (Dialogue Q A (α i))} (h : P.Sound R) (hr : P.Member R i w r)
    (hw : P.inv w) (hw' : P.inv w') (hrely : P.rely i w w') : P.Member R i w' r := by
  cases r with
  | none => exact h.rests i w w' hw hw' hrely hr
  | some p => exact ⟨hr.1.others hrely, hr.2⟩

/-- What a program leaves behind when it is done. -/
theorem Pact.Holds.done (ht : P.Holds R t) {a : α i} (hdone : t.running i = some (.done a)) :
    P.post i a t.world := by
  have hmember := ht.members i
  rw [hdone] at hmember
  exact hmember.1.ends

variable [DecidableEq ι]

/-- One member goes on, and the others bear it. -/
theorem Pact.Holds.update (h : P.Sound R) (ht : P.Holds R t) {r : Option (Dialogue Q A (α i))}
    (hw : P.inv w) (hr : P.Member R i w r) (hrely : ∀ j, j ≠ i → P.rely j t.world w) :
    P.Holds R ⟨Function.update t.running i r, w⟩ := by
  refine ⟨hw, fun j ↦ ?_⟩
  by_cases hj : j = i
  · subst hj
    simpa using hr
  · simp only [Function.update_of_ne hj]
    exact (ht.members j).others h ht.inv hw (hrely j hj)

theorem Pact.Holds.step (h : P.Sound R) (ht : P.Holds R t) (hstep : Step R t t') :
    P.Holds R t' := by
  cases hstep with
  | begins i p w hnone hbegins =>
    have hmember := ht.members i
    rw [hnone] at hmember
    obtain ⟨hkeeps, hrely⟩ := h.begins i p t.world w ht.inv hmember hbegins
    exact ht.update h hkeeps.1.inv hkeeps hrely
  | answered i q next a w hsome ha =>
    have hmember := ht.members i
    rw [hsome] at hmember
    obtain ⟨hsafe, hasks⟩ := hmember
    have hnext : Safe (P.env R i) P.inv (P.post i) (next a) w :=
      (hsafe _ Relation.ReflTransGen.refl).2 a w ha
    exact ht.update h hnext.inv ⟨hnext, hasks.2 a⟩ fun j hj ↦
      h.answered j i q t.world a w hj hasks.1 ht.inv ha hnext.inv
  | leaves i a w hsome hleaves =>
    have hmember := ht.members i
    rw [hsome] at hmember
    obtain ⟨hinv, hrest, hrely⟩ := h.leaves i a t.world w ht.inv hmember.1.ends hleaves
    exact ht.update h hinv hrest hrely
  | fails w hfails =>
    obtain ⟨hinv, hrest⟩ := h.fails t.world w ht.inv hfails
    exact ⟨hinv, hrest⟩

/-- **What each program keeps to by itself holds of them all together.** -/
theorem Pact.Holds.run (h : P.Sound R) (ht : P.Holds R t)
    (hrun : Relation.ReflTransGen (Step R) t t') : P.Holds R t' := by
  induction hrun with
  | refl => exact ht
  | tail _ hstep ih => exact ih.step h hstep

end Team

end Dialogue
