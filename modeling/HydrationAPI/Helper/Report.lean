import Mathlib.Data.List.AList
import Mathlib.Logic.Relation
import HydrationAPI.Helper.Partial

/-!
# Reporting local changes

Two threads share a set of changed files. The drainer folds into it what it reads from the notify
group and never waits for anything else. The sender takes the set out now and then, together with
the mark that says that something has been missed, and sends first a `Resync` for the mark and then
the files. A send that fails is given back as a mark, not as files.

What has been taken is for a while in neither the set nor a message. It is in the sender's hands
then, and that is where the account of a noted file has to look for it.
-/

namespace HydrationAPI

/-- What happened to a file. -/
inductive Change where
  /-- Content was written. -/
  | modified
  /-- A writable handle was closed. -/
  | closed
  deriving DecidableEq, Repr

structure Observed where
  file : FileId
  what : Change
  deriving DecidableEq, Repr

/-- Files written since the last send, and what happened to them. -/
structure Dirty where
  files : AList fun _ : FileId ↦ Bool
  /-- The kernel dropped events; the daemon has to walk instead. -/
  lost : Bool

namespace Dirty

/-- That a handle was closed is the stronger fact, and stays. -/
def note (d : Dirty) (file : FileId) (what : Change) : Dirty :=
  { d with files := d.files.insert file ((d.files.lookup file).getD false || what == .closed) }

/-- The files, whether something was missed, and what is left. -/
def take (d : Dirty) : List FileId × Bool × Dirty := (d.files.keys, d.lost, ⟨∅, false⟩)

theorem mem_note {d : Dirty} {file f : FileId} {what : Change} :
    f ∈ (d.note file what).files ↔ f = file ∨ f ∈ d.files := AList.mem_insert d.files

@[simp] theorem note_lost (d : Dirty) (file : FileId) (what : Change) :
    (d.note file what).lost = d.lost := rfl

/-- A close is not lost behind a later modification. -/
theorem lookup_note_of_closed {d : Dirty} {f : FileId} (h : d.files.lookup f = some true)
    (file : FileId) (what : Change) : (d.note file what).files.lookup f = some true := by
  by_cases hf : f = file
  · subst hf
    rw [note, AList.lookup_insert, h]
    rfl
  · rw [note, AList.lookup_insert_ne hf]
    exact h

end Dirty

/-- What the sender writes. -/
inductive Report where
  | resync
  | changed (files : List FileId)
  deriving DecidableEq, Repr

/-- Where the sender stands in its loop. -/
inductive Sender where
  | sleeping
  /-- The mark was taken, and `Resync` goes first. -/
  | resyncing (files : List FileId)
  /-- The files are what is left to send. -/
  | reporting (files : List FileId)
  /-- A send failed, with these files and perhaps the mark taken; nothing says so yet. -/
  | failed (files : List FileId) (lost : Bool)
  deriving DecidableEq, Repr

namespace Sender

/-- After the set was taken out. -/
def taken (files : List FileId) (lost : Bool) : Sender :=
  if lost then resyncing files else if files.isEmpty then sleeping else reporting files

/-- After the `Resync`, if there was one to send. -/
def resynced (files : List FileId) : Sender := if files.isEmpty then sleeping else reporting files

/-- The files that the sender has in its hands. -/
def files : Sender → List FileId
  | sleeping => []
  | resyncing files | reporting files | failed files _ => files

/-- Whether it has a mark in its hands. -/
def lost : Sender → Bool
  | sleeping | reporting _ => false
  | resyncing _ => true
  | failed _ lost => lost

/-- The file or a mark that covers it was taken, and is neither sent nor given back. -/
def Holds (s : Sender) (f : FileId) : Prop := f ∈ s.files ∨ s.lost = true

instance (s : Sender) (f : FileId) : Decidable (s.Holds f) := inferInstanceAs (Decidable (_ ∨ _))

@[simp] theorem not_holds_sleeping (f : FileId) : ¬ sleeping.Holds f := by
  simp [Holds, files, lost]

@[simp] theorem resynced_files (files : List FileId) : (resynced files).files = files := by
  unfold resynced
  split
  · rename_i h
    exact (List.isEmpty_iff.mp h).symm
  · rfl

@[simp] theorem taken_files (files : List FileId) (lost : Bool) :
    (taken files lost).files = files := by
  unfold taken
  split
  · rfl
  · exact resynced_files files

@[simp] theorem taken_lost (files : List FileId) (lost : Bool) :
    (taken files lost).lost = lost := by
  cases lost with
  | true => rfl
  | false =>
    rw [taken, if_neg Bool.false_ne_true]
    split <;> rfl

end Sender

/-- What the account remembers. -/
inductive Happened where
  | noted (file : FileId)
  | sent (report : Report)
  deriving DecidableEq, Repr

/-- The message tells the daemon about the file, or tells it to look for itself. -/
def Report.Covers (f : FileId) : Report → Prop
  | .resync => True
  | .changed files => f ∈ files

/-- What has happened since the last time the file was noted, of a history with the latest first. -/
def since (f : FileId) (history : List Happened) : List Happened :=
  history.takeWhile (· ≠ .noted f)

/-- A message sent since then covers the file. -/
def Told (f : FileId) (history : List Happened) : Prop :=
  ∃ report : Report, .sent report ∈ since f history ∧ report.Covers f

section Since

variable {f g : FileId} {history : List Happened} {report : Report}

@[simp] theorem since_noted : since f (.noted f :: history) = [] := by simp [since]

theorem since_cons_ne {e : Happened} (h : e ≠ .noted f) :
    since f (e :: history) = e :: since f history := by
  rw [since, List.takeWhile_cons_of_pos (by simpa using h), ← since]

theorem Told.noted (hne : g ≠ f) (h : Told f history) : Told f (.noted g :: history) := by
  obtain ⟨report, hsent, hcovers⟩ := h
  have hnoted : Happened.noted g ≠ .noted f := fun heq ↦ hne (Happened.noted.inj heq)
  rw [Told, since_cons_ne hnoted]
  exact ⟨report, List.mem_cons_of_mem _ hsent, hcovers⟩

theorem Told.sent (h : Told f history) : Told f (.sent report :: history) := by
  obtain ⟨before, hsent, hcovers⟩ := h
  rw [Told, since_cons_ne Happened.noConfusion]
  exact ⟨before, List.mem_cons_of_mem _ hsent, hcovers⟩

theorem told_sent (h : report.Covers f) : Told f (.sent report :: history) := by
  rw [Told, since_cons_ne Happened.noConfusion]
  exact ⟨report, List.mem_cons_self, h⟩

end Since

/-- Both threads, and what they have done so far. -/
structure Reporter where
  dirty : Dirty
  sender : Sender
  /-- Tells the fetch thread to rebuild the connection. -/
  peerLost : Bool
  /-- The latest first. -/
  history : List Happened

namespace Reporter

variable {r r' : Reporter} {f : FileId}

/-- It starts out knowing that it has missed something. -/
def spawn : Reporter := ⟨⟨∅, true⟩, .sleeping, false, []⟩

def note (r : Reporter) (o : Observed) : Reporter :=
  { r with dirty := r.dirty.note o.file o.what, history := .noted o.file :: r.history }

/-- What the drainer does with what it has read, under one lock. -/
def drain (r : Reporter) (seen : List Observed) (lost : Bool) : Reporter :=
  seen.foldl note { r with dirty := { r.dirty with lost := r.dirty.lost || lost } }

/-- Something may have been missed. -/
def mark (r : Reporter) : Reporter := { r with dirty := { r.dirty with lost := true } }

/-- The sender's lock section; the set gives up its files in any order. -/
def take (r : Reporter) (files : List FileId) : Reporter :=
  { r with dirty := r.dirty.take.2.2, sender := .taken files r.dirty.take.2.1 }

/-- One step of either thread: what it does under the lock, or one send. -/
inductive Step : Reporter → Reporter → Prop
  | drained (r : Reporter) (seen : List Observed) (lost : Bool) : Step r (r.drain seen lost)
  /-- A read that fails is treated as lost changes. -/
  | unread (r : Reporter) : Step r r.mark
  | took (r : Reporter) (files : List FileId) (hsleeping : r.sender = .sleeping)
      (hfiles : files.Perm r.dirty.take.1) : Step r (r.take files)
  | resynced (r : Reporter) (files : List FileId) (hsender : r.sender = .resyncing files) :
      Step r { r with sender := .resynced files, history := .sent .resync :: r.history }
  | resyncFailed (r : Reporter) (files : List FileId) (hsender : r.sender = .resyncing files) :
      Step r { r with sender := .failed files true }
  | reported (r : Reporter) (files : List FileId) (hsender : r.sender = .reporting files) :
      Step r { r with sender := .sleeping, history := .sent (.changed files) :: r.history }
  | reportFailed (r : Reporter) (files : List FileId) (hsender : r.sender = .reporting files) :
      Step r { r with sender := .failed files false }
  /-- The loss is recorded where it belongs, and the fetch thread is told. -/
  | gaveBack (r : Reporter) (files : List FileId) (lost : Bool)
      (hsender : r.sender = .failed files lost) :
      Step r { r.mark with sender := .sleeping, peerLost := true }

/-! ## The account of a noted file -/

/-- Where a noted file is. -/
def Accounted (r : Reporter) (f : FileId) : Prop :=
  f ∈ r.dirty.files ∨ r.dirty.lost = true ∨ r.sender.Holds f ∨ Told f r.history

/-- Every file that was noted is accounted for since it was last noted. -/
def Sound (r : Reporter) : Prop := ∀ f, .noted f ∈ r.history → r.Accounted f

theorem Sound.note (hr : r.Sound) (o : Observed) : (r.note o).Sound := by
  intro f hf
  by_cases hof : o.file = f
  · exact Or.inl (Dirty.mem_note.mpr (Or.inl hof.symm))
  · have hbefore : .noted f ∈ r.history := by
      refine (List.mem_cons.mp hf).resolve_left fun heq ↦ ?_
      exact hof (Happened.noted.inj heq).symm
    rcases hr f hbefore with hdirty | hlost | hholds | htold
    · exact Or.inl (Dirty.mem_note.mpr (Or.inr hdirty))
    · exact Or.inr (Or.inl hlost)
    · exact Or.inr (Or.inr (Or.inl hholds))
    · exact Or.inr (Or.inr (Or.inr (htold.noted hof)))

/-- Raising the mark covers whatever there is, whatever the sender holds. -/
theorem sound_of_lost (h : r.dirty.lost = true) : r.Sound := fun _ _ ↦ Or.inr (Or.inl h)

theorem Sound.drain (hr : r.Sound) (seen : List Observed) (lost : Bool) :
    (r.drain seen lost).Sound := by
  have hmarked : Sound { r with dirty := { r.dirty with lost := r.dirty.lost || lost } } := by
    intro f hf
    rcases hr f hf with hdirty | hlost | hholds | htold
    · exact Or.inl hdirty
    · exact Or.inr (Or.inl (by rw [hlost, Bool.true_or]))
    · exact Or.inr (Or.inr (Or.inl hholds))
    · exact Or.inr (Or.inr (Or.inr htold))
  exact List.foldlRecOn seen _ hmarked fun _ hs o _ ↦ hs.note o

theorem Sound.take (hr : r.Sound) (hsleeping : r.sender = .sleeping) {files : List FileId}
    (hfiles : files.Perm r.dirty.take.1) : (r.take files).Sound := by
  intro f hf
  rcases hr f hf with hdirty | hlost | hholds | htold
  · refine Or.inr (Or.inr (Or.inl (Or.inl ?_)))
    rw [Reporter.take, Sender.taken_files]
    exact hfiles.mem_iff.mpr (AList.mem_keys.mpr hdirty)
  · refine Or.inr (Or.inr (Or.inl (Or.inr ?_)))
    rw [Reporter.take, Sender.taken_lost]
    exact hlost
  · rw [hsleeping] at hholds
    exact absurd hholds (Sender.not_holds_sleeping f)
  · exact Or.inr (Or.inr (Or.inr htold))

/-- A message that covers what the sender gives up for it accounts for the same files. -/
theorem Sound.send (hr : r.Sound) {report : Report} {sender : Sender}
    (hgiven : ∀ f, r.sender.Holds f → sender.Holds f ∨ report.Covers f) :
    Sound { r with sender := sender, history := .sent report :: r.history } := by
  intro f hf
  have hbefore : .noted f ∈ r.history := (List.mem_cons.mp hf).resolve_left nofun
  rcases hr f hbefore with hdirty | hlost | hholds | htold
  · exact Or.inl hdirty
  · exact Or.inr (Or.inl hlost)
  · rcases hgiven f hholds with hkept | hcovers
    · exact Or.inr (Or.inr (Or.inl hkept))
    · exact Or.inr (Or.inr (Or.inr (told_sent hcovers)))
  · exact Or.inr (Or.inr (Or.inr htold.sent))

/-- A send that fails leaves in the sender's hands what was there. -/
theorem Sound.fail (hr : r.Sound) {sender : Sender}
    (hheld : ∀ f, r.sender.Holds f → sender.Holds f) : Sound { r with sender := sender } := by
  intro f hf
  rcases hr f hf with hdirty | hlost | hholds | htold
  · exact Or.inl hdirty
  · exact Or.inr (Or.inl hlost)
  · exact Or.inr (Or.inr (Or.inl (hheld f hholds)))
  · exact Or.inr (Or.inr (Or.inr htold))

theorem Sound.step (h : Step r r') (hr : r.Sound) : r'.Sound := by
  cases h with
  | drained seen lost => exact hr.drain seen lost
  | unread => exact sound_of_lost rfl
  | took files hsleeping hfiles => exact hr.take hsleeping hfiles
  | resynced files hsender => exact hr.send fun f _ ↦ Or.inr trivial
  | resyncFailed files hsender =>
    refine hr.fail fun f hholds ↦ ?_
    rw [hsender] at hholds
    exact hholds
  | reported files hsender =>
    refine hr.send fun f hholds ↦ Or.inr ?_
    rw [hsender] at hholds
    exact hholds.resolve_right Bool.false_ne_true
  | reportFailed files hsender =>
    refine hr.fail fun f hholds ↦ ?_
    rw [hsender] at hholds
    exact hholds
  | gaveBack files lost hsender => exact sound_of_lost rfl

theorem Sound.run (h : Relation.ReflTransGen Step spawn r) : r.Sound := by
  induction h with
  | refl => exact sound_of_lost rfl
  | tail _ hstep ih => exact ih.step hstep

/-- While the sender sleeps, a noted file is in the set, covered by the mark, or told of. -/
theorem accounted_of_sleeping (h : Relation.ReflTransGen Step spawn r)
    (hsleeping : r.sender = .sleeping) (hf : .noted f ∈ r.history) :
    f ∈ r.dirty.files ∨ r.dirty.lost = true ∨ Told f r.history := by
  rcases Sound.run h f hf with hdirty | hlost | hholds | htold
  · exact Or.inl hdirty
  · exact Or.inr (Or.inl hlost)
  · rw [hsleeping] at hholds
    exact absurd hholds (Sender.not_holds_sleeping f)
  · exact Or.inr (Or.inr htold)

/-- A noted file is at every moment in the set, in a message sent since then, covered by a mark or
by a `Resync` sent since then, or, from the take to the end of the sends, in the sender's hands. -/
theorem noted_accounted (h : Relation.ReflTransGen Step spawn r) (hf : .noted f ∈ r.history) :
    f ∈ r.dirty.files
      ∨ (∃ files, .sent (.changed files) ∈ since f r.history ∧ f ∈ files)
      ∨ r.dirty.lost = true ∨ .sent .resync ∈ since f r.history
      ∨ r.sender ≠ .sleeping ∧ r.sender.Holds f := by
  rcases Sound.run h f hf with hdirty | hlost | hholds | ⟨report, hsent, hcovers⟩
  · exact Or.inl hdirty
  · exact Or.inr (Or.inr (Or.inl hlost))
  · refine Or.inr (Or.inr (Or.inr (Or.inr ⟨fun hsleeping ↦ ?_, hholds⟩)))
    rw [hsleeping] at hholds
    exact Sender.not_holds_sleeping f hholds
  · match report, hcovers with
    | .resync, _ => exact Or.inr (Or.inr (Or.inr (Or.inl hsent)))
    | .changed files, hmem => exact Or.inr (Or.inl ⟨files, hsent, hmem⟩)

/-- The first `Resync` is out, and nothing else has happened. -/
theorem run_resynced : Relation.ReflTransGen Step spawn
    ⟨⟨∅, false⟩, .sleeping, false, [.sent .resync]⟩ := by
  have htook : Step spawn ⟨⟨∅, false⟩, .resyncing [], false, []⟩ := .took _ [] rfl .nil
  have hsent : Step ⟨⟨∅, false⟩, .resyncing [], false, []⟩
      ⟨⟨∅, false⟩, .sleeping, false, [.sent .resync]⟩ := .resynced _ [] rfl
  exact .head htook (.single hsent)

/-- Then a file is noted, and the sender takes it. -/
theorem run_taken : Relation.ReflTransGen Step spawn
    ⟨⟨∅, false⟩, .reporting [⟨1, 7⟩], false, [.noted ⟨1, 7⟩, .sent .resync]⟩ := by
  refine run_resynced.tail (.drained _ [⟨⟨1, 7⟩, .modified⟩] false) |>.tail ?_
  exact .took _ [⟨1, 7⟩] rfl (.refl _)

/-- What was taken is in the sender's hands. -/
theorem noted_accounted_taken :
    .reporting [⟨1, 7⟩] ≠ Sender.sleeping ∧ (Sender.reporting [⟨1, 7⟩]).Holds ⟨1, 7⟩ := by
  have h := noted_accounted run_taken (f := ⟨1, 7⟩) List.mem_cons_self
  have hsince : since ⟨1, 7⟩ [.noted ⟨1, 7⟩, .sent .resync] = [] := since_noted
  rw [hsince] at h
  rcases h with h | ⟨files, h, -⟩ | h | h | h
  · exact absurd h (AList.notMem_empty _)
  · exact absurd h List.not_mem_nil
  · exact absurd h Bool.false_ne_true
  · exact absurd h List.not_mem_nil
  · exact h

/-- Between the take and the send a noted file is in neither the set nor a message, and nothing that
is set or sent covers it. -/
theorem noted_unaccounted : ¬ ∀ (r : Reporter) (f : FileId),
    Relation.ReflTransGen Step spawn r → .noted f ∈ r.history →
    f ∈ r.dirty.files ∨ (∃ files, .sent (.changed files) ∈ r.history ∧ f ∈ files)
      ∨ r.dirty.lost = true ∨ .sent .resync ∈ since f r.history := by
  intro h
  rcases h _ ⟨1, 7⟩ run_taken List.mem_cons_self with h | ⟨files, h, -⟩ | h | h
  · exact absurd h (AList.notMem_empty _)
  · simp at h
  · exact absurd h Bool.false_ne_true
  · rw [since_noted] at h
    exact absurd h List.not_mem_nil

end Reporter

end HydrationAPI
