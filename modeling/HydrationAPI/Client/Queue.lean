import HydrationAPI.Helper.Partial
import Mathlib.Data.Finset.Card
import Mathlib.Data.List.AList

/-!
# Waiting for a file to be left alone

A file that has changed is sent when it has not been touched for a while. Every further touch puts
the moment off; an attempt takes the file out of the queue when it begins, and one that fails puts
it back, with a penalty that doubles from failure to failure.

A file may be touched while it is being sent. Whether that edit is still waiting afterwards, and for
how long, is then up to what becomes of an attempt that is older than the edit.
-/

namespace HydrationAPI.Client

/-- How many times a repeated failure doubles its wait before the cap takes over. -/
def retryDoublings : ℕ := 8

/-- The longest a failing upload waits between attempts, in nanoseconds. -/
def retryCeiling : ℕ := 900 * 10 ^ 9

/-- `Duration::MAX`. -/
def durationMax : ℕ := (2 ^ 64 - 1) * 10 ^ 9 + 999999999

/-- The upload queue. Times are in nanoseconds of a clock that does not go back. -/
structure Queue where
  /-- When the debounce of a file expires. -/
  waiting : AList fun _ : FileId ↦ ℕ
  /-- Uploads that have started. -/
  inFlight : Finset FileId
  debounce : ℕ
  /-- Consecutive failures per file. -/
  failures : AList fun _ : FileId ↦ ℕ

namespace Queue

def new (debounce : ℕ) : Queue := ⟨∅, ∅, debounce, ∅⟩

variable (q : Queue) (now : ℕ) (file : FileId)

def touch : Queue :=
  { q with
    failures := q.failures.erase file
    waiting := q.waiting.insert file (now + q.debounce) }

/-- How many times in a row the file will have failed once it fails again. -/
def failuresAfter : ℕ := min ((q.failures.lookup file).getD 0 + 1) (2 ^ 32 - 1)

/-- The penalty for another failure. -/
def backoff : ℕ :=
  min (min (q.debounce * 2 ^ min (q.failuresAfter file) retryDoublings) durationMax) retryCeiling

def failed : Queue :=
  { q with
    failures := q.failures.insert file (q.failuresAfter file)
    waiting := q.waiting.insert file (now + q.backoff file) }

def sent : Queue := { q with failures := q.failures.erase file }

/-- The queue without a file that was deleted, and whether it was waiting. -/
def cancel : Queue × Bool :=
  ({ q with failures := q.failures.erase file, waiting := q.waiting.erase file },
    (q.waiting.lookup file).isSome)

/-- Every deadline is now. -/
def flushNow : Queue :=
  { q with
    waiting := ⟨q.waiting.entries.map (.map id fun _ _ ↦ now), List.NodupKeys.map₂ _ _ q.waiting.nodupKeys⟩ }

/-- Files whose quiet period has expired. -/
def due : List FileId :=
  ((q.waiting.entries.filter fun e ↦ e.2 ≤ now).map Sigma.fst).mergeSort fun f g ↦
    f.fsid < g.fsid ∨ f.fsid = g.fsid ∧ f.ino ≤ g.ino

/-- Everything not yet in the cloud. -/
def pending : ℕ := q.waiting.keys.length + q.inFlight.card

def isWaiting : Bool := (q.waiting.lookup file).isSome

/-- Claim a due file for upload. -/
def begin : Queue :=
  { q with waiting := q.waiting.erase file, inFlight := insert file q.inFlight }

/-- Release a claim. -/
def finish : Queue := { q with inFlight := q.inFlight.erase file }

end Queue

/-! ## What is done to the queue -/

inductive QueueOp where
  | touch (file : FileId)
  | cancel (file : FileId)
  | begin (file : FileId)
  | finish (file : FileId)
  | failed (file : FileId)
  | sent (file : FileId)
  | flush
  deriving DecidableEq, Repr

namespace Queue

/-- What is done at a time. -/
def apply (q : Queue) : ℕ × QueueOp → Queue
  | (now, .touch file) => q.touch now file
  | (_, .cancel file) => (q.cancel file).1
  | (_, .begin file) => q.begin file
  | (_, .finish file) => q.finish file
  | (now, .failed file) => q.failed now file
  | (_, .sent file) => q.sent file
  | (now, .flush) => q.flushNow now

/-- A new queue after all that has been done to it. -/
def after (debounce : ℕ) (ops : List (ℕ × QueueOp)) : Queue := ops.foldl apply (new debounce)

/-- When an edit was last made to the file that no attempt has begun with and nothing has
cancelled. -/
def edited (file : FileId) (last : Option ℕ) : ℕ × QueueOp → Option ℕ
  | (now, .touch f) => if f = file then some now else last
  | (_, .begin f) | (_, .cancel f) => if f = file then none else last
  | (_, .finish _) | (_, .failed _) | (_, .sent _) | (_, .flush) => last

def lastEdit (file : FileId) (ops : List (ℕ × QueueOp)) : Option ℕ :=
  ops.foldl (edited file) none

/-- From `now` on, a file that was touched at `touched` is due once its debounce is over. -/
def Prompt (q : Queue) (now touched : ℕ) (file : FileId) : Prop :=
  q.isWaiting file = true
    ∧ ∀ later, now ≤ later → touched + q.debounce ≤ later → file ∈ q.due later

/-- At a time, all that has been touched since it was last begun is waiting, and promptly due. -/
def AllPrompt (debounce : ℕ) (ops : List (ℕ × QueueOp)) (now : ℕ) : Prop :=
  ∀ file touched, lastEdit file ops = some touched → (after debounce ops).Prompt now touched file

/-! ## When a file is due -/

variable {q : Queue} {now later touched : ℕ} {file other : FileId}

@[simp] theorem lookup_flushNow :
    (q.flushNow now).waiting.lookup file = (q.waiting.lookup file).map fun _ ↦ now :=
  List.dlookup_map₂ file

theorem mem_due : file ∈ q.due now ↔ ∃ at', q.waiting.lookup file = some at' ∧ at' ≤ now := by
  rw [due, List.mem_mergeSort, List.mem_map]
  constructor
  · rintro ⟨⟨f, at'⟩, he, rfl⟩
    obtain ⟨hmem, hle⟩ := List.mem_filter.mp he
    exact ⟨at', AList.mem_lookup_iff.mpr hmem, of_decide_eq_true hle⟩
  · rintro ⟨at', hlookup, hle⟩
    exact ⟨⟨file, at'⟩, List.mem_filter.mpr ⟨AList.mem_lookup_iff.mp hlookup,
      decide_eq_true hle⟩, rfl⟩

/-- A file is promptly due exactly if its deadline is no later than its debounce, or is past. -/
theorem prompt_iff : q.Prompt now touched file
    ↔ ∃ at', q.waiting.lookup file = some at' ∧ at' ≤ max now (touched + q.debounce) := by
  constructor
  · rintro ⟨-, hdue⟩
    exact mem_due.mp (hdue _ (le_max_left _ _) (le_max_right _ _))
  · rintro ⟨at', hlookup, hle⟩
    refine ⟨?_, fun later hnow hlater ↦ mem_due.mpr ⟨at', hlookup, hle.trans (max_le hnow hlater)⟩⟩
    rw [isWaiting, hlookup]
    rfl

/-- A file that is promptly due stays so until something is done to the queue. -/
theorem Prompt.mono (h : q.Prompt now touched file) (hle : now ≤ later) :
    q.Prompt later touched file :=
  ⟨h.1, fun t hlater ht ↦ h.2 t (hle.trans hlater) ht⟩

/-! ## What an attempt does to a later edit -/

@[simp] theorem debounce_apply (op : ℕ × QueueOp) : (q.apply op).debounce = q.debounce := by
  obtain ⟨now, op⟩ := op
  cases op <;> rfl

@[simp] theorem debounce_after (debounce : ℕ) (ops : List (ℕ × QueueOp)) :
    (after debounce ops).debounce = debounce := by
  induction ops using List.reverseRecOn with
  | nil => rfl
  | append_singleton ops op ih => rw [after, List.foldl_concat, debounce_apply, ← after, ih]

theorem after_concat (debounce : ℕ) (ops : List (ℕ × QueueOp)) (op : ℕ × QueueOp) :
    after debounce (ops ++ [op]) = (after debounce ops).apply op := List.foldl_concat ..

theorem lastEdit_concat (ops : List (ℕ × QueueOp)) (op : ℕ × QueueOp) :
    lastEdit file (ops ++ [op]) = edited file (lastEdit file ops) op := List.foldl_concat ..

/-- The penalty of a failed attempt ends no later than the debounce of an edit, or at once. -/
def Lenient (q : Queue) (now touched : ℕ) (file : FileId) : Prop :=
  now + q.backoff file ≤ max now (touched + q.debounce)

/-- Whether an attempt that fails leaves the edits that were made since it began as they were. -/
def Spares (q : Queue) (last : FileId → Option ℕ) : ℕ × QueueOp → Prop
  | (now, .failed file) => ∀ touched, last file = some touched → q.Lenient now touched file
  | _ => True

theorem prompt_failed : (q.failed now file).Prompt now touched file ↔ q.Lenient now touched file := by
  rw [prompt_iff, failed, Lenient]
  simp

/-- One step: what is waiting after it is promptly due, if no attempt that fails puts off an edit.
-/
theorem prompt_apply {op : QueueOp} {last : FileId → Option ℕ} {before : ℕ}
    (hprompt : ∀ f t, last f = some t → q.Prompt before t f) (hle : before ≤ now)
    (hspares : q.Spares last (now, op)) (htouched : edited file (last file) (now, op) = some touched) :
    (q.apply (now, op)).Prompt now touched file := by
  -- what is done to another file leaves the deadline, and the last edit, as they were
  have hsame : ∀ q' : Queue, q'.debounce = q.debounce →
      q'.waiting.lookup file = q.waiting.lookup file → last file = some touched →
      q'.Prompt now touched file := by
    intro q' hdebounce hlookup hlast
    obtain ⟨at', hat, hdue⟩ := prompt_iff.mp ((hprompt file touched hlast).mono hle)
    exact prompt_iff.mpr ⟨at', hlookup.trans hat, hdebounce ▸ hdue⟩
  match op with
  | .touch f =>
    rw [edited] at htouched
    by_cases hf : f = file
    · subst hf
      rw [if_pos rfl] at htouched
      cases htouched
      exact prompt_iff.mpr ⟨now + q.debounce, AList.lookup_insert _, le_max_right _ _⟩
    · rw [if_neg hf] at htouched
      exact hsame _ rfl (AList.lookup_insert_ne (Ne.symm hf)) htouched
  | .failed f =>
    by_cases hf : f = file
    · subst hf
      exact prompt_failed.mpr (hspares touched htouched)
    · exact hsame _ rfl (AList.lookup_insert_ne (Ne.symm hf)) htouched
  | .begin f | .cancel f =>
    rw [edited] at htouched
    by_cases hf : f = file
    · rw [if_pos hf] at htouched
      exact absurd htouched.symm (Option.some_ne_none touched)
    · rw [if_neg hf] at htouched
      exact hsame _ rfl (AList.lookup_erase_ne (Ne.symm hf)) htouched
  | .finish f | .sent f => exact hsame _ rfl rfl htouched
  | .flush =>
    obtain ⟨at', hat, -⟩ := prompt_iff.mp (hprompt file touched htouched)
    have hflush : (q.flushNow now).waiting.lookup file = some now := by
      rw [lookup_flushNow, hat]
      rfl
    exact prompt_iff.mpr ⟨now, hflush, le_max_left _ _⟩

/-- **Every edit that no attempt has begun with is waiting, and due when its debounce is over**, at
any time in any run, exactly if no attempt fails after an edit that was made while it was running,
or the penalty ends no later than the debounce of that edit. -/
theorem allPrompt_iff (debounce : ℕ) (ops : List (ℕ × QueueOp))
    (hclock : ops.Pairwise fun a b ↦ a.1 ≤ b.1) :
    (∀ done op, done ++ [op] <+: ops → AllPrompt debounce (done ++ [op]) op.1) ↔
      ∀ done op, done ++ [op] <+: ops →
        (after debounce done).Spares (fun file ↦ lastEdit file done) op := by
  constructor
  · rintro h done ⟨now, op⟩ hprefix
    match op with
    | .failed file =>
      intro touched htouched
      have hprompt := h done (now, .failed file) hprefix file touched (by
        rw [lastEdit_concat]
        exact htouched)
      rw [after_concat] at hprompt
      exact prompt_failed.mp hprompt
    | .touch _ | .cancel _ | .begin _ | .finish _ | .sent _ | .flush => trivial
  · intro hspares
    -- of every beginning of the run, together with the time of its last step
    have hrun : ∀ done : List (ℕ × QueueOp), done <+: ops → ∀ now, (∀ op ∈ done, op.1 ≤ now) →
        AllPrompt debounce done now := by
      intro done
      induction done using List.reverseRecOn with
      | nil => exact fun _ now _ file touched h ↦ absurd h.symm (Option.some_ne_none touched)
      | append_singleton done op ih =>
        obtain ⟨time, op⟩ := op
        intro hprefix now hnow file touched htouched
        rw [lastEdit_concat] at htouched
        rw [after_concat]
        have hordered := List.pairwise_append.mp (hclock.sublist hprefix.sublist)
        have hbefore := ih ((List.prefix_append done _).trans hprefix) time
          fun e he ↦ hordered.2.2 e he (time, op) List.mem_cons_self
        have hstep := prompt_apply hbefore le_rfl (hspares done (time, op) hprefix) htouched
        exact hstep.mono (hnow (time, op) (List.mem_append_right done List.mem_cons_self))
    intro done op hprefix
    refine hrun _ hprefix op.1 fun e he ↦ ?_
    have hordered := List.pairwise_append.mp (hclock.sublist hprefix.sublist)
    rcases List.mem_append.mp he with he | he
    · exact hordered.2.2 e he op List.mem_cons_self
    · rw [List.mem_singleton.mp he]

/-- A file that is touched, sent, and touched again, when nothing fails. -/
theorem allPrompt_of_sent : AllPrompt 10 [(0, .touch ⟨1, 7⟩), (10, .begin ⟨1, 7⟩),
    (12, .touch ⟨1, 7⟩), (15, .finish ⟨1, 7⟩), (15, .sent ⟨1, 7⟩)] 15 := by
  refine (allPrompt_iff 10 _ (by decide)).mpr (fun done op hbegins ↦ ?_)
    [(0, .touch ⟨1, 7⟩), (10, .begin ⟨1, 7⟩), (12, .touch ⟨1, 7⟩), (15, .finish ⟨1, 7⟩)]
    (15, .sent ⟨1, 7⟩) List.prefix_rfl
  have hmem := hbegins.subset (List.mem_append_right done List.mem_cons_self)
  match op with
  | (_, .failed file) => simp at hmem
  | (_, .touch _) | (_, .cancel _) | (_, .begin _) | (_, .finish _) | (_, .sent _) | (_, .flush) =>
    trivial

/-- A file is touched while it is being sent, and the attempt fails: the new edit waits for twice
its debounce from then on. -/
theorem edit_postponed : ¬ ∀ ops : List (ℕ × QueueOp), ops.Pairwise (fun a b ↦ a.1 ≤ b.1) →
    ∀ done op, done ++ [op] <+: ops → AllPrompt 10 (done ++ [op]) op.1 := by
  intro h
  have hprompt := h [(0, .touch ⟨1, 7⟩), (10, .begin ⟨1, 7⟩), (12, .touch ⟨1, 7⟩),
    (15, .finish ⟨1, 7⟩), (15, .failed ⟨1, 7⟩)] (by decide)
    [(0, .touch ⟨1, 7⟩), (10, .begin ⟨1, 7⟩), (12, .touch ⟨1, 7⟩), (15, .finish ⟨1, 7⟩)]
    (15, .failed ⟨1, 7⟩) (List.prefix_refl _) ⟨1, 7⟩ 12 (by decide)
  obtain ⟨at', hat, hle⟩ := prompt_iff.mp hprompt
  have hlookup : (after 10 [(0, .touch ⟨1, 7⟩), (10, .begin ⟨1, 7⟩), (12, .touch ⟨1, 7⟩),
      (15, .finish ⟨1, 7⟩), (15, .failed ⟨1, 7⟩)]).waiting.lookup ⟨1, 7⟩ = some 35 := by decide
  cases hlookup.symm.trans hat
  exact absurd hle (by decide)

end Queue

end HydrationAPI.Client
