import HydrationAPI.Helper.Policy
import HydrationAPI.Helper.Transfer

/-!
# Serving one event

The worker's decision about one pre-content event, from the mark of the file to the answer. The
state is the disk, the queue of the fetch thread, and what the worker remembers: its judgement of
the fetcher and the ranges it has put into files that are not finished.

Everything the environment decides while one event is served is collected in `Calls`: the answers
of the system calls, in the order they are made, and what becomes of each transfer.
-/

namespace HydrationAPI

/-- What became of an event. -/
inductive Handled where
  | hydrated (bytes : ℕ)
  | served (bytes held size : ℕ)
  | empty
  | abandoned (reason : String)
  | alreadyPresent
  | denied (rule : String)
  | failed (reason : String)
  deriving DecidableEq, Repr

/-- The event is answered with an allow. -/
def Handled.allowed : Handled → Bool
  | .hydrated _ | .served .. | .alreadyPresent | .empty => true
  | .denied _ | .failed _ | .abandoned _ => false

/-- A write the fetch thread makes, through a descriptor of its own. -/
structure Write (V : Type*) where
  file : FileId
  chunk : Chunk V

structure World (V : Type*) where
  disk : FileId → File V
  /-- The writes of the transfers that have been asked for, in order, as far as they have not been
  made. -/
  pending : List (Write V)
  fetch : Timed
  partials : Partial
  policy : Policy

namespace World

variable {V : Type*}

def setFile (w : World V) (id : FileId) (f : File V) : World V :=
  { w with disk := Function.update w.disk id f }

def record (w : World V) (id : FileId) (now : Witness) (have' : Ranges) : World V :=
  { w with partials := w.partials.record id now have' }

def forget (w : World V) (id : FileId) : World V :=
  { w with partials := w.partials.forget id }

/-- Make one write. -/
def apply (disk : FileId → File V) (wr : Write V) : FileId → File V :=
  Function.update disk wr.file
    ((disk wr.file).fill wr.chunk.offset wr.chunk.len wr.chunk.version wr.chunk.time)

/-- The fetch thread makes the next `n` writes. -/
def carry (w : World V) (n : ℕ) : World V :=
  { w with
    disk := (w.pending.take n).foldl apply w.disk
    pending := w.pending.drop n }

end World

/-- What the environment answers while one event is served. -/
structure Calls (V : Type*) where
  path : Option String
  mark : Option IoError
  /-- The `fstat` and the `SEEK_DATA` that look for a stripped mark. -/
  strippedStat : Option IoError
  holdsData : Except IoError Bool
  /-- Whether an ignore mark can be set. -/
  ignore : Bool
  emptyStat : Option IoError
  cgroup : Option String
  idAndSize : Option IoError
  witness : Option IoError
  residue : Punch
  /-- The transfers of the missing spans, and what rolls each back should it fail. -/
  attempt : ℕ → Attempt V
  rollback : ℕ → Punch
  /-- The second transfer, of only what the reader demanded. -/
  retry : Attempt V
  retryRollback : Punch
  failStamp : Bool
  failWitness : Option IoError
  closing : Placeholder.Closing
  abandon : Punch
  abandonStamp : Bool
  settledWitness : Option IoError

/-- How much to fetch when a reader is walking forward through a file. -/
def readahead : ℕ := 8 * 1024 * 1024

namespace Worker

open Placeholder

variable {V : Type*}

/-- One transfer of one span into the file. Its last message comes after everything that was
queued, so where that is received the whole queue has been carried out. -/
def transfer (w : World V) (id : FileId) (size : ℕ) (span : Span) (a : Attempt V) :
    Except TransferError Unit × World V :=
  let r := w.fetch.run id size span a
  if r.sent then
    let queued := { w with
      fetch := r.timed
      pending := w.pending ++ (a.deliver id size span).chunks.map (Write.mk id) }
    (r.result, queued.carry (if r.last then queued.pending.length else a.carried))
  else (r.result, { w with fetch := r.timed })

/-- Roll a span back; whether that works is not asked. -/
def rollBack (w : World V) (id : FileId) (p : Punch) (span : Span) : World V :=
  w.setFile id (punchRangeFd (w.disk id) p span.offset span.len).2

/-- What a reader is told of a transfer that failed. -/
def refusal (error : TransferError) : Handled :=
  match error with
  | .tooLong _ _ | .stalled _ _ => .abandoned error.text
  | _ => .failed error.text

/-- What a failed fill leaves behind: the ranges that are still ours stay on record. -/
def fillFailed (w : World V) (id : FileId) (have' : Ranges) (error : TransferError)
    (c : Calls V) : Handled × World V :=
  let f := (w.disk id).writeStamp c.failStamp
  let w := w.setFile id f
  (refusal error,
    match c.failWitness with
    | none => w.record id f.witness have'
    | some _ => w.forget id)

/-- The loop over the missing spans, the `k`-th of them next. It ends with the ranges that are
held, or with an answer. -/
def fill (w : World V) (id : FileId) (size : ℕ) (demanded : Span) (c : Calls V) :
    ℕ → List Span → Ranges → (Ranges ⊕ Handled) × World V
  | _, [], have' => (.inl have', w)
  | k, span :: rest, have' =>
    match transfer w id size span (c.attempt k) with
    | (.ok _, w) => fill w id size demanded c (k + 1) rest (have'.add span)
    | (.error e, w) =>
      let w := rollBack w id (c.rollback k) span
      match span.intersect demanded with
      -- speculation only: the reader already has everything it demanded
      | none => (.inl have', w)
      | some only =>
        if only ≠ span then
          match transfer w id size only c.retry with
          | (.error again, w) =>
            let r := fillFailed (rollBack w id c.retryRollback only) id have' again c
            (.inr r.1, r.2)
          | (.ok _, w) => (.inl (have'.add only), w)
        else
          let r := fillFailed w id have' e c
          (.inr r.1, r.2)

/-- Complete, or not yet. -/
def complete (w : World V) (id : FileId) (size : ℕ) (demanded : Span) (have' : Ranges)
    (c : Calls V) : Handled × World V :=
  if have'.covers (Span.whole size) then
    match finishHydration (w.disk id) c.closing size with
    | (.ok _, f) =>
      let f := if c.path.isSome && c.ignore then { f with ignored := true } else f
      (.hydrated size, (w.setFile id f).forget id)
    | (.error e, f) =>
      (.failed s!"hydration refused: {e.text}",
        (w.setFile id (abandon f c.abandon c.abandonStamp size).2).forget id)
  else
    match settleRange (w.disk id) c.closing with
    | (.ok _, f) =>
      let w := w.setFile id f
      (.served demanded.len have'.total size,
        match c.settledWitness with
        | none => w.record id f.witness have'
        | some _ => w.forget id)
    | (.error e, f) =>
      (.failed s!"could not settle a partial fill: {e.text}",
        (w.setFile id (abandon f c.abandon c.abandonStamp size).2).forget id)

/-- What the reader demanded: the range of the event, or the object, cut down to what exists. -/
def demand (range : Option (ℕ × ℕ)) (size : ℕ) : Span :=
  ((range.map fun r ↦ Span.mk r.1 r.2).getD (Span.whole size)).clampedTo size

/-- What will be fetched: the demand, widened past the frontier for a reader that is walking
forward. -/
def window (demanded : Span) (size : ℕ) (have' : Ranges) (frontier : ℕ) : Span :=
  if demanded.offset = 0 ∨ have'.covers ⟨demanded.offset - 1, 1⟩ then
    let stop := min (max demanded.end' (saturatingAdd frontier readahead)) size
    ⟨demanded.offset, stop - demanded.offset⟩
  else demanded

/-- Fill what is missing, from the ranges that are ours. -/
def fillMissing (w : World V) (id : FileId) (size : ℕ) (demanded : Span) (have' : Ranges)
    (c : Calls V) : Handled × World V :=
  match have'.missing demanded with
  | [] => (.alreadyPresent, w)
  | first :: _ =>
    let want := window demanded size have' first.offset
    match fill w id size demanded c 0 (have'.missing want) have' with
    | (.inl have', w) => complete w id size demanded have' c
    | (.inr answer, w) => (answer, w)

/-- What is already there, and whether the worker is entitled to believe it. -/
def believe (w : World V) (id : FileId) (witness : Witness) : Standing × World V :=
  ((w.partials.standing id witness).1, { w with partials := (w.partials.standing id witness).2 })

/-- From what is on disk to the answer: what is not ours goes first. -/
def serve (w : World V) (id : FileId) (size : ℕ) (demanded : Span) (witness : Witness)
    (c : Calls V) : Handled × World V :=
  match believe w id witness with
  | (.ours r, w) => fillMissing w id size demanded r c
  | (.unknown, w) =>
    match clearResidue (w.disk id) c.residue size with
    | (.error e, f) =>
      (.failed s!"could not clear an interrupted transfer: {e.text}", w.setFile id f)
    | (.ok _, f) => fillMissing (w.setFile id f) id size demanded .empty c

/-- A sized file that holds no data. -/
def looksStripped (f : File V) (c : Calls V) : Bool :=
  if c.strippedStat.isSome || f.size == 0 then false
  else match c.holdsData with
    | .ok b => !b
    | .error _ => false

/-- `Empty` when there is provably nothing to serve. -/
def nothingToServe (f : File V) (c : Calls V) : Option Handled :=
  if c.emptyStat.isSome then none
  else if f.nlink = 0 ∧ f.size = 0 then some .empty else none

/-- The decision about one event on the file `id`. -/
def decideAndFill (w : World V) (id : FileId) (range : Option (ℕ × ℕ)) (c : Calls V) :
    Handled × World V :=
  let f := w.disk id
  match c.mark with
  | some e => (.failed s!"could not read the placeholder mark: {e.text}", w)
  | none =>
    if f.marked = false then
      (.alreadyPresent,
        if c.path.isSome && !looksStripped f c && c.ignore then
          w.setFile id { f with ignored := true }
        else w)
    else match nothingToServe f c with
      | some outcome => (outcome, w)
      | none =>
        match w.policy.decide c.cgroup with
        | .deny rule => (.denied rule, w)
        | .hydrate =>
          match c.idAndSize with
          | some e => (.failed s!"could not stat the event fd: {e.text}", w)
          | none =>
            match c.witness with
            | some e => (.failed s!"could not stat the event fd: {e.text}", w)
            | none => serve w id f.size (demand range f.size) f.witness c

/-- Handle one event, start to finish, and answer it; `answer` is what answering it says. An event
without a descriptor has no file. -/
def handle (w : World V) (fd : Option FileId) (range : Option (ℕ × ℕ)) (c : Calls V)
    (answer : Option IoError) : Handled × World V :=
  match fd with
  | none => (.failed "event carried no fd", w)
  | some id =>
    let r := decideAndFill w id range c
    match answer with
    | some e => (.failed s!"could not answer the event: {e.text}", r.2)
    | none => r

end Worker

end HydrationAPI
