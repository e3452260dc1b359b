import HydrationAPI.Lib.BufReader
import HydrationAPI.Protocol.Errors
import HydrationAPI.Protocol.Span
import Mathlib.Data.List.DropRight

/-!
# Framing a body

The body of an object crosses the socket in chunks, each a line that says how long it is and so many
bytes. The daemon's side of a transfer is a `Body`: it holds the promise made by the `Ready` line,
takes no byte beyond it, and ends the transfer with a line whatever becomes of the provider. The
helper's side reads lines and chunks, holds every chunk against the length it knows itself, and
hands the bytes on as they come.

Messages become lines, and lines messages, in a library. What the helper is given to read may be of
any origin, and may come in any pieces.
-/

namespace HydrationAPI.Transport

/-- The largest body chunk the helper accepts. -/
def maxChunk : ℕ := 2 ^ 20

inductive FetchResponse where
  | ready (id len : ℕ)
  | failed (id : ℕ) (errno : ℤ) (reason : String)
  | denied (id : ℕ) (reason : String)
  deriving DecidableEq, Repr

def FetchResponse.id : FetchResponse → ℕ
  | ready id _ | failed id _ _ | denied id _ => id

inductive Control where
  | dehydrated (fsid ino : ℕ)
  | hydrated (fsid ino : ℕ)
  deriving DecidableEq, Repr

/-- Anything the daemon may send. -/
inductive ToHelper where
  | fetch (r : FetchResponse)
  | control (c : Control)
  /-- So many raw bytes follow this line. -/
  | chunk (id len : ℕ)
  | done (id : ℕ)
  | abort (id : ℕ) (errno : ℤ) (reason : String)
  deriving DecidableEq, Repr

/-- The request a message answers. -/
def ToHelper.frameId : ToHelper → Option ℕ
  | fetch r => some r.id
  | chunk id _ | done id | abort id _ _ => some id
  | control _ => none

def newline : UInt8 := 10

/-- The library that writes messages as text and reads them: a text that is not UTF-8, or says
nothing that is a message, has its error. -/
structure Text where
  toString : ToHelper → Except IoError (List UInt8)
  fromStr : List UInt8 → Except IoError ToHelper

namespace Text

variable (text : Text)

/-- Encode one message as a line. -/
def encode (m : ToHelper) : Except IoError (List UInt8) :=
  match text.toString m with
  | .ok bytes => .ok (bytes ++ [newline])
  | .error e => .error e

/-- Decode one line. -/
def decode (line : List UInt8) : Except IoError ToHelper :=
  text.fromStr (line.rdropWhile (· = newline))

/-- What the library writes of this message is one line, and reads as this message. -/
def ReadsBack (m : ToHelper) : Prop :=
  ∃ bytes, text.toString m = .ok bytes ∧ newline ∉ bytes ∧ text.fromStr bytes = .ok m

end Text

/-! ## The daemon's side -/

/-- The daemon's end of the socket: what it has sent, and how many bytes it takes before it
breaks, if it does. -/
structure Wire where
  sent : List UInt8
  room : Option ℕ
  shut : Bool
  deriving DecidableEq

def brokenPipe : IoError := ⟨.brokenPipe, some 32, "Broken pipe (os error 32)"⟩

def Wire.writeAll (w : Wire) (bytes : List UInt8) : Except IoError Unit × Wire :=
  if w.shut then (.error brokenPipe, w)
  else match w.room with
    | none => (.ok (), { w with sent := w.sent ++ bytes })
    | some n =>
      if bytes.length ≤ n then
        (.ok (), { w with sent := w.sent ++ bytes, room := some (n - bytes.length) })
      else (.error brokenPipe, { w with sent := w.sent ++ bytes.take n, room := some 0 })

/-- Where a provider's bytes go. -/
structure Body where
  writer : Wire
  id : ℕ
  promised : ℕ
  written : ℕ
  finished : Bool
  /-- A write failed after the header of its chunk went out. -/
  poisoned : Bool
  deriving DecidableEq

/-- What a body that was finished short says of it. -/
def shortfall (promised written : ℕ) : String :=
  s!"provider delivered {promised - written} bytes fewer than the object's size"

/-- How a provider may leave a body. -/
inductive Ending where
  | finish
  | abort (errno : ℤ) (reason : String)
  /-- It panicked, or returned early. -/
  | drop
  deriving DecidableEq, Repr

section Daemon

variable (text : Text)

/-- `DaemonConn::begin`. -/
def begin (writer : Wire) (id len : ℕ) : Except IoError Body × Wire :=
  match text.encode (.fetch (.ready id len)) with
  | .error e => (.error e, writer)
  | .ok line =>
    match writer.writeAll line with
    | (.error e, writer) => (.error e, writer)
    | (.ok (), writer) => (.ok ⟨writer, id, len, 0, false, false⟩, writer)

/-- Answer without content. -/
def send (writer : Wire) (resp : FetchResponse) : Except IoError Unit × Wire :=
  match text.encode (.fetch resp) with
  | .error e => (.error e, writer)
  | .ok line => writer.writeAll line

namespace Body

variable (b : Body)

/-- `Write::write`. -/
def write (buf : List UInt8) : Except IoError ℕ × Body :=
  if buf = [] then (.ok 0, b)
  else if b.promised < b.written + buf.length then
    (.error (invalidData (s!"provider offered more than the object's size: {b.written} written, "
      ++ s!"{b.promised} promised, {buf.length} more offered")), b)
  else
    let n := min buf.length maxChunk
    match text.encode (.chunk b.id n) with
    | .error e => (.error e, b)
    | .ok line =>
      match b.writer.writeAll line with
      | (.error e, writer) => (.error e, { b with writer := writer })
      | (.ok (), writer) =>
        -- from here the header is committed and the body is owed
        match writer.writeAll (buf.take n) with
        | (.error e, writer) => (.error e, { b with writer := writer, poisoned := true })
        | (.ok (), writer) => (.ok n, { b with writer := writer, written := b.written + n })

def sendLine (line : List UInt8) : Except IoError Unit × Body :=
  if b.poisoned then
    -- anything written now would land inside the unfinished run of bytes
    (.error ⟨.brokenPipe, none, "the body stream desynchronised; the connection was closed"⟩,
      { b with writer := { b.writer with shut := true } })
  else
    let (sent, writer) := b.writer.writeAll line
    (sent, { b with writer := writer })

def abortWith (errno : ℤ) (reason : String) : Except IoError Unit × Body :=
  match text.encode (.abort b.id errno reason) with
  | .error e => (.error e, b)
  | .ok line => { b with finished := true }.sendLine line

def finish : Except IoError Unit × Body :=
  if b.written ≠ b.promised then
    match b.abortWith text eio (shortfall b.promised b.written) with
    | (.error e, b) => (.error e, b)
    | (.ok (), b) =>
      (.error ⟨.unexpectedEof, none, s!"short delivery: {b.written} of {b.promised} bytes"⟩, b)
  else
    match text.encode (.done b.id) with
    | .error e => (.error e, b)
    | .ok line => { b with finished := true }.sendLine line

/-- `Drop::drop`. -/
def dropped : Body :=
  if b.finished then b else (b.abortWith text eio "the provider abandoned the transfer").2

/-- The writes of a provider, one after the other, and what each came to. -/
def writes (b : Body) : List (List UInt8) → List (Except IoError ℕ) × Body
  | [] => ([], b)
  | buf :: bufs =>
    let (result, b) := b.write text buf
    let (results, b) := b.writes bufs
    (result :: results, b)

/-- The end of a body, which is dropped in any case. -/
def close (ending : Ending) : Body :=
  match ending with
  | .finish => (b.finish text).2.dropped text
  | .abort errno reason => (b.abortWith text errno reason).2.dropped text
  | .drop => b.dropped text

end Body

end Daemon

/-! ## The helper's side -/

/-- How a streamed transfer ended. -/
inductive Streamed where
  | complete
  | aborted (errno : ℤ) (reason : String)
  | refused (r : FetchResponse)
  deriving DecidableEq, Repr

abbrev Reader := BufReader UInt8 IoError

/-- A transfer under way: where the connection stands, how many bytes have come, what was handed to
the sink and at which offset, and the totals that were reported. -/
structure Progress where
  reader : Reader
  total : ℕ
  calls : List (ℕ × List UInt8)
  ticks : List ℕ

/-- What a transfer has come to. -/
structure Received where
  result : Except IoError Streamed
  reader : Reader
  calls : List (ℕ × List UInt8)
  ticks : List ℕ

/-- What one frame comes to. -/
inductive Turn where
  | again (p : Progress)
  | ended (r : Received)

/-- The sink: whether it fails at the last of the calls made so far. -/
abbrev Sink := List (ℕ × List UInt8) → Option IoError

def closed : IoError :=
  ⟨.unexpectedEof, none, "the sync daemon closed the connection mid-transfer"⟩

/-- `Read::read_exact`, short of bytes. -/
def shortRead : IoError := ⟨.unexpectedEof, none, "failed to fill whole buffer"⟩

def Progress.ended (p : Progress) (result : Except IoError Streamed) : Turn :=
  .ended ⟨result, p.reader, p.calls, p.ticks⟩

section Helper

variable (text : Text) (dest : Sink) (wantId expected : ℕ)

/-- The bytes of a chunk go to the sink. -/
def takeChunk (p : Progress) (len : ℕ) : Turn :=
  -- a chunk without bytes is not progress
  if len = 0 ∨ maxChunk < len ∨ expected < p.total + len then
    p.ended (.error (invalidData
      s!"chunk of {len} is empty or would overrun a {expected}-byte object"))
  else match p.reader.readExact shortRead len with
    | (.error e, r) => { p with reader := r }.ended (.error e)
    | (.ok bytes, r) =>
      let p := { p with reader := r, calls := p.calls ++ [(p.total, bytes)] }
      match dest p.calls with
      | some e => p.ended (.error e)
      | none => .again { p with total := p.total + len, ticks := p.ticks ++ [p.total + len] }

/-- A message that answers the request, or none. -/
def takeMessage (p : Progress) (msg : ToHelper) : Turn :=
  match msg with
  | .fetch (.ready _ len) =>
    -- refused on the declaration, before the body
    if len ≠ expected then
      p.ended (.error (invalidData
        s!"daemon offered {len} bytes for a {expected}-byte placeholder"))
    else .again p
  | .chunk _ len => takeChunk dest expected p len
  | .done _ =>
    if p.total ≠ expected then
      p.ended (.error (invalidData
        s!"daemon claimed completion at {p.total} of {expected} bytes"))
    else p.ended (.ok .complete)
  | .abort _ errno reason => p.ended (.ok (.aborted errno reason))
  | .fetch other => p.ended (.ok (.refused other))
  | .control _ => .again p

/-- Read one frame. -/
def turn (p : Progress) : Turn :=
  match p.reader.readUntil newline with
  | (.error e, r) => { p with reader := r }.ended (.error e)
  | (.ok line, r) =>
    let p := { p with reader := r }
    if line = [] then p.ended (.error closed)
    else match text.decode line with
      | .error e => p.ended (.error e)
      | .ok msg =>
        if msg.frameId.any (· ≠ wantId) then
          p.ended (.error (invalidData
            s!"frame {msg.frameId.getD 0} does not answer request {wantId}"))
        else takeMessage dest expected p msg

variable {text dest wantId expected} {p p' : Progress}

theorem rest_of_takeChunk {len : ℕ} (h : takeChunk dest expected p len = .again p') :
    p'.reader.rest.length ≤ p.reader.rest.length := by
  unfold takeChunk at h
  split at h
  · cases h
  · split at h
    · cases h
    · rename_i hbytes
      dsimp only at h
      split at h
      · cases h
      · cases h
        rw [(BufReader.rest_of_readExact hbytes).1, List.length_append]
        exact Nat.le_add_left _ _

theorem rest_of_takeMessage {msg : ToHelper} (h : takeMessage dest expected p msg = .again p') :
    p'.reader.rest.length ≤ p.reader.rest.length := by
  unfold takeMessage at h
  split at h
  · split at h
    · cases h
    · cases h
      exact le_rfl
  · exact rest_of_takeChunk h
  · split at h <;> cases h
  · cases h
  · cases h
  · cases h
    exact le_rfl

/-- Every frame takes a line. -/
theorem rest_of_turn (h : turn text dest wantId expected p = .again p') :
    p'.reader.rest.length < p.reader.rest.length := by
  unfold turn at h
  split at h
  · cases h
  · rename_i line r hline
    dsimp only at h
    split at h
    · cases h
    · rename_i hne
      split at h
      · cases h
      · split at h
        · cases h
        · have hpos : 0 < line.length := List.length_pos_iff.mpr hne
          have hle := rest_of_takeMessage h
          rw [BufReader.rest_of_readUntil hline, List.length_append]
          dsimp only at hle
          omega

variable (text dest wantId expected)

/-- One frame after another, until one of them ends the transfer. -/
def recvFrames (p : Progress) : Received :=
  match _hturn : turn text dest wantId expected p with
  | .ended r => r
  | .again p' => recvFrames p'
termination_by p.reader.rest.length
decreasing_by exact rest_of_turn _hturn

/-- Read a streamed body into the sink, one chunk at a time. -/
def recvStreamed (r : Reader) : Received :=
  if maxObject < expected then
    ⟨.error (invalidData
      s!"placeholder claims {expected} bytes; the helper's limit is {maxObject}"), r, [], []⟩
  else recvFrames text dest wantId expected ⟨r, 0, [], []⟩

variable {text dest wantId expected}

theorem recvFrames_of_ended {r : Received} (h : turn text dest wantId expected p = .ended r) :
    recvFrames text dest wantId expected p = r := by
  rw [recvFrames]
  split <;> rename_i heq <;> cases h.symm.trans heq
  rfl

theorem recvFrames_of_again (h : turn text dest wantId expected p = .again p') :
    recvFrames text dest wantId expected p = recvFrames text dest wantId expected p' := by
  rw [recvFrames]
  split <;> rename_i heq <;> cases h.symm.trans heq
  rfl

/-- What a frame comes to has this property, or that. -/
def Turn.All (I : Progress → Prop) (P : Received → Prop) : Turn → Prop
  | .again p => I p
  | .ended r => P r

/-- What holds before every frame, and of what a frame ends with, holds of what is received. -/
theorem recvFrames_induction {I : Progress → Prop} {P : Received → Prop}
    (hstep : ∀ p, I p → (turn text dest wantId expected p).All I P) (h : I p) :
    P (recvFrames text dest wantId expected p) := by
  induction hlength : p.reader.rest.length using Nat.strong_induction_on generalizing p with
  | _ n ih =>
    have hturns := hstep p h
    cases hturn : turn text dest wantId expected p with
    | ended r =>
      rw [hturn] at hturns
      rw [recvFrames_of_ended hturn]
      exact hturns
    | again p' =>
      rw [hturn] at hturns
      rw [recvFrames_of_again hturn]
      exact ih _ (hlength ▸ rest_of_turn hturn) hturns rfl

end Helper

end HydrationAPI.Transport
