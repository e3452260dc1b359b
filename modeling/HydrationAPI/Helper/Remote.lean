import HydrationAPI.Helper.Transfer

/-!
# The fetcher behind the socket

The helper asks the sync daemon for a span and receives its body chunk by chunk. Nothing the
daemon says decides how much the body may be: the length is the one that was asked for, and every
frame is held against it. A connection that is lost is rebuilt once within a transfer, and the
whole span is asked for again.

What comes out is a `Delivery`: whatever frames arrive, on one connection or on two, the writes
stay inside the span, and a fetch that ends well has written all of it.
-/

namespace HydrationAPI

variable {V : Type*}

/-- The largest run of bytes in one chunk. -/
def maxChunk : ℕ := 2 ^ 20

/-- A line of the daemon, and the bytes that follow it. -/
inductive ToHelper (V : Type*) where
  | ready (id len : ℕ)
  | failed (id : ℕ) (e : IoError)
  | denied (id : ℕ) (reason : String)
  /-- The version the bytes belong to, the time they are written at and, where reading or writing
  them fails, how many are written and why it failed. -/
  | chunk (id len : ℕ) (version : V) (time : ℕ) (fails : Option (ℕ × IoError))
  | done (id : ℕ)
  | abort (id : ℕ) (e : IoError)
  | control
  /-- A line that cannot be read or decoded. -/
  | broken (e : IoError)

/-- The request a frame answers. -/
def ToHelper.frameId : ToHelper V → Option ℕ
  | .ready id _ | .failed id _ | .denied id _ | .chunk id _ _ _ _ | .done id | .abort id _ => some id
  | .control | .broken _ => none

/-- How a streamed transfer ended, the connection still in step. -/
inductive Streamed where
  | complete
  | aborted (e : IoError)
  | failed (e : IoError)
  | denied (reason : String)
  deriving DecidableEq

/-- What has been received: the writes, the totals reported, and how it ended. -/
structure Received (V : Type*) where
  chunks : List (Chunk V)
  ticks : List ℕ
  result : Except IoError Streamed

/-- What one frame comes to. -/
inductive Turn (V : Type*) where
  | skip
  | took (c : Chunk V)
  | ended (r : Received V)

/-- Receive one frame of a body of `expected` bytes that belongs at `base`, `total` of which are
there. -/
def recvFrame (base wantId expected total : ℕ) (frame : ToHelper V) : Turn V :=
  if frame.frameId.any (· ≠ wantId) then
    .ended ⟨[], [], .error (invalidData
      s!"frame {frame.frameId.getD 0} does not answer request {wantId}")⟩
  else match frame with
    | .ready _ len =>
      if len ≠ expected then
        .ended ⟨[], [], .error (invalidData
          s!"daemon offered {len} bytes for a {expected}-byte placeholder")⟩
      else .skip
    | .chunk _ len version time fails =>
      if len = 0 ∨ maxChunk < len ∨ expected < total + len then
        .ended ⟨[], [], .error (invalidData
          s!"chunk of {len} is empty or would overrun a {expected}-byte object")⟩
      else match fails with
        | some (n, e) => .ended ⟨[⟨base + total, min n len, version, time⟩], [], .error e⟩
        | none => .took ⟨base + total, len, version, time⟩
    | .done _ =>
      if total ≠ expected then
        .ended ⟨[], [], .error (invalidData
          s!"daemon claimed completion at {total} of {expected} bytes")⟩
      else .ended ⟨[], [], .ok .complete⟩
    | .abort _ e => .ended ⟨[], [], .ok (.aborted e)⟩
    | .failed _ e => .ended ⟨[], [], .ok (.failed e)⟩
    | .denied _ reason => .ended ⟨[], [], .ok (.denied reason)⟩
    | .control => .skip
    | .broken e => .ended ⟨[], [], .error e⟩

def recvFrames (base wantId expected : ℕ) : ℕ → List (ToHelper V) → Received V
  | _, [] =>
    ⟨[], [], .error ⟨.unexpectedEof, none, "the sync daemon closed the connection mid-transfer"⟩⟩
  | total, frame :: frames =>
    match recvFrame base wantId expected total frame with
    | .skip => recvFrames base wantId expected total frames
    | .took c =>
      let rest := recvFrames base wantId expected (total + c.len) frames
      ⟨c :: rest.chunks, (total + c.len) :: rest.ticks, rest.result⟩
    | .ended r => r

/-- `recv_streamed`, its writes placed at `base`. -/
def recvStreamed (base wantId expected : ℕ) (frames : List (ToHelper V)) : Received V :=
  if maxObject < expected then
    ⟨[], [], .error (invalidData
      s!"placeholder claims {expected} bytes; the helper's limit is {maxObject}")⟩
  else recvFrames base wantId expected 0 frames

/-- **One frame**: a line without bytes that is passed over; or a chunk that belongs where the last
one ended and does not overrun the body; or it ends the transfer, well only where the daemon says
so and the body is complete. -/
theorem recvFrame_cases (base wantId expected total : ℕ) (frame : ToHelper V) :
    (recvFrame base wantId expected total frame = .skip
        ∧ (frame = .control ∨ ∃ id len, frame = .ready id len))
      ∨ (∃ id len version time, frame = .chunk id len version time none
        ∧ recvFrame base wantId expected total frame = .took ⟨base + total, len, version, time⟩
        ∧ total + len ≤ expected)
      ∨ ∃ r, recvFrame base wantId expected total frame = .ended r
        ∧ (∀ c ∈ r.chunks, base + total ≤ c.offset ∧ c.offset + c.len ≤ base + expected)
        ∧ (r.result = .ok .complete → total = expected ∧ ∃ id, frame = .done id) := by
  unfold recvFrame
  split
  · exact Or.inr (Or.inr ⟨_, rfl, by simp, by simp⟩)
  · cases frame with
    | ready id len =>
      dsimp only
      split
      · exact Or.inr (Or.inr ⟨_, rfl, by simp, by simp⟩)
      · exact Or.inl ⟨rfl, Or.inr ⟨id, len, rfl⟩⟩
    | chunk id len version time fails =>
      dsimp only
      split
      · exact Or.inr (Or.inr ⟨_, rfl, by simp, by simp⟩)
      · cases fails with
        | none => exact Or.inr (Or.inl ⟨id, len, version, time, rfl, rfl, by omega⟩)
        | some f =>
          refine Or.inr (Or.inr ⟨_, rfl, fun c hc ↦ ?_, by simp⟩)
          rw [List.mem_singleton.mp hc]
          dsimp only
          omega
    | done id =>
      dsimp only
      split
      · exact Or.inr (Or.inr ⟨_, rfl, by simp, by simp⟩)
      · rename_i hdone
        exact Or.inr (Or.inr ⟨_, rfl, by simp, fun _ ↦ ⟨not_not.mp hdone, id, rfl⟩⟩)
    | abort id e => exact Or.inr (Or.inr ⟨_, rfl, by simp, by simp⟩)
    | failed id e => exact Or.inr (Or.inr ⟨_, rfl, by simp, by simp⟩)
    | denied id reason => exact Or.inr (Or.inr ⟨_, rfl, by simp, by simp⟩)
    | control => exact Or.inl ⟨rfl, Or.inl rfl⟩
    | broken e => exact Or.inr (Or.inr ⟨_, rfl, by simp, by simp⟩)

/-- **The first frame of a body that is received in full** says nothing about the content, or is a
chunk that fits, or the end, which comes when everything is there. -/
theorem recvFrames_complete {base wantId expected total : ℕ} {frame : ToHelper V}
    {frames : List (ToHelper V)}
    (h : (recvFrames base wantId expected total (frame :: frames)).result = .ok .complete) :
    (recvFrames base wantId expected total (frame :: frames)
        = recvFrames base wantId expected total frames
        ∧ (frame = .control ∨ ∃ id len, frame = .ready id len))
      ∨ (∃ id len version time, frame = .chunk id len version time none ∧ total + len ≤ expected
        ∧ (recvFrames base wantId expected (total + len) frames).result = .ok .complete
        ∧ (recvFrames base wantId expected total (frame :: frames)).chunks
          = ⟨base + total, len, version, time⟩
            :: (recvFrames base wantId expected (total + len) frames).chunks)
      ∨ total = expected ∧ ∃ id, frame = .done id := by
  rw [recvFrames] at h ⊢
  rcases recvFrame_cases base wantId expected total frame with
    ⟨hturn, hkind⟩ | ⟨id, len, version, time, rfl, hturn, hfits⟩ | ⟨r, hturn, -, hend⟩
  · rw [hturn]
    exact Or.inl ⟨rfl, hkind⟩
  · rw [hturn] at h ⊢
    exact Or.inr (Or.inl ⟨id, len, version, time, rfl, hfits, h, rfl⟩)
  · rw [hturn] at h
    exact Or.inr (Or.inr (hend h))

/-- **The writes stay inside the body, and a body that is complete has been written**: from
`base + total` on every byte is covered. -/
theorem recvFrames_spec {base wantId expected : ℕ} {frames : List (ToHelper V)} :
    ∀ {total : ℕ}, total ≤ expected →
      (∀ c ∈ (recvFrames base wantId expected total frames).chunks,
        base + total ≤ c.offset ∧ c.offset + c.len ≤ base + expected)
      ∧ ((recvFrames base wantId expected total frames).result = .ok .complete →
        ∀ x, base + total ≤ x → x < base + expected →
          ∃ c ∈ (recvFrames base wantId expected total frames).chunks, c.Covers x) := by
  induction frames with
  | nil => intro total _; exact ⟨by simp [recvFrames], by rintro ⟨⟩⟩
  | cons frame frames ih =>
    intro total htotal
    rw [recvFrames]
    rcases recvFrame_cases base wantId expected total frame with
      ⟨h, -⟩ | ⟨id, len, version, time, -, h, hfits⟩ | ⟨r, h, hin, hend⟩
    · rw [h]
      exact ih htotal
    · rw [h]
      obtain ⟨hin, hcov⟩ := ih hfits
      refine ⟨fun c' hc' ↦ ?_, fun hres x h1 h2 ↦ ?_⟩
      · rcases List.mem_cons.mp hc' with rfl | hc'
        · dsimp only
          omega
        · have hrest := hin c' hc'
          omega
      · rcases Nat.lt_or_ge x (base + (total + len)) with hx | hx
        · exact ⟨_, List.mem_cons_self, h1, by dsimp only; omega⟩
        · obtain ⟨c', hc', hx'⟩ := hcov hres x hx h2
          exact ⟨c', List.mem_cons_of_mem _ hc', hx'⟩
    · rw [h]
      refine ⟨hin, fun hres x h1 h2 ↦ ?_⟩
      have heq := (hend hres).1
      omega

/-- What `recv_streamed` is relied on for. -/
theorem recvStreamed_spec {base wantId expected : ℕ} {frames : List (ToHelper V)} :
    (∀ c ∈ (recvStreamed base wantId expected frames).chunks,
        base ≤ c.offset ∧ c.offset + c.len ≤ base + expected)
      ∧ ((recvStreamed base wantId expected frames).result = .ok .complete →
        ∀ x, base ≤ x → x < base + expected →
          ∃ c ∈ (recvStreamed base wantId expected frames).chunks, c.Covers x) := by
  rw [recvStreamed]
  split
  · exact ⟨by simp, by rintro ⟨⟩⟩
  · exact recvFrames_spec (Nat.zero_le expected)

/-! ## Fetching -/

/-- A connection to the sync daemon: whether it can be made live again should it be dead, whether
the request can be sent, and the frames that arrive. -/
structure Connection (V : Type*) where
  revive : Option IoError
  send : Option IoError
  frames : List (ToHelper V)

/-- What `SocketFetch` finds when it is asked for a span: the device of the mount, whether the
connection is known to be dead, whether there is a path to reconnect to, and what happens on the
connection and on the one that replaces it. -/
structure SocketFetch (V : Type*) where
  mountFsid : Except IoError ℕ
  dead : Bool
  reconnect : Bool
  nextId : ℕ
  first : Connection V
  second : Connection V

namespace SocketFetch

/-- One request and its answer. -/
def ask (conn : Connection V) (id : ℕ) (span : Span) : Received V :=
  match conn.send with
  | some e => ⟨[], [], .error e⟩
  | none => recvStreamed span.offset id span.len conn.frames

/-- What the caller is told. -/
def answer : Except IoError Streamed → Except IoError Unit
  | .ok .complete => .ok ()
  | .ok (.aborted e) | .ok (.failed e) => .error e
  | .ok (.denied reason) =>
    .error ⟨.permissionDenied, none, s!"policy refused this reader: {reason}"⟩
  | .error e => .error e

/-- Ask on a connection, dead or not. -/
def attempt (conn : Connection V) (dead : Bool) (id : ℕ) (span : Span) : Received V :=
  if dead then
    match conn.revive with
    | some e => ⟨[], [], .error e⟩
    | none => ask conn id span
  else ask conn id span

/-- The error is worth one more connection. -/
def retries (f : SocketFetch V) (r : Received V) : Bool :=
  match r.result with
  | .error e => isConnectionLost e && f.reconnect
  | .ok _ => false

/-- Both connections of one fetch, the second only where the first was lost on a request. -/
def exchange (f : SocketFetch V) (span : Span) : Received V :=
  let r := attempt f.first f.dead f.nextId span
  if retries f r && !(f.dead && f.first.revive.isSome) then
    let r' := attempt f.second true (f.nextId + 1) span
    ⟨r.chunks ++ r'.chunks, r.ticks ++ r'.ticks, r'.result⟩
  else r

/-- `fetch_into`. -/
def fetchInto (f : SocketFetch V) (file : FileId) (size : ℕ) (span : Span) : Received V :=
  match f.mountFsid with
  | .error e => ⟨[], [], .error e⟩
  | .ok ours =>
    if file.fsid ≠ ours then
      ⟨[], [], .error ⟨.permissionDenied, none,
        s!"refusing to hydrate a file on device {file.fsid} from a helper marked on {ours}"⟩⟩
    else
      let stop := span.end'
      if size < stop then
        ⟨[], [], .error ⟨.invalidInput, none,
          s!"asked for {span.offset}..{stop} of a placeholder that is {size} bytes"⟩⟩
      else f.exchange span

private theorem ask_spec (conn : Connection V) (id : ℕ) (span : Span) :
    (∀ c ∈ (ask conn id span).chunks,
        span.offset ≤ c.offset ∧ c.offset + c.len ≤ span.offset + span.len)
      ∧ ((ask conn id span).result = .ok .complete →
        ∀ x, span.offset ≤ x → x < span.offset + span.len →
          ∃ c ∈ (ask conn id span).chunks, c.Covers x) := by
  rw [ask]
  cases conn.send with
  | some e => exact ⟨by simp, by rintro ⟨⟩⟩
  | none => exact recvStreamed_spec

private theorem attempt_spec (conn : Connection V) (dead : Bool) (id : ℕ) (span : Span) :
    (∀ c ∈ (attempt conn dead id span).chunks,
        span.offset ≤ c.offset ∧ c.offset + c.len ≤ span.offset + span.len)
      ∧ ((attempt conn dead id span).result = .ok .complete →
        ∀ x, span.offset ≤ x → x < span.offset + span.len →
          ∃ c ∈ (attempt conn dead id span).chunks, c.Covers x) := by
  rw [attempt]
  split
  · cases conn.revive with
    | some e => exact ⟨by simp, by rintro ⟨⟩⟩
    | none => exact ask_spec conn id span
  · exact ask_spec conn id span

theorem fetchInto_spec (f : SocketFetch V) (file : FileId) (size : ℕ) (span : Span) :
    (∀ c ∈ (f.fetchInto file size span).chunks,
        span.offset ≤ c.offset ∧ c.offset + c.len ≤ span.offset + span.len)
      ∧ ((f.fetchInto file size span).result = .ok .complete →
        ∀ x, span.offset ≤ x → x < span.offset + span.len →
          ∃ c ∈ (f.fetchInto file size span).chunks, c.Covers x) := by
  rw [fetchInto]
  split
  · exact ⟨by simp, by rintro ⟨⟩⟩
  · split
    · exact ⟨by simp, by rintro ⟨⟩⟩
    · dsimp only
      split
      · exact ⟨by simp, by rintro ⟨⟩⟩
      · rw [exchange]
        obtain ⟨hin, hcov⟩ := attempt_spec f.first f.dead f.nextId span
        dsimp only
        split
        · obtain ⟨hin', hcov'⟩ := attempt_spec f.second true (f.nextId + 1) span
          refine ⟨fun c hc ↦ ?_, fun hres x h1 h2 ↦ ?_⟩
          · rcases List.mem_append.mp hc with hc | hc
            · exact hin c hc
            · exact hin' c hc
          · obtain ⟨c, hc, hx⟩ := hcov' hres x h1 h2
            exact ⟨c, List.mem_append_right _ hc, hx⟩
        · exact ⟨hin, hcov⟩

theorem answer_ok {r : Except IoError Streamed} (h : answer r = .ok ()) : r = .ok .complete := by
  cases r with
  | error e => cases h
  | ok s =>
    cases s with
    | complete => rfl
    | aborted e => cases h
    | failed e => cases h
    | denied reason => cases h

/-- **`SocketFetch` keeps the contract of a fetcher**, whatever the daemon sends. -/
def deliver (f : SocketFetch V) (file : FileId) (size : ℕ) (span : Span) : Delivery V span where
  chunks := (f.fetchInto file size span).chunks
  ticks := (f.fetchInto file size span).ticks
  result := answer (f.fetchInto file size span).result
  inside := (f.fetchInto_spec file size span).1
  delivered h _ := (f.fetchInto_spec file size span).2 (answer_ok h)

end SocketFetch

end HydrationAPI
