import HydrationAPI.Graph.Ids
import HydrationAPI.Lib.Checks
import HydrationAPI.Protocol.Errors
import HydrationAPI.Protocol.Span

/-!
# Downloading a span

One span of one object, asked for as often as it takes. Every request asks for what is still
missing of the span, by absolute position in the object; what has been passed on to the sink stays
passed on. The requests are made at different times, and nothing in them names a version of the
object: what comes back is whatever the service holds when it answers.

What the service answers is an argument, and so are the instants the clock is read at. A download
reports, next to its result, which answers it passed on and from where in the object they were
asked for.
-/

namespace HydrationAPI.Graph

/-- A run of bytes of a body, and why the sink refuses it, should it. -/
structure Piece where
  bytes : List UInt8
  refused : Option IoError
  deriving DecidableEq

/-- The answer to one request for content: when it was made, the headers that matter, the body as
far as it arrives, and what ends it early. -/
structure Response where
  time : ℕ
  status : ℕ
  retryAfter : Option ℕ
  location : Option String
  contentRange : Option String
  pieces : List Piece
  cut : Option IoError
  deriving DecidableEq

def Response.body (r : Response) : List UInt8 := (r.pieces.map Piece.bytes).flatten

/-- What the service answers to the requests of one attempt, should they be made: the remembered
location, the object itself, the location it redirects to. `now` is the time by the clock. -/
structure Try where
  now : ℕ
  remembered : Except IoError Response
  direct : Except IoError Response
  redirected : Except IoError Response
  deriving DecidableEq

/-! ## Remembered locations -/

/-- How long a remembered pre-authorized content location is trusted, in seconds. -/
def contentLocationTtl : ℕ := 10 * 60

/-- Pre-authorized content locations, by the object they resolve. -/
structure ContentLocations where
  entries : ObjectKey → Option (String × ℕ)

namespace ContentLocations

def new : ContentLocations := ⟨fun _ ↦ none⟩

def learned (l : ContentLocations) (key : ObjectKey) (location : String) (now : ℕ) :
    ContentLocations := ⟨Function.update l.entries key (some (location, now))⟩

def forget (l : ContentLocations) (key : ObjectKey) : ContentLocations :=
  ⟨Function.update l.entries key none⟩

/-- The remembered location, if it is still young enough to trust. -/
def fresh (l : ContentLocations) (key : ObjectKey) (now : ℕ) : Option String × ContentLocations :=
  match l.entries key with
  | some (location, learnedAt) =>
    if now - learnedAt < contentLocationTtl then (some location, l) else (none, l.forget key)
  | none => (none, l)

end ContentLocations

/-- An `https` address with a host and no credentials. -/
def safeDownloadUrl (url : String) : Bool :=
  match Text.splitOnce ':' url with
  | none => false
  | some (scheme, rest) =>
    match Text.stripPrefix "//" rest with
    | none => false
    | some rest =>
      let authority := rest.toList.takeWhile fun c ↦ c ≠ '/' ∧ c ≠ '?' ∧ c ≠ '#'
      scheme.toList.map Char.toLower == "https".toList && !authority.isEmpty
        && !authority.contains '@'

/-! ## One attempt -/

def retryableStatus (status : ℕ) : Bool :=
  status == 429 || status == 408 || (500 ≤ status && status ≤ 599)

/-- The requests of one attempt: the remembered location where there is one, the object itself,
and the location it redirects to. -/
def request (l : ContentLocations) (key : ObjectKey) (ranged : Bool) (t : Try) :
    Except IoError Response × ContentLocations :=
  let (remembered, l) := if ranged then l.fresh key t.now else (none, l)
  let (answer, l) : Except IoError Response × ContentLocations := match remembered with
    | none => (t.direct, l)
    | some _ => match t.remembered with
      | .error e => (.error e, l)
      | .ok r =>
        -- anything but the range, or the service speaking, and the location has gone stale
        if r.status ≠ 206 ∧ retryableStatus r.status = false then (t.direct, l.forget key)
        else (.ok r, l)
  match answer with
  | .error e => (.error e, l)
  | .ok r =>
    if 300 ≤ r.status ∧ r.status ≤ 399 then
      match r.location.filter safeDownloadUrl with
      | none => (.error ⟨.permissionDenied, none,
          "Graph returned an unsafe content redirect; it was not followed"⟩, l)
      | some location => (t.redirected, if ranged then l.learned key location t.now else l)
    else (.ok r, l)

def badContentRange : IoError := invalidData "Graph returned an inconsistent Content-Range"

def validateContentRange (raw : String) (start stop total : ℕ) : Except IoError Unit :=
  let parsed : Option (ℕ × ℕ × ℕ) := do
    let value ← Text.stripPrefix "bytes " raw
    let (span, total) ← Text.splitOnce '/' value
    let (start, stop) ← Text.splitOnce '-' span
    let start ← Text.parseUnsigned u64Max start
    let stop ← Text.parseUnsigned u64Max stop
    let total ← Text.parseUnsigned u64Max total
    pure (start, stop, total)
  match parsed with
  | none => .error badContentRange
  | some (start', stop', total') =>
    if start' ≠ start ∨ stop' ≠ stop ∨ total' ≠ total ∨ stop' < start' ∨ total' ≤ stop' then
      .error badContentRange
    else .ok ()

/-- What is to be done with an answer. -/
inductive Verdict where
  | retry (after : Option ℕ)
  | copy
  deriving DecidableEq

def judge (ranged : Bool) (start stop total : ℕ) (r : Response) : Except IoError Verdict :=
  if retryableStatus r.status then .ok (.retry r.retryAfter)
  else if ranged then
    if r.status ≠ 206 then
      .error (invalidData s!"Graph did not honor a content range; answered {r.status}")
    else match r.contentRange with
      | none => .error (invalidData "Graph omitted Content-Range from a ranged download")
      | some range => (validateContentRange range start stop total).map fun _ ↦ .copy
  else if r.status ≠ 200 then
    .error ⟨.other, none, s!"Graph content request returned HTTP {r.status}"⟩
  else .ok .copy

/-- Where the bytes go: over the wire, or into memory, which refuses nothing. -/
inductive Sink where
  | wire
  | memory
  deriving DecidableEq

def Sink.refuses : Sink → Piece → Option IoError
  | .wire, p => p.refused
  | .memory, _ => none

/-- The bytes an operation offered to its sink, whether the sink broke on the last of them, and
how the operation ended. -/
structure Copied (α : Type) where
  result : Except IoError α
  taken : List (List UInt8)
  broken : Bool

/-- Copy a body through the counter, `written` of the `expected` bytes having passed it. -/
def copy (sink : Sink) (expected : ℕ) (cut : Option IoError) : ℕ → List Piece → Copied Unit
  | _, [] => ⟨match cut with | none => .ok () | some e => .error e, [], false⟩
  | written, p :: ps =>
    if expected < saturatingAdd written p.bytes.length then
      ⟨.error (invalidData "Graph returned more content than the placeholder size"), [], false⟩
    else match sink.refuses p with
      | some e => ⟨.error e, [p.bytes], true⟩
      | none =>
        let rest := copy sink expected cut (written + p.bytes.length) ps
        ⟨rest.result, p.bytes :: rest.taken, rest.broken⟩

/-- An answer whose body was passed on, and the position it had been asked for from. -/
structure Taken where
  start : ℕ
  response : Response
  deriving DecidableEq

/-- What one attempt comes to: whether it is complete or to be made again. -/
structure Attempted where
  copied : Copied Verdict
  source : Option Taken
  locations : ContentLocations

/-- One attempt at a span of which `written` bytes are there. -/
def attempt (sink : Sink) (key : ObjectKey) (span : Span) (total written : ℕ)
    (l : ContentLocations) (t : Try) : Attempted :=
  let start := span.offset + written
  let ranged := !span.isWhole total || written != 0
  let (answer, l) := request l key ranged t
  match answer with
  | .error e => ⟨⟨.error e, [], false⟩, none, l⟩
  | .ok r =>
    match judge ranged start (span.end' - 1) total r with
    | .error e => ⟨⟨.error e, [], false⟩, none, l⟩
    | .ok (.retry after) => ⟨⟨.ok (.retry after), [], false⟩, none, l⟩
    | .ok .copy =>
      let copied := copy sink span.len r.cut written r.pieces
      ⟨⟨copied.result.map fun _ ↦ .copy, copied.taken, copied.broken⟩, some ⟨start, r⟩, l⟩

/-! ## Asking again -/

def maxDownloadRetries : ℕ := 4

/-- In seconds. -/
def downloadBackoff : ℕ := 1

/-- How long a read is held for its first byte, in seconds. -/
def firstByteBudget : ℕ := 30

def retryableDownloadError (e : IoError) : Bool :=
  match e.kind with
  | .connectionAborted | .connectionReset | .connectionRefused | .notConnected | .timedOut
  | .unexpectedEof | .wouldBlock => true
  | _ => false

/-- What a download comes to. -/
structure Download where
  result : Except IoError Unit
  taken : List (List UInt8)
  broken : Bool
  sources : List Taken
  locations : ContentLocations

/-- How an attempt leaves things, when it does not end the download: how long to wait. -/
def settle (expected written : ℕ) (a : Copied Verdict) : (Except IoError Unit) ⊕ Option ℕ :=
  if a.broken then
    .inl (a.result.bind fun _ ↦ .error ⟨.brokenPipe, none,
      "the hydration destination stopped accepting content"⟩)
  else match a.result with
    | .ok .copy => if written = expected then .inl (.ok ()) else .inr none
    | .ok (.retry after) => .inr after
    | .error e => if retryableDownloadError e then .inr none else .inl (.error e)

/-- `resume_copy`: `left` retries are left, the next attempt is the `k`-th, `slept` seconds have
been spent waiting. -/
def resumeCopy (sink : Sink) (key : ObjectKey) (span : Span) (total : ℕ) (tries : ℕ → Try) :
    ℕ → ℕ → ℕ → ContentLocations → List (List UInt8) → Download
  | left, k, slept, l, taken =>
    let a := attempt sink key span total taken.flatten.length l (tries k)
    let taken := taken ++ a.copied.taken
    let sources := a.source.toList
    match settle span.len taken.flatten.length a.copied with
    | .inl result => ⟨result, taken, a.copied.broken, sources, a.locations⟩
    | .inr after =>
      let wait := after.getD downloadBackoff
      match left with
      | 0 => ⟨.error ⟨.timedOut, none, "Graph content download exhausted its retry budget"⟩,
          taken, false, sources, a.locations⟩
      | left + 1 =>
        if firstByteBudget ≤ slept + wait then
          ⟨.error ⟨.timedOut, none,
              s!"Graph is throttling this download: it asked for {wait}s before a retry, " ++
              s!"{slept}s have already been spent waiting, and a hydration read may only be " ++
              s!"held for {firstByteBudget}s"⟩, taken, false, sources, a.locations⟩
        else
          let rest := resumeCopy sink key span total tries left (k + 1) (slept + wait) a.locations
            taken
          { rest with sources := sources ++ rest.sources }

/-- `download_span`. -/
def downloadSpan (sink : Sink) (l : ContentLocations) (key : ObjectKey) (span : Span) (total : ℕ)
    (tries : ℕ → Try) : Download :=
  let stop := span.end'
  if total < stop then
    ⟨.error ⟨.invalidInput, none,
      s!"asked for {span.offset}..{stop} of an item Graph reports as {total} bytes"⟩,
      [], false, [], l⟩
  else if span.isEmpty then ⟨.ok (), [], false, [], l⟩
  else resumeCopy sink key span total tries maxDownloadRetries 0 0 l []

/-! ## What a download passes on -/

theorem copy_taken_isPrefix (sink : Sink) (expected : ℕ) (cut : Option IoError) :
    ∀ (ps : List Piece) (written : ℕ),
      (copy sink expected cut written ps).taken.flatten <+: (ps.map Piece.bytes).flatten := by
  intro ps
  induction ps with
  | nil => exact fun _ ↦ List.prefix_rfl
  | cons p ps ih =>
    intro written
    rw [copy]
    split
    · exact List.nil_prefix
    · split
      · simp
      · simpa using ih _

/-- **One attempt** passes on the start of the body of an answer that was asked for from where the
last attempt stopped, or nothing. -/
theorem attempt_taken (sink : Sink) (key : ObjectKey) (span : Span) (total written : ℕ)
    (l : ContentLocations) (t : Try) :
    ((attempt sink key span total written l t).source = none
        ∧ (attempt sink key span total written l t).copied.taken = [])
      ∨ ∃ r, (attempt sink key span total written l t).source = some ⟨span.offset + written, r⟩
        ∧ (attempt sink key span total written l t).copied.taken.flatten <+: r.body := by
  rw [attempt]
  dsimp only
  generalize request l key (!span.isWhole total || written != 0) t = answered
  obtain ⟨answer, l'⟩ := answered
  cases answer with
  | error e => exact Or.inl ⟨rfl, rfl⟩
  | ok r =>
    dsimp only
    split
    · exact Or.inl ⟨rfl, rfl⟩
    · exact Or.inl ⟨rfl, rfl⟩
    · exact Or.inr ⟨r, rfl, copy_taken_isPrefix _ _ _ _ _⟩

theorem settle_ok {expected written : ℕ} {a : Copied Verdict}
    (h : settle expected written a = .inl (.ok ())) : written = expected := by
  rw [settle] at h
  split at h
  · obtain ⟨v, -, hv⟩ := Checks.bind_eq_ok_iff.mp (Sum.inl.inj h)
    cases hv
  · split at h
    · split at h
      · assumption
      · cases h
    · cases h
    · split at h <;> cases h

theorem settle_unbroken {expected written : ℕ} {a : Copied Verdict}
    (h : settle expected written a = .inl (.ok ())) : a.broken = false := by
  rw [settle] at h
  split at h
  · obtain ⟨v, -, hv⟩ := Checks.bind_eq_ok_iff.mp (Sum.inl.inj h)
    cases hv
  · rename_i hbroken
    exact Bool.eq_false_of_not_eq_true hbroken

/-- Two runs of the bytes from `offset` on, the second from where the first stops, make up one. -/
theorem append_isPrefix_drop {α : Type*} {a b c : List α} {offset : ℕ} (ha : a <+: c.drop offset)
    (hb : b <+: c.drop (offset + a.length)) : a ++ b <+: c.drop offset := by
  obtain ⟨rest, hrest⟩ := ha
  have hdrop : c.drop (offset + a.length) = rest := by
    rw [← List.drop_drop, ← hrest, List.drop_left]
  rw [hdrop] at hb
  rw [← hrest]
  exact (List.prefix_append_right_inj a).mpr hb

variable {sink : Sink} {key : ObjectKey} {span : Span} {total : ℕ} {tries : ℕ → Try}

theorem resumeCopy_ok :
    ∀ {left k slept : ℕ} {l : ContentLocations} {taken : List (List UInt8)},
      (resumeCopy sink key span total tries left k slept l taken).result = .ok () →
        (resumeCopy sink key span total tries left k slept l taken).taken.flatten.length
          = span.len := by
  intro left
  induction left with
  | zero =>
    intro k slept l taken h
    unfold resumeCopy at h ⊢
    dsimp only at h ⊢
    split at h
    · rename_i result hsettle
      dsimp only at h
      subst h
      exact settle_ok hsettle
    · cases h
  | succ left ih =>
    intro k slept l taken h
    unfold resumeCopy at h ⊢
    dsimp only at h ⊢
    split at h
    · rename_i result hsettle
      dsimp only at h
      subst h
      exact settle_ok hsettle
    · split at h
      · cases h
      · rename_i hslept
        rw [if_neg hslept]
        exact ih h

/-- A copy that ends well was not refused by its sink. -/
theorem resumeCopy_unbroken :
    ∀ {left k slept : ℕ} {l : ContentLocations} {taken : List (List UInt8)},
      (resumeCopy sink key span total tries left k slept l taken).result = .ok () →
        (resumeCopy sink key span total tries left k slept l taken).broken = false := by
  intro left
  induction left with
  | zero =>
    intro k slept l taken h
    unfold resumeCopy at h ⊢
    dsimp only at h ⊢
    split at h
    · rename_i result hsettle
      dsimp only at h
      subst h
      exact settle_unbroken hsettle
    · cases h
  | succ left ih =>
    intro k slept l taken h
    unfold resumeCopy at h ⊢
    dsimp only at h ⊢
    split at h
    · rename_i result hsettle
      dsimp only at h
      subst h
      exact settle_unbroken hsettle
    · split at h
      · cases h
      · rename_i hslept
        rw [if_neg hslept]
        exact ih h

/-- **What a download passes on is a run of the content `whole`**, where every answer it passes on
is. -/
theorem resumeCopy_isPrefix {whole : List UInt8} :
    ∀ {left k slept : ℕ} {l : ContentLocations} {taken : List (List UInt8)},
      taken.flatten <+: whole.drop span.offset →
      (∀ s ∈ (resumeCopy sink key span total tries left k slept l taken).sources,
        s.response.body <+: whole.drop s.start) →
      (resumeCopy sink key span total tries left k slept l taken).taken.flatten
        <+: whole.drop span.offset := by
  intro left
  -- one attempt extends what is there by the start of its answer
  have hstep : ∀ {k : ℕ} {l : ContentLocations} {taken : List (List UInt8)},
      taken.flatten <+: whole.drop span.offset →
      (∀ s ∈ (attempt sink key span total taken.flatten.length l (tries k)).source.toList,
        s.response.body <+: whole.drop s.start) →
      (taken ++ (attempt sink key span total taken.flatten.length l (tries k)).copied.taken).flatten
        <+: whole.drop span.offset := by
    intro k l taken htaken hsrc
    rw [List.flatten_append]
    rcases attempt_taken sink key span total taken.flatten.length l (tries k) with
      ⟨-, hnone⟩ | ⟨r, hsome, hpre⟩
    · rw [hnone]
      simpa using htaken
    · refine append_isPrefix_drop htaken (hpre.trans ?_)
      exact hsrc ⟨_, r⟩ (by rw [hsome]; exact List.mem_singleton.mpr rfl)
  induction left with
  | zero =>
    intro k slept l taken htaken hsrc
    unfold resumeCopy at hsrc ⊢
    dsimp only at hsrc ⊢
    split
    · rename_i result hsettle
      rw [hsettle] at hsrc
      exact hstep htaken hsrc
    · rename_i after hsettle
      rw [hsettle] at hsrc
      exact hstep htaken hsrc
  | succ left ih =>
    intro k slept l taken htaken hsrc
    unfold resumeCopy at hsrc ⊢
    dsimp only at hsrc ⊢
    split
    · rename_i result hsettle
      rw [hsettle] at hsrc
      exact hstep htaken hsrc
    · rename_i after hsettle
      rw [hsettle] at hsrc
      dsimp only at hsrc
      split
      · rename_i hslept
        rw [if_pos hslept] at hsrc
        exact hstep htaken hsrc
      · rename_i hslept
        rw [if_neg hslept] at hsrc
        dsimp only at hsrc ⊢
        refine ih (hstep htaken fun s hs ↦ hsrc s (List.mem_append_left _ hs)) fun s hs ↦ ?_
        exact hsrc s (List.mem_append_right _ hs)

theorem downloadSpan_length {l : ContentLocations}
    (h : (downloadSpan sink l key span total tries).result = .ok ()) :
    (downloadSpan sink l key span total tries).taken.flatten.length = span.len := by
  rw [downloadSpan] at h ⊢
  split at h
  · cases h
  · rename_i hstop
    rw [if_neg hstop]
    split at h
    · rename_i hempty
      rw [if_pos hempty]
      have hzero : span.len = 0 := by simpa [Span.isEmpty] using hempty
      exact hzero.symm
    · rename_i hempty
      rw [if_neg hempty]
      exact resumeCopy_ok h

theorem downloadSpan_unbroken {l : ContentLocations}
    (h : (downloadSpan sink l key span total tries).result = .ok ()) :
    (downloadSpan sink l key span total tries).broken = false := by
  rw [downloadSpan] at h ⊢
  split at h
  · cases h
  · rename_i hstop
    rw [if_neg hstop]
    split at h
    · rename_i hempty
      rw [if_pos hempty]
    · rename_i hempty
      rw [if_neg hempty]
      exact resumeCopy_unbroken h

/-- The bytes of the span in an object of content `whole`. -/
structure IsSlice (whole : List UInt8) (span : Span) (bytes : List UInt8) : Prop where
  length : bytes.length = span.len
  isPrefix : bytes <+: whole.drop span.offset

theorem IsSlice.getElem?_eq {whole bytes : List UInt8} (h : IsSlice whole span bytes) {x : ℕ}
    (h1 : span.offset ≤ x) (h2 : x < span.offset + span.len) :
    bytes[x - span.offset]? = whole[x]? := by
  have hlt : x - span.offset < bytes.length := by
    rw [h.length]
    omega
  rw [List.getElem?_eq_getElem hlt, ← List.prefix_iff_getElem?.mp h.isPrefix _ hlt,
    List.getElem?_drop, Nat.add_sub_cancel' h1]

/-- **A download that ends well has passed on the span of `whole`**, where every answer it passed on
is a run of `whole`. -/
theorem downloadSpan_ok {l : ContentLocations} {whole : List UInt8}
    (h : (downloadSpan sink l key span total tries).result = .ok ())
    (hsrc : ∀ s ∈ (downloadSpan sink l key span total tries).sources,
      s.response.body <+: whole.drop s.start) :
    IsSlice whole span (downloadSpan sink l key span total tries).taken.flatten := by
  refine ⟨downloadSpan_length h, ?_⟩
  rw [downloadSpan] at hsrc ⊢
  split
  · exact List.nil_prefix
  · rename_i hstop
    rw [if_neg hstop] at hsrc
    split
    · exact List.nil_prefix
    · rename_i hempty
      rw [if_neg hempty] at hsrc
      exact resumeCopy_isPrefix List.nil_prefix hsrc

end HydrationAPI.Graph
