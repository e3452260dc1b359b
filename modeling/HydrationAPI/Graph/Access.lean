import HydrationAPI.Graph.Download
import HydrationAPI.Graph.Item
import HydrationAPI.Graph.QuickXor

/-!
# The provider of content

Serving one span of one object, and the windows of read-ahead that are fetched beside it. An
object that is wanted whole is held against its tag: by its hash, or by a metadata read before and
after. A part of it is passed on as it comes, from the service or from the ledger of the windows
that were fetched ahead.

Every answer that is passed on leaves a trace, with whether what was made of it has been held
against a tag.
-/

namespace HydrationAPI.Graph

/-- A window's identity in the prefetch ledger: object, offset, length. -/
abbrev WindowKey := String × ℕ × ℕ

instance : LawfulBEq WindowKey := inferInstance

/-- A window that is to be fetched: the object, the span, the size of the object. -/
abbrev Job := String × Span × ℕ

def Job.key (job : Job) : WindowKey := (job.1, job.2.1.offset, job.2.1.len)

/-- Windows of read-ahead: queued or being fetched, awaited, fetched; and what each worker
remembers. -/
structure Prefetcher where
  jobs : List Job
  inflight : List WindowKey
  done : List (WindowKey × Except IoError (List UInt8))
  workers : ℕ → ContentLocations

/-- An answer that was passed on, the object it was asked for, and whether what was made of it is
held against the tag. -/
structure Served where
  key : ObjectKey
  checked : Bool
  taken : Taken
  deriving DecidableEq

/-- A worker carries a job to its end; the service answers its requests. -/
structure Work where
  worker : ℕ
  job : ℕ
  tries : ℕ → Try

/-- How many windows ahead the walk keeps in flight. -/
def prefetchDepth : ℕ := 4

/-- Windows larger than this are not prefetched. -/
def prefetchCeiling : ℕ := 16 * 1024 * 1024

/-- The window a sequential walk will demand next, if any. -/
def nextWindow (span : Span) (size : ℕ) : Option Span :=
  let stop := span.end'
  if size ≤ stop then none else some ⟨stop, min span.len (size - stop)⟩

def invalidCloudId : IoError := ⟨.invalidInput, none, "invalid Graph cloud id"⟩

/-- What a worker makes of a job: the window, what it passed on, and what it remembers. -/
def fetchWindow (l : ContentLocations) (job : Job) (tries : ℕ → Try) :
    Except IoError (List UInt8) × List Served × ContentLocations :=
  match CloudId.parse job.1 with
  | .error _ => (.error invalidCloudId, [], l)
  | .ok key =>
    let d := downloadSpan .memory l key job.2.1 job.2.2 tries
    (d.result.map fun _ ↦ d.taken.flatten, d.sources.map (Served.mk key false), d.locations)

namespace Prefetcher

def new : Prefetcher := ⟨[], [], [], fun _ ↦ .new⟩

/-- A worker carries out a job. A window that was abandoned while it was being fetched is dropped,
not recorded. -/
def work (p : Prefetcher) (w : Work) : Prefetcher × List Served :=
  match p.jobs[w.job]? with
  | none => (p, [])
  | some job =>
    let (bytes, served, l) := fetchWindow (p.workers w.worker) job w.tries
    let p := { p with
      jobs := p.jobs.eraseIdx w.job
      workers := Function.update p.workers w.worker l }
    if job.key ∈ p.inflight then
      ({ p with
        inflight := p.inflight.filter (· ≠ job.key)
        done := (job.key, bytes) :: p.done.filter (·.1 ≠ job.key) }, served)
    else (p, served)

/-- Ask for a span to be fetched in the background. -/
def hint (p : Prefetcher) (cloudId : String) (span : Span) (total : ℕ) : Prefetcher :=
  let key := (cloudId, span.offset, span.len)
  if prefetchCeiling < span.len then p
  else if key ∈ p.inflight ∨ key ∈ p.done.map Prod.fst then p
  else if prefetchDepth + 2 ≤ p.inflight.length + p.done.length then p
  else { p with inflight := p.inflight ++ [key], jobs := p.jobs ++ [(cloudId, span, total)] }

/-- The waiting loop of `take`: the workers finish the jobs `ws` while it waits, and then its
patience is at an end. -/
def await (key : WindowKey) : Prefetcher → List Work →
    Option (List UInt8) × Prefetcher × List Served
  | p, ws =>
    match p.done.lookup key with
    | some bytes =>
      -- an error is discarded: the inline path has its own verdict
      (bytes.toOption, { p with done := p.done.filter (·.1 ≠ key) }, [])
    | none =>
      if key ∉ p.inflight then (none, p, [])
      else match ws with
        | [] => (none, p, [])
        | w :: ws =>
          let (p, served) := p.work w
          let (bytes, p, later) := await key p ws
          (bytes, p, served ++ later)

/-- The prefetched bytes for exactly this window. Asking abandons every window of every other
object. -/
def take (p : Prefetcher) (cloudId : String) (span : Span) (ws : List Work) :
    Option (List UInt8) × Prefetcher × List Served :=
  let p := { p with
    done := p.done.filter (·.1.1 = cloudId)
    inflight := p.inflight.filter (·.1 = cloudId) }
  await (cloudId, span.offset, span.len) p ws

/-- Ask for the windows that come next, as many as `n`. -/
def hintAhead (cloudId : String) (size : ℕ) : ℕ → Prefetcher → Option Span → Prefetcher
  | 0, p, _ => p
  | _, p, none => p
  | n + 1, p, some next => hintAhead cloudId size n (p.hint cloudId next size) (nextWindow next size)

end Prefetcher

structure GraphProvider where
  locations : ContentLocations
  prefetch : Prefetcher
  /-- Where the last ranged window this provider served ended. -/
  lastWindow : Option (String × ℕ)

def GraphProvider.new : GraphProvider := ⟨.new, .new, none⟩

/-- The answer to a metadata read; no item where it could not be decoded. -/
structure MetadataReply where
  time : ℕ
  status : ℕ
  item : Option DriveItem
  deriving DecidableEq

/-- What the service answers while one span is served, and what the workers get done meanwhile. -/
structure FetchCalls where
  opening : Except IoError MetadataReply
  tries : ℕ → Try
  closing : Except IoError MetadataReply
  works : List Work
  /-- Writing a prefetched window fails. -/
  refused : Option IoError

/-- Separate a version precondition from a content-integrity value. -/
def quickxorForVersion (expectedVersion : String) (item : DriveItem) :
    Except IoError (Option String) :=
  let body := item.body
  match contentTag body .cTag with
  | none => .error (invalidData "the object's metadata carried no cTag")
  | some current =>
    if current ≠ expectedVersion then
      .error ⟨.other, none,
        "the object changed after this placeholder was installed; waiting for delta"⟩
    else .ok (body.hashes.bind Hashes.quickXorHash)

/-- QuickXor for the exact cTag the placeholder promises, when the service has one. -/
def quickxorFor (expectedVersion : String) (reply : Except IoError MetadataReply) :
    Except IoError (Option String) :=
  match reply with
  | .error e => .error e
  | .ok reply =>
    if ¬(200 ≤ reply.status ∧ reply.status < 300) then
      .error ⟨.other, none,
        s!"the object's integrity metadata was refused with HTTP {reply.status}"⟩
    else match reply.item with
      | none => .error (invalidData "the object's integrity metadata was malformed")
      | some item => quickxorForVersion expectedVersion item

/-- `QuickXorWriter::verify`, of what went through the writer. -/
def verify (taken : List (List UInt8)) (expected : String) : Except IoError Unit :=
  if (taken.foldl QuickXorWriter.write QuickXorWriter.new).hash = expected then .ok ()
  else .error (invalidData "Graph content did not match its QuickXorHash")

/-- What serving a span comes to: the result, what was offered to the wire, whether the wire
broke, the answers that were passed on, and the provider afterwards. -/
structure Fetched where
  result : Except IoError Unit
  taken : List (List UInt8)
  broken : Bool
  served : List Served
  provider : GraphProvider

namespace GraphProvider

/-- Download the span onto the wire, and have `check` judge what was passed on. -/
def download (p : GraphProvider) (key : ObjectKey) (span : Span) (size : ℕ) (checked : Bool)
    (c : FetchCalls) (check : List (List UInt8) → Except IoError Unit) : Fetched :=
  let d := downloadSpan .wire p.locations key span size c.tries
  ⟨d.result.bind fun _ ↦ check d.taken, d.taken, d.broken, d.sources.map (Served.mk key checked),
    { p with locations := d.locations }⟩

/-- Pass the span on as it comes. -/
def inline (p : GraphProvider) (key : ObjectKey) (span : Span) (size : ℕ) (c : FetchCalls) :
    Fetched := p.download key span size false c fun _ ↦ .ok ()

/-- A part of an object: from the ledger where the walk goes on and the window is there. -/
def ranged (p : GraphProvider) (cloudId : String) (key : ObjectKey) (span : Span) (size : ℕ)
    (c : FetchCalls) : Fetched :=
  let sequential := span.offset = 0 ∨ p.lastWindow = some (cloudId, span.offset)
  let p := { p with lastWindow := some (cloudId, span.end') }
  if ¬sequential then p.inline key span size c
  else
    -- take before hinting: the take is what clears this window from the ledger
    let (window, prefetch, served) := p.prefetch.take cloudId span c.works
    let prefetch := Prefetcher.hintAhead cloudId size prefetchDepth prefetch (nextWindow span size)
    let p := { p with prefetch := prefetch }
    match window with
    | some bytes =>
      match c.refused with
      | none => ⟨.ok (), [bytes], false, served, p⟩
      | some e => ⟨.error e, [bytes], true, served, p⟩
    | none =>
      let f := p.inline key span size c
      { f with served := served ++ f.served }

/-- `Provider::fetch`. -/
def fetch (p : GraphProvider) (cloudId : String) (size : ℕ) (tag : Option String) (span : Span)
    (c : FetchCalls) : Fetched :=
  match CloudId.parse cloudId with
  | .error _ => ⟨.error invalidCloudId, [], false, [], p⟩
  | .ok key =>
    if span.isWhole size then
      match tag with
      | none => p.inline key span size c
      | some tag =>
        match Text.stripPrefix "qx:" tag with
        | some expected => p.download key span size true c fun taken ↦ verify taken expected
        | none =>
          if (Text.stripPrefix "ct:" tag).isSome then
            match quickxorFor tag c.opening with
            | .error e => ⟨.error e, [], false, [], p⟩
            | .ok (some expected) =>
              p.download key span size true c fun taken ↦ verify taken expected
            | .ok none =>
              -- the metadata is read on both sides of the download
              p.download key span size true c fun _ ↦
                (quickxorFor tag c.closing).map fun _ ↦ ()
          else p.inline key span size c
    else p.ranged cloudId key span size c

end GraphProvider

end HydrationAPI.Graph
