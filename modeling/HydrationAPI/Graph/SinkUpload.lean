import HydrationAPI.Graph.QuickXor
import HydrationAPI.Graph.Sink
import HydrationAPI.Protocol.Span

/-!
# Uploads and renames

A file that is no longer than the policy allows goes up as one `PUT`, any other through a session,
fragment by fragment. An update is addressed at the object and bound to the tag the sink has for it;
a create is addressed at the name, and never replaces what has the name. What the service answers to
a write names the object and, if it has one, the tag of the new version, which is read back where it
does not.
-/

namespace HydrationAPI.Graph

open Client (Attr RelPath)
open Client.Upload (Known Uploaded)

/-! ## Names the service will not hold -/

def maxPathChars : ℕ := 400

def maxNameBytes : ℕ := 255

def reservedNames : List String :=
  [".lock", "desktop.ini", "con", "prn", "aux", "nul", "com0", "com1", "com2", "com3", "com4",
    "com5", "com6", "com7", "com8", "com9", "lpt0", "lpt1", "lpt2", "lpt3", "lpt4", "lpt5", "lpt6",
    "lpt7", "lpt8", "lpt9"]

def reservedChars : List Char := ['\x22', '*', ':', '<', '>', '?', '\\', '|', '/']

/-- `to_ascii_lowercase`. -/
def asciiLower (s : String) : String := String.ofList (s.toList.map Char.toLower)

def unholdable (c : Char) : Bool := c ∈ reservedChars || c.toNat < 0x20 || c = '\x7f'

/-- One segment of a name. -/
def checkSegment (segment : String) : Except IoError Unit :=
  let chars := segment.toList
  let quoted := segment.quote
  let bytes := segment.utf8ByteSize
  if segment = "" ∨ segment = "." ∨ segment = ".." then
    .error (refused "a path segment that names no object")
  else if bytes > maxNameBytes then
    .error (refused
      s!"the segment {quoted} is {bytes} bytes, and the service holds {maxNameBytes}")
  else if chars.head? = some ' ' ∨ chars.getLast? = some ' ' ∨ chars.getLast? = some '.' then
    .error (refused (s!"{quoted} would be trimmed or refused, and a trimmed name is one "
      ++ "the local file does not have"))
  else if "~$".toList <+: chars then .error (refused s!"{quoted} is a name the service reserves")
  else if chars.any unholdable then
    .error (refused s!"{quoted} holds a character the service will not")
  else if "_vti_".toList <:+: (asciiLower segment).toList then
    .error (refused s!"{quoted} holds the reserved infix _vti_")
  else if asciiLower segment ∈ reservedNames then
    .error (refused s!"{quoted} is a name the service reserves")
  else .ok ()

/-- Whether a drive-relative name can exist in the cloud, judged before a byte moves. -/
def checkRelativeName (rel : String) : Except IoError Unit :=
  let length := rel.toList.length
  if rel = "" then .error (refused "a file with no name below the sync root")
  else if length > maxPathChars then
    .error (refused s!"the path is {length} characters, and the service holds {maxPathChars}")
  else (Text.split '/' rel).forM checkSegment

/-! ## What the service says of a session -/

/-- `White_Space`. -/
def isWhitespace (c : Char) : Bool :=
  (0x9 ≤ c.toNat && c.toNat ≤ 0xd) || (0x2000 ≤ c.toNat && c.toNat ≤ 0x200a)
    || c.toNat ∈ [0x20, 0x85, 0xa0, 0x1680, 0x2028, 0x2029, 0x202f, 0x205f, 0x3000]

def trim (s : String) : String :=
  String.ofList ((s.toList.dropWhile isWhitespace).reverse.dropWhile isWhitespace).reverse

/-- The offset the service is still waiting for, read from its own answer. -/
def outstandingOffset (reply : Reply) : Option ℕ := do
  let parsed ← reply.session.toOption
  let ranges ← parsed.nextExpectedRanges
  let first ← ranges.head?
  let start ← (Text.split '-' first).head?
  Text.parseUnsigned u64Max (trim start)

/-- Whether a refused write was refused because the name is taken. -/
def collidedOnName (reply : Reply) : Bool :=
  reply.status = 409 && reply.code = some "nameAlreadyExists"

/-! ## Writes that have been answered -/

/-- What was about to be written, kept only long enough to compare it. -/
structure Sent where
  len : ℕ
  hash : String

/-- What one write attempt settled on. -/
inductive Written where
  | done (uploaded : Uploaded)
  /-- The service does not have the object the local file claims. -/
  | gone

/-- What one session's transfer settled on. -/
inductive Transferred where
  | committed (item : Except String DriveItem)
  /-- The session is no longer there. -/
  | vanished
  | abandoned (e : IoError)

/-- The `if-match` an update may carry, if there is one. -/
def precondition (tags : TagSource) (known : KnownTags) (cloudId : String) : Option String :=
  (known.lookup cloudId).bind fun tag ↦
    match (Text.stripPrefix "et:" tag).filter (· ≠ "") with
    | some raw => some raw
    | none => if tags = .cTag then (Text.stripPrefix "ct:" tag).filter (· ≠ "") else none

namespace GraphSink

variable (cfg : SinkConfig)

/-- The content tag of the version an object holds right now. -/
def readTag (key : ObjectKey) : GraphSink (Option String) := do
  let reply ← call (.metadata key)
  if ¬ reply.success then
    Errand.throw (serviceRefused "the object's metadata could not be read" reply)
  else
    let item ← decode reply.item
    pure (contentTag item.body cfg.tags)

/-- What a successful write means, once the service has answered. -/
def settle (drive : DriveId) (body : Except String DriveItem) : GraphSink Uploaded := do
  let item ← decode body
  match item.id with
  | none => Errand.throw (invalidData "the service accepted the write and named no object")
  | some raw =>
    match Id.parse raw with
    | .error e =>
      let named := e.debug
      Errand.throw (invalidData s!"the service named {named}")
    | .ok id =>
      let key : ObjectKey := ⟨drive, id⟩
      let tag ← match contentTag item.body cfg.tags with
        | some t => pure (some t)
        | none => readTag cfg key
      let cloudId := key.toCloudId
      match tag with
      | some t =>
        Errand.modify (AList.insert cloudId t)
        pure ⟨cloudId, some t⟩
      | none => pure ⟨cloudId, none⟩

def settleFolder (drive : DriveId) (body : Except String DriveItem) : GraphSink Uploaded := do
  let item ← decode body
  if shapeOf item ≠ .folder then
    Errand.throw (invalidData
      "the service answered a folder write with an object that is not an ordinary folder")
  else match item.id with
  | none =>
    Errand.throw (invalidData "the service accepted the folder write and named no object")
  | some raw =>
    match Id.parse raw with
    | .error e =>
      let named := e.debug
      Errand.throw (invalidData s!"the service named {named}")
    | .ok id =>
      let key : ObjectKey := ⟨drive, id⟩
      match item.eTag.filter (· ≠ "") with
      | none =>
        Errand.throw (invalidData "the service accepted the folder write but returned no eTag")
      | some rawTag =>
        let cloudId := key.toCloudId
        let tag := "et:" ++ rawTag
        Errand.modify (AList.insert cloudId tag)
        pure ⟨cloudId, some tag⟩

/-! ## The simple form -/

/-- A whole file as one `PUT`, at the object the local file claims. -/
def putAtItem (key : ObjectKey) (cloudId : String) (body : List UInt8) : GraphSink Written := do
  let known ← Errand.state
  match precondition cfg.tags known cloudId with
  | none => Errand.throw noPrecondition
  | some tag =>
    let reply ← call (.putItem key tag body)
    if reply.success then
      let uploaded ← settle cfg key.drive reply.item
      pure (.done uploaded)
    else if reply.status = 404 then pure .gone
    else Errand.throw (serviceRefused "the update was refused" reply)

/-- Whether the object is, under this name and byte for byte, what was to be sent. -/
def isSent (item : DriveItem) (rel : String) (sent : Sent) : Bool :=
  let ours := (Text.split '/' rel).getLast?.getD rel
  item.name = some ours && item.body.size.bind Json.asU64 = some sent.len
    && (match item.body.hashes.bind Hashes.quickXorHash with
      | none => false
      | some theirs => theirs = sent.hash && sent.hash ≠ "")

/-- The object already at this name, if it is what was to be sent. -/
def reconcileByContent (drive : DriveId) (rel : String) (sent : Sent) :
    GraphSink (Option Uploaded) := do
  let reply ← call (.pathMetadata drive rel)
  if ¬ reply.success then
    Errand.throw (serviceRefused "the object already at this name could not be read" reply)
  else
    let item ← decode reply.item
    if isSent item rel sent then
      let uploaded ← settle cfg drive reply.item
      pure (some uploaded)
    else pure none

/-- A whole file as one `PUT`, at a name the drive may or may not hold. -/
def putAtPath (rel : String) (body : List UInt8) : GraphSink Uploaded := do
  Errand.lift (checkRelativeName rel)
  let drive := cfg.scope.drive
  let sent : Sent := ⟨body.length, quickxorOf body⟩
  let reply ← call (.putPath drive rel body)
  if reply.success then settle cfg drive reply.item
  else if collidedOnName reply then
    match ← Errand.attempt (reconcileByContent cfg drive rel sent) with
    | .ok (some u) => pure u
    | .ok none =>
      Errand.throw (refused
        ("a different file already exists in the cloud under this name, and this "
          ++ "copy has no record of which version it was based on, so it "
          ++ "cannot be sent without overwriting that one blind"))
    | .error e =>
      Errand.throw (errorOther
        ("a file already exists in the cloud under this name, and whether it "
          ++ s!"holds the same content could not be established: {e.text}"))
  else Errand.throw (serviceRefused "the create was refused" reply)

/-! ## The local file -/

/-- Whether the file carries the mark of an eviction; one that cannot be read counts as an error. -/
def isPlaceholder (path : RelPath) : GraphSink Bool := do
  let mark : Attr ← Errand.ask (Query.markAt path)
  match mark with
  | .unreadable e =>
    Errand.throw (refused s!"cannot tell a placeholder from content at this path: {e}")
  | .absent => pure false
  | .text _ | .binary _ => pure true

/-- An answer of the operating system. -/
def local' {α : Type} (m : GraphSink (Except IoError α)) : GraphSink α := do
  let answer ← m
  Errand.lift answer

def openFile (path : RelPath) : GraphSink Unit := local' (Errand.ask (Query.open' path))

def snapshot : GraphSink Snapshot := local' (Errand.ask Query.opened)

def readWhole : GraphSink (List UInt8) := local' (Errand.ask Query.readWhole)

def readExactAt (offset len : ℕ) : GraphSink (List UInt8) :=
  local' (Errand.ask (Query.readExactAt offset len))

/-- Why a file is not the one a snapshot describes. -/
def difference (snap now : Snapshot) : Option IoError :=
  if now.dev ≠ snap.dev ∨ now.ino ≠ snap.ino then
    some (refused "another inode took the path while the transfer ran")
  else if now.len ≠ snap.len then
    let found := now.len
    let declared := snap.len
    some (refused s!"the file is {found} bytes and the transfer declared {declared}")
  else if now.mtime ≠ snap.mtime then
    some (refused "the file was written while the transfer ran")
  else if now.head ≠ snap.head then
    some (refused ("the file's content changed while the transfer ran, without moving its "
      ++ "size or its timestamp"))
  else none

/-- Whether the file at the path is still the one the snapshot describes. -/
def unchanged (path : RelPath) (snap : Snapshot) : GraphSink Unit := do
  if ← isPlaceholder path then
    Errand.throw (refused "the file became a dehydrated placeholder while the transfer ran")
  else
    let now ← local' (Errand.ask (Query.current path snap.head.length))
    match difference snap now with
    | some e => Errand.throw e
    | none => pure ()

/-! ## The resumable form -/

def fragmentQuantum : ℕ := 320 * 1024

def maxFragmentBytes : ℕ := 60 * 1024 * 1024

def maxFragmentFaults : ℕ := 3

def maxFragmentStalls : ℕ := 3

def fragmentHeadroom : ℕ := 8

/-- A whole number of quanta, below the ceiling of the service. -/
def fragmentSize : ℕ :=
  let quanta := max (cfg.fragmentBytes / fragmentQuantum) 1
  let ceiling := (maxFragmentBytes - 1) / fragmentQuantum
  min quanta ceiling * fragmentQuantum

theorem fragmentSize_pos (cfg : SinkConfig) : 0 < fragmentSize cfg := by
  have hceiling : 0 < (maxFragmentBytes - 1) / fragmentQuantum := by decide
  have hquanta : 0 < max (cfg.fragmentBytes / fragmentQuantum) 1 := lt_max_of_lt_right one_pos
  exact Nat.mul_pos (lt_min hquanta hceiling) (by decide)

theorem fragmentQuantum_dvd (cfg : SinkConfig) : fragmentQuantum ∣ fragmentSize cfg :=
  dvd_mul_left _ _

/-- Where the service says the transfer is. -/
def probe (url : String) : GraphSink (Option ℕ) := do
  match ← Errand.attempt (callSession (.probe url)) with
  | .error _ => pure none
  | .ok reply => if reply.success then pure (outstandingOffset reply) else pure none

/-- A transfer, as far as it has come. -/
structure Transfer where
  offset : ℕ
  stalls : ℕ
  faults : ℕ
  /-- Whether the object has been read again, before the fragment that completes the file. -/
  rechecked : Bool

/-- Whether the object still is at the version the update is based on. -/
def recheck (key : ObjectKey) (cloudId : String) : GraphSink Bool := do
  let known ← Errand.state
  let now ← readTag cfg key
  pure (now.isSome && now = known.lookup cloudId)

/-- What follows from the answer to a fragment: the transfer has ended, or goes on. -/
def afterFragment (url : String) (total stop : ℕ) (t : Transfer) (reply : Reply) :
    GraphSink (Transferred ⊕ Transfer) :=
  if reply.status = 200 ∨ reply.status = 201 then pure (.inl (.committed reply.item))
  else if reply.status = 202 then
    let next := (outstandingOffset reply).getD (stop + 1)
    if next ≥ total then
      pure (.inl (.abandoned (sessionFailed "accepted every byte without committing any of them")))
    else if next ≤ t.offset then
      if t.stalls + 1 ≥ maxFragmentStalls then
        pure (.inl (.abandoned (sessionFailed
          "kept asking for a range it had already been sent")))
      else pure (.inr { t with stalls := t.stalls + 1, offset := next })
    else pure (.inr { t with stalls := 0, offset := next })
  else if reply.status = 416 then do
    match ← probe url with
    | some at' => pure (.inr { t with offset := at' })
    | none =>
      pure (.inl (.abandoned (sessionFailed
        "refused the range and would not say which it wanted")))
  else if reply.status = 404 ∨ reply.status = 410 then pure (.inl .vanished)
  else pure (.inl (.abandoned (serviceRefused "a fragment was refused" reply)))

/-- Send a fragment. -/
def sendFragment (url : String) (total len : ℕ) (bytes : List UInt8) (t : Transfer) :
    GraphSink (Transferred ⊕ Transfer) := do
  let stop := t.offset + len - 1
  match ← Errand.attempt (callSession (.fragment url t.offset stop total bytes)) with
  | .error e =>
    if t.faults + 1 ≥ maxFragmentFaults then pure (.inl (.abandoned e))
    else
      let t := { t with faults := t.faults + 1 }
      match ← probe url with
      | some at' => pure (.inr { t with offset := at' })
      | none => pure (.inr t)
  | .ok reply => afterFragment url total stop t reply

def movedOn : IoError :=
  refused ("the object moved on under the session, so the commit "
    ++ "would overwrite a version this machine has never seen")

/-- One round of the transfer. -/
def transferRound (path : RelPath) (url : String) (target : Option (ObjectKey × String))
    (snap : Snapshot) (t : Transfer) : GraphSink (Transferred ⊕ Transfer) := do
  unchanged path snap
  let len := min (fragmentSize cfg) (snap.len - t.offset)
  let bytes ← readExactAt t.offset len
  if t.offset + len = snap.len ∧ t.rechecked = false then
    let t := { t with rechecked := true }
    match target with
    | none => sendFragment url snap.len len bytes t
    | some (key, cloudId) =>
      if ← recheck cfg key cloudId then sendFragment url snap.len len bytes t
      else pure (.inl (.abandoned movedOn))
  else sendFragment url snap.len len bytes t

/-- The rounds of a transfer, of which `left` are left. -/
def transferRounds (path : RelPath) (url : String) (target : Option (ObjectKey × String))
    (snap : Snapshot) : ℕ → Transfer → GraphSink Transferred
  | 0, t =>
    if t.offset < snap.len then
      pure (.abandoned (sessionFailed "never converged on an outstanding range"))
    else pure (.abandoned (sessionFailed "took the whole file and never committed it"))
  | left + 1, t =>
    if t.offset < snap.len then do
      match ← transferRound cfg path url target snap t with
      | .inl settled => pure settled
      | .inr t => transferRounds path url target snap left t
    else pure (.abandoned (sessionFailed "took the whole file and never committed it"))

/-- The fragment protocol. -/
def transfer (path : RelPath) (url : String) (target : Option (ObjectKey × String))
    (snap : Snapshot) : GraphSink Transferred :=
  transferRounds cfg path url target snap
    (snap.len / fragmentSize cfg + fragmentHeadroom + 1 + 1) ⟨0, 0, 0, false⟩

def vanished : IoError :=
  sessionFailed ("vanished before the transfer committed, and a session that has "
    ++ "completed vanishes the same way — so nothing here is evidence the "
    ++ "content landed")

/-- Where a session is opened. -/
def sessionRequest (rel : String) (target : Option (ObjectKey × String)) : GraphSink Request :=
  match target with
  | some (key, cloudId) => do
    let known ← Errand.state
    match precondition cfg.tags known cloudId with
    | none => Errand.throw noPrecondition
    | some _ => pure (.itemSession key)
  | none => do
    Errand.lift (checkRelativeName rel)
    pure (.pathSession cfg.scope.drive rel)

/-- Open a session, transfer the file through it, and commit. -/
def uploadSession (path : RelPath) (rel : String) (target : Option (ObjectKey × String))
    (snap : Snapshot) : GraphSink Written := do
  let drive := match target with
    | some (key, _) => key.drive
    | none => cfg.scope.drive
  let request ← sessionRequest cfg rel target
  let reply ← call request
  if reply.status = 404 ∧ target.isSome then pure .gone
  else if ¬ reply.success then
    Errand.throw (serviceRefused "the upload session was refused" reply)
  else
    let session ← decode reply.session
    match session.uploadUrl.filter fun u ↦ (Text.stripPrefix "https://" u).isSome with
    | none =>
      Errand.throw (invalidData "the service opened an upload session at no usable URL")
    | some url =>
      match ← Errand.attempt (transfer cfg path url target snap) with
      | .ok (.committed item) =>
        let uploaded ← settle cfg drive item
        pure (.done uploaded)
      | .ok .vanished => Errand.throw vanished
      | .ok (.abandoned e) | .error e =>
        let _ ← Errand.attempt (callSession (.cancel url))
        Errand.throw e

/-! ## Uploads -/

def notTheDocument : IoError :=
  refused ("the file is a dehydrated placeholder, and its holes are not the "
    ++ "user's document")

/-- The file is opened and judged. -/
def judgeFile (path : RelPath) : GraphSink Snapshot := do
  openFile path
  if ← isPlaceholder path then Errand.throw notTheDocument else snapshot

/-- The create an update falls back to when the service no longer has the object. -/
def create (path : RelPath) (rel : String) : GraphSink Uploaded := do
  let snap ← judgeFile path
  if snap.len > cfg.simpleUploadMax then
    match ← uploadSession cfg path rel none snap with
    | .done u => pure u
    | .gone => Errand.throw (refused "the create named no object")
  else
    let body ← readWhole
    putAtPath cfg rel body

/-- The tag the framework recorded, where none is remembered. -/
def seed (cloudId : String) (tag : Option String) (known : KnownTags) : KnownTags :=
  match tag with
  | some t => if (known.lookup cloudId).isSome then known else known.insert cloudId t
  | none => known

/-- The object an upload is addressed at. -/
def targetOf (existing : Option Known) : GraphSink (Option (ObjectKey × String)) :=
  match existing with
  | none => pure none
  | some known =>
    match keyOfCloudId known.cloudId with
    | none =>
      Errand.throw (refused
        ("the recorded cloud id names no drive and no item, so there is "
          ++ "no object this write could be addressed at"))
    | some key => do
      Errand.modify (seed known.cloudId known.tag)
      pure (some (key, known.cloudId))

/-- What an update came to, or the create it falls back to. -/
def orCreate (path : RelPath) (rel : String) (written : Written) : GraphSink Uploaded :=
  match written with
  | .done u => pure u
  | .gone => create cfg path rel

def upload (path : RelPath) (existing : Option Known) : GraphSink Uploaded := do
  let snap ← judgeFile path
  let rel := path.display
  let target ← targetOf existing
  if snap.len > cfg.simpleUploadMax then
    let written ← uploadSession cfg path rel target snap
    orCreate cfg path rel written
  else
    let body ← readWhole
    match target with
    | some (key, cloudId) =>
      let written ← putAtItem cfg key cloudId body
      orCreate cfg path rel written
    | none => putAtPath cfg rel body

/-! ## Renames -/

/-- The folder a rename moves the object into, if it leaves its folder. -/
def destination (key : ObjectKey) (src dst : RelPath) : GraphSink (Option ItemId) := do
  if src.dropLast = dst.dropLast then pure none
  else
    match ← idAt dst.dropLast with
    | .text parentId =>
      match keyOfCloudId parentId with
      | none => Errand.throw (refused "the destination folder's cloud identity is malformed")
      | some parentKey =>
        if parentKey.drive ≠ key.drive then
          Errand.throw (refused
            "moving an object between drives is not a same-drive folder move")
        else pure (some parentKey.item)
    | _ =>
      Errand.throw (refused ("the destination folder has no recorded cloud identity; the object "
        ++ "was not moved by path"))

def moveItem (src dst : RelPath) (existing : Known) : GraphSink Uploaded := do
  Errand.lift (checkRelativeName dst.display)
  match keyOfCloudId existing.cloudId with
  | none =>
    Errand.throw (refused
      "the recorded cloud id names no drive and no item, so there is no object to move")
  | some key =>
    Errand.modify (seed existing.cloudId existing.tag)
    let known ← Errand.state
    match precondition cfg.tags known existing.cloudId with
    | none => Errand.throw noPrecondition
    | some tag =>
      let parent ← destination key src dst
      let reply ← call (.patch key tag (dst.getLast?.getD "") parent)
      if reply.success then
        let isDir : Bool ← Errand.ask (Query.isDir dst)
        if isDir then settleFolder key.drive reply.item else settle cfg key.drive reply.item
      else Errand.throw (serviceRefused "the object was not renamed" reply)

/-! ## Removals -/

/-- Conditional where there is a tag to be bound to. -/
def remove (cloudId : String) : GraphSink Unit := do
  match keyOfCloudId cloudId with
  | none =>
    Errand.throw (refused
      "the cloud id names no drive and no item, so there is no object to remove")
  | some key =>
    let known ← Errand.state
    let reply ← call (.delete key (precondition cfg.tags known cloudId))
    if reply.success ∨ reply.status = 404 then pure ()
    else Errand.throw (serviceRefused "the object was not removed" reply)

def removeKnown (existing : Known) : GraphSink Unit := do
  Errand.modify (seed existing.cloudId existing.tag)
  remove cfg existing.cloudId

end GraphSink

end HydrationAPI.Graph
