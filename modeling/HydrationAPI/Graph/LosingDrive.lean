import HydrationAPI.Graph.Collisions
import Mathlib.Logic.Function.Basic

/-!
# A drive that loses answers

The drive an upload writes to, where no other device writes. Every request is served as it is meant
to be, but whether it has been served need not be told: what is answered may be nothing, a throttle,
or a failure, and the request may have been served or not. So an upload may fail at any point, with
its write committed or not; then it is tried again, from the same file, with the same identity and
the same tag.
-/

namespace HydrationAPI.Graph

open Dialogue Errand
open Client (RelPath)
open Client.Upload (Known Uploaded)

/-! ## The drive -/

/-- What an object holds, and the number of the write it holds it since. -/
structure Stored where
  content : List UInt8
  version : ℕ
  deriving DecidableEq, Repr

inductive Destination where
  | item (key : ObjectKey)
  | path (drive : DriveId) (rel : String)
  deriving DecidableEq

/-- A session that is open, and what it has taken so far. -/
structure Session where
  target : Destination
  received : List UInt8

/-- The objects, the names, and the sessions of the upload. -/
structure Drive where
  objects : ObjectKey → Option Stored
  names : DriveId → String → Option ObjectKey
  /-- How many writes have been committed. -/
  clock : ℕ
  sessions : String → Option Session
  /-- How many sessions have been opened. -/
  opened : ℕ
  dated : ∀ key o, objects key = some o → o.version ≤ clock

namespace Drive

variable (d : Drive)

/-- A write is committed. -/
def write (key : ObjectKey) (content : List UInt8) : Drive :=
  { d with
    objects := Function.update d.objects key (some ⟨content, d.clock + 1⟩)
    clock := d.clock + 1
    dated := fun k o h ↦ by
      by_cases hk : k = key
      · subst hk
        rw [Function.update_self] at h
        exact (Option.some_inj.mp h) ▸ le_rfl
      · rw [Function.update_of_ne hk] at h
        exact (d.dated k o h).trans (Nat.le_succ _) }

/-- A name leads to an object. -/
def name (drive : DriveId) (rel : String) (key : ObjectKey) : Drive :=
  { d with names := Function.update d.names drive (Function.update (d.names drive) rel (some key)) }

def setSession (url : String) (session : Option Session) : Drive :=
  { d with sessions := Function.update d.sessions url session }

/-- A session more has been opened. -/
def open' (url : String) (target : Destination) : Drive :=
  { d.setSession url (some ⟨target, []⟩) with opened := d.opened + 1 }

section

variable (key : ObjectKey) (content : List UInt8) (drive : DriveId) (rel url : String)
  (session : Option Session) (target : Destination)

@[simp] theorem write_objects :
    (d.write key content).objects
      = Function.update d.objects key (some ⟨content, d.clock + 1⟩) := rfl
@[simp] theorem write_names : (d.write key content).names = d.names := rfl
@[simp] theorem write_clock : (d.write key content).clock = d.clock + 1 := rfl
@[simp] theorem write_sessions : (d.write key content).sessions = d.sessions := rfl

@[simp] theorem name_objects : (d.name drive rel key).objects = d.objects := rfl
@[simp] theorem name_names : (d.name drive rel key).names
    = Function.update d.names drive (Function.update (d.names drive) rel (some key)) := rfl
@[simp] theorem name_clock : (d.name drive rel key).clock = d.clock := rfl
@[simp] theorem name_sessions : (d.name drive rel key).sessions = d.sessions := rfl

@[simp] theorem setSession_objects : (d.setSession url session).objects = d.objects := rfl
@[simp] theorem setSession_names : (d.setSession url session).names = d.names := rfl
@[simp] theorem setSession_clock : (d.setSession url session).clock = d.clock := rfl
@[simp] theorem setSession_sessions :
    (d.setSession url session).sessions = Function.update d.sessions url session := rfl

@[simp] theorem open'_objects : (d.open' url target).objects = d.objects := rfl
@[simp] theorem open'_names : (d.open' url target).names = d.names := rfl
@[simp] theorem open'_clock : (d.open' url target).clock = d.clock := rfl
@[simp] theorem open'_sessions :
    (d.open' url target).sessions = Function.update d.sessions url (some ⟨target, []⟩) := rfl

end

end Drive

/-! ## The service -/

/-- What a service says of its objects, what it accepts, and what it names what it creates. -/
structure DriveService where
  /-- What is said of an object that is looked at, and of one that has been written. -/
  shown : ObjectKey → Stored → DriveItem
  told : ObjectKey → Stored → DriveItem
  shown_id : ∀ key o, (shown key o).id = some key.item.raw
  told_id : ∀ key o, (told key o).id = some key.item.raw
  /-- Whether a tag is one of the version. -/
  accepts : String → ℕ → Bool
  /-- No two versions have a tag in common. -/
  accepts_one : ∀ tag v v', accepts tag v = true → accepts tag v' = true → v = v'
  shown_one : ∀ key o o' tag, (shown key o).body.cTag = some tag →
    (shown key o').body.cTag = some tag → o.version = o'.version
  /-- The object that the upload creates, if it creates one. -/
  made : ItemId
  /-- Whether a session at a name that is taken is refused when it is opened, or when it commits. -/
  early : Bool
  url : ℕ → String
  secure : ∀ n, (Text.stripPrefix "https://" (url n)).isSome = true
  /-- The answer to a fragment that does not complete the file, by the offset that comes next. -/
  accepted : ℕ → Reply
  accepts_more : ∀ n, (accepted n).status = 202 ∧ (outstandingOffset (accepted n)).getD n = n

namespace DriveService

open NormalService (itemReply nameTaken notFound)

def preconditionFailed : Reply :=
  ⟨412, .error "an error", .error "an error", .error "an error", some "resourceModified"⟩

def rangeRefused : Reply :=
  ⟨416, .error "an error", .error "an error", .error "an error", some "invalidRange"⟩

def noContent : Reply := ⟨204, .error "no item", .error "no session", .error "no children", none⟩

def sessionReply (url : String) : Reply :=
  ⟨200, .error "no item", .ok ⟨some url, none⟩, .error "no children", none⟩

variable (svc : DriveService) (d : Drive)

/-- A write to an object that is there. -/
def update (key : ObjectKey) (content : List UInt8) : Reply × Drive :=
  (itemReply 200 (svc.told key ⟨content, d.clock + 1⟩), d.write key content)

/-- A write to a name, which is never replaced. -/
def create (drive : DriveId) (rel : String) (content : List UInt8) : Reply × Drive :=
  if (d.names drive rel).isSome then (nameTaken, d)
  else
    let key : ObjectKey := ⟨drive, svc.made⟩
    (itemReply 201 (svc.told key ⟨content, d.clock + 1⟩), (d.write key content).name drive rel key)

/-- What a session comes to that has taken the whole file. No tag is looked at. -/
def commit (content : List UInt8) : Destination → Reply × Drive
  | .item key => if (d.objects key).isSome then svc.update d key content else (notFound, d)
  | .path drive rel => svc.create d drive rel content

def openSession (target : Destination) : Reply × Drive :=
  (sessionReply (svc.url d.opened), d.open' (svc.url d.opened) target)

def fragment (url : String) (offset total : ℕ) (bytes : List UInt8) : Reply × Drive :=
  match d.sessions url with
  | none => (notFound, d)
  | some s =>
    if s.received.length ≠ offset then (rangeRefused, d)
    else if offset + bytes.length < total then
      (svc.accepted (offset + bytes.length),
        d.setSession url (some { s with received := s.received ++ bytes }))
    else
      let r := svc.commit (d.setSession url none) (s.received ++ bytes) s.target
      (r.1, r.2)

/-- What is said of an object. -/
def look (key : ObjectKey) : Reply :=
  match d.objects key with
  | none => notFound
  | some o => itemReply 200 (svc.shown key o)

/-- What is answered to a request, and the drive after it. An upload sends none of the last three.
-/
def serve : Request → Reply × Drive
  | .metadata key => (svc.look d key, d)
  | .pathMetadata drive rel =>
    match d.names drive rel with
    | none => (notFound, d)
    | some key => (svc.look d key, d)
  | .putItem key tag body =>
    match d.objects key with
    | none => (notFound, d)
    | some o => if svc.accepts tag o.version then svc.update d key body else (preconditionFailed, d)
  | .putPath drive rel body => svc.create d drive rel body
  | .itemSession key =>
    if (d.objects key).isSome then svc.openSession d (.item key) else (notFound, d)
  | .pathSession drive rel =>
    if svc.early && (d.names drive rel).isSome then (nameTaken, d)
    else svc.openSession d (.path drive rel)
  | .fragment url offset _ total bytes => svc.fragment d url offset total bytes
  | .probe url =>
    match d.sessions url with
    | none => (notFound, d)
    | some s => ({ svc.accepted s.received.length with status := 200 }, d)
  | .cancel url => (noContent, d.setSession url none)
  | .children _ | .delete .. | .patch .. => (notFound, d)

/-- What is answered, of the service and of the local directory, where no answer is lost. -/
def answer (file : QuietFile) : (q : Query) → Drive → q.Answer × Drive
  | .send request, d => (.ok (svc.serve d request).1, (svc.serve d request).2)
  | .idAt _, d | .markAt _, d => (.absent, d)
  | .isDir _, d => (false, d)
  | .open' _, d => (.ok (), d)
  | .opened, d | .current .., d => (.ok file.snap, d)
  | .readWhole, d => (.ok file.content, d)
  | .readExactAt offset len, d => (.ok ((file.content.drop offset).take len), d)

theorem answered (file : QuietFile) : file.Answered (svc.answer file) :=
  ⟨fun _ _ ↦ rfl, fun _ _ ↦ rfl, fun _ ↦ rfl, fun _ _ _ ↦ rfl, fun _ ↦ rfl, fun _ _ _ ↦ rfl⟩

/-! ## Answers that are lost -/

/-- What says nothing of whether the request has been served: no answer, a throttle, a failure. -/
def Uninformative (a : Except IoError Reply) : Prop :=
  ∀ reply, a = .ok reply → reply.transient = true

/-- What may be answered. -/
def Answers (file : QuietFile) : (q : Query) → Drive → q.Answer → Drive → Prop
  | .send request, d, a, d' =>
    a = .ok (svc.serve d request).1 ∧ d' = (svc.serve d request).2
      ∨ Uninformative a ∧ (d' = d ∨ d' = (svc.serve d request).2)
  | q, d, a, d' => (a, d') = svc.answer file q d

/-- Nobody else writes. -/
def losing (file : QuietFile) : Env Query Query.Answer Drive :=
  ⟨svc.Answers file, fun _ _ ↦ False⟩

end DriveService

/-! ## Uploads that are tried again -/

section

variable (svc : DriveService) (file : QuietFile) (cfg : SinkConfig) (path : RelPath)
  (existing : Option Known)

/-- An attempt that fails. What the process remembers is what it was left with. -/
def Fails (before after : KnownTags × Drive) : Prop :=
  ∃ e, Relation.ReflTransGen (Step (svc.losing file))
    (GraphSink.upload cfg path existing before.1, before.2) (.done (.error e, after.1), after.2)

/-- Any number of them. -/
def Attempts : KnownTags × Drive → KnownTags × Drive → Prop :=
  Relation.ReflTransGen (Fails svc file cfg path existing)

/-- Before the first attempt: nothing has been sent, and the file is new to the drive, or its object
is there. -/
structure Begins (d : Drive) : Prop where
  fresh : ∀ url, d.sessions url = none
  isNew : existing = none → d.names cfg.scope.drive path.display = none
    ∧ d.objects ⟨cfg.scope.drive, svc.made⟩ = none
  isThere : ∀ known key, existing = some known → keyOfCloudId known.cloudId = some key →
    (d.objects key).isSome = true

/-- One object holds the content, at the name of the file if it is new, and the rest of the drive is
as it was. -/
structure Landed (d₀ d : Drive) (key : ObjectKey) : Prop where
  content : ∃ v, d₀.clock < v ∧ d.objects key = some ⟨file.content, v⟩
  others : ∀ k, k ≠ key → d.objects k = d₀.objects k
  isNew : existing = none → key.drive = cfg.scope.drive ∧ d₀.objects key = none
    ∧ d.names = (d₀.name cfg.scope.drive path.display key).names
  isThere : ∀ known, existing = some known → keyOfCloudId known.cloudId = some key
    ∧ d.names = d₀.names

/-- **Repaired**: one more upload, to which everything is answered, succeeds, and leaves one object
that holds the file, which it names. -/
def Repaired (d₀ : Drive) (known : KnownTags) (d : Drive) : Prop :=
  ∃ key tag, (play (svc.answer file) (GraphSink.upload cfg path existing known) d).1.1
      = .ok ⟨key.toCloudId, tag⟩
    ∧ Landed file cfg path existing d₀
      (play (svc.answer file) (GraphSink.upload cfg path existing known) d).2 key

/-- What has the name is shown to be the file. -/
def Adoptable (d : Drive) : Prop :=
  ∃ key o, d.names cfg.scope.drive path.display = some key ∧ d.objects key = some o
    ∧ Identical (svc.shown key o) path.display file.content

/-- The object is at the version that the tag is of which the process remembers. -/
def Current (old : Known) (known : KnownTags) (d : Drive) : Prop :=
  ∃ key o tag, keyOfCloudId old.cloudId = some key ∧ d.objects key = some o
    ∧ precondition cfg.tags (GraphSink.seed old.cloudId old.tag known) old.cloudId = some tag
    ∧ if file.snap.len > cfg.simpleUploadMax then
        contentTag (svc.shown key o).body cfg.tags
          = (GraphSink.seed old.cloudId old.tag known).lookup old.cloudId
      else svc.accepts tag o.version = true

/-- **What it takes for one more upload to succeed.** -/
def Repairable (known : KnownTags) (d : Drive) : Prop :=
  match existing with
  | none => checkRelativeName path.display = .ok ()
    ∧ (d.names cfg.scope.drive path.display = none
      ∨ file.snap.len ≤ cfg.simpleUploadMax ∧ Adoptable svc file cfg path d)
  | some old => Current svc file cfg old known d

end

end HydrationAPI.Graph
