import HydrationAPI.Graph.SinkUpload
import Mathlib.Logic.Function.Basic

/-!
# A drive that others write to

The versions of all objects are numbered in the order in which they are committed, and every version
has tags that no other has. Of every object it is on record which version this machine last put in
the local directory, and which it last wrote. What an upload is bound to is a tag: it is accepted
only if it is one of the version that is there then.

A write through a session is bound to nothing when it is committed.
-/

namespace HydrationAPI.Graph

open Dialogue

/-- The tags of every version, none of which the service gives twice. -/
structure Versions where
  tags : ℕ → List String
  distinct : ∀ v v' t, t ∈ tags v → t ∈ tags v' → v = v'

/-- What a session writes to. -/
inductive SessionTarget where
  | item (key : ObjectKey)
  | path (drive : DriveId)
  deriving DecidableEq

/-- The drive, what this machine has recorded, and what has happened to the objects. -/
structure SharedDrive where
  /-- The version of every object there is. -/
  version : ObjectKey → Option ℕ
  /-- How many writes have been committed. -/
  clock : ℕ
  /-- The sessions that are open, and whether the fragment that completes the file has been sent. -/
  sessions : String → Option (SessionTarget × Bool)
  /-- The tag that is recorded on the file of a cloud id. -/
  attr : String → Option String
  /-- The version this machine last put in the local directory. -/
  placed : ObjectKey → Option ℕ
  /-- The version this machine last wrote, or found to be what it was writing. -/
  wrote : ObjectKey → Option ℕ
  /-- Another device has written since this machine last heard of the object. -/
  news : ObjectKey → Bool
  /-- The object of a write whose tag is still to be read back. -/
  owed : Option ObjectKey
  /-- The content this machine last tried to create an object with. -/
  offered : Option (List UInt8)
  /-- A version has been overwritten that this machine had neither placed nor written. -/
  blind : Prop
  committed : ∀ key v, version key = some v → v ≤ clock
  written : ∀ key v, wrote key = some v → v ≤ clock

namespace SharedDrive

variable (w : SharedDrive)

/-- The version is the one this machine last placed, or last wrote. -/
def Own (key : ObjectKey) (v : ℕ) : Prop := w.placed key = some v ∨ w.wrote key = some v

/-- A table of versions with a new one in it. -/
theorem le_of_update {versions : ObjectKey → Option ℕ} {clock : ℕ}
    (h : ∀ key v, versions key = some v → v ≤ clock) (key : ObjectKey) (k : ObjectKey) (v : ℕ)
    (hv : Function.update versions key (some (clock + 1)) k = some v) : v ≤ clock + 1 := by
  by_cases hk : k = key
  · subst hk
    rw [Function.update_self] at hv
    exact (Option.some_inj.mp hv).symm.le
  · rw [Function.update_of_ne hk] at hv
    exact (h k v hv).trans (Nat.le_succ clock)

theorem le_of_erase {versions : ObjectKey → Option ℕ} {clock : ℕ}
    (h : ∀ key v, versions key = some v → v ≤ clock) (key : ObjectKey) (k : ObjectKey) (v : ℕ)
    (hv : Function.update versions key none k = some v) : v ≤ clock := by
  by_cases hk : k = key
  · subst hk
    rw [Function.update_self] at hv
    exact absurd hv.symm (Option.some_ne_none v)
  · rw [Function.update_of_ne hk] at hv
    exact h k v hv

/-- Another device writes. -/
def foreign (key : ObjectKey) : SharedDrive :=
  { w with
    version := Function.update w.version key (some (w.clock + 1))
    clock := w.clock + 1
    news := Function.update w.news key true
    committed := le_of_update w.committed key
    written := fun k v h ↦ (w.written k v h).trans (Nat.le_succ _) }

/-- The object is deleted. -/
def delete (key : ObjectKey) : SharedDrive :=
  { w with
    version := Function.update w.version key none
    committed := le_of_erase w.committed key }

/-- This machine puts a version in the local directory, and records its tag. -/
def place (key : ObjectKey) (v : ℕ) (tag : String) : SharedDrive :=
  { w with
    placed := Function.update w.placed key (some v)
    attr := Function.update w.attr key.toCloudId (some tag) }

def setAttr (cloudId : String) (tag : Option String) : SharedDrive :=
  { w with attr := Function.update w.attr cloudId tag }

/-- A write of this machine to `key` is committed; the object has the key `key'` from then on. -/
def commit (key key' : ObjectKey) : SharedDrive :=
  { w with
    version := Function.update (Function.update w.version key none) key' (some (w.clock + 1))
    clock := w.clock + 1
    wrote := Function.update w.wrote key' (some (w.clock + 1))
    news := Function.update w.news key' false
    blind := w.blind ∨ ∃ v, w.version key = some v ∧ ¬ w.Own key v
    committed := le_of_update (le_of_erase w.committed key) key'
    written := le_of_update w.written key' }

/-- The version that is there counts as written by this machine. -/
def keep (key : ObjectKey) : SharedDrive :=
  { w with
    wrote := Function.update w.wrote key (w.version key)
    news := Function.update w.news key false
    written := fun k v h ↦ by
      by_cases hk : k = key
      · subst hk
        rw [Function.update_self] at h
        exact w.committed k v h
      · rw [Function.update_of_ne hk] at h
        exact w.written k v h }

/-- This machine is told of the version that is there. -/
def read (key : ObjectKey) : SharedDrive :=
  { w with news := Function.update w.news key false, owed := none }

def owing (key : Option ObjectKey) : SharedDrive := { w with owed := key }

def offer (body : List UInt8) : SharedDrive := { w with offered := some body }

def setSession (url : String) (session : Option (SessionTarget × Bool)) : SharedDrive :=
  { w with sessions := Function.update w.sessions url session }

section

variable (key key' : ObjectKey) (v : ℕ) (tag : String)

@[simp] theorem foreign_version :
    (w.foreign key).version = Function.update w.version key (some (w.clock + 1)) := rfl

@[simp] theorem foreign_news : (w.foreign key).news = Function.update w.news key true := rfl

@[simp] theorem delete_version : (w.delete key).version = Function.update w.version key none := rfl

@[simp] theorem place_placed :
    (w.place key v tag).placed = Function.update w.placed key (some v) := rfl

@[simp] theorem place_wrote : (w.place key v tag).wrote = w.wrote := rfl

@[simp] theorem place_attr :
    (w.place key v tag).attr = Function.update w.attr key.toCloudId (some tag) := rfl

@[simp] theorem setAttr_attr (cloudId : String) (tag : Option String) :
    (w.setAttr cloudId tag).attr = Function.update w.attr cloudId tag := rfl

@[simp] theorem commit_version : (w.commit key key').version
    = Function.update (Function.update w.version key none) key' (some (w.clock + 1)) := rfl

@[simp] theorem commit_placed : (w.commit key key').placed = w.placed := rfl

@[simp] theorem commit_wrote :
    (w.commit key key').wrote = Function.update w.wrote key' (some (w.clock + 1)) := rfl

@[simp] theorem keep_version : (w.keep key).version = w.version := rfl

@[simp] theorem keep_placed : (w.keep key).placed = w.placed := rfl

@[simp] theorem keep_wrote :
    (w.keep key).wrote = Function.update w.wrote key (w.version key) := rfl

@[simp] theorem setSession_sessions (url : String) (session : Option (SessionTarget × Bool)) :
    (w.setSession url session).sessions = Function.update w.sessions url session := rfl

end

end SharedDrive

/-! ## What others do -/

/-- A tag of the framework has a tag of the service in it. -/
def Carried (tag raw : String) : Prop :=
  Text.stripPrefix "et:" tag = some raw ∨ Text.stripPrefix "ct:" tag = some raw

/-- Other devices write and delete; this machine places versions, in the order in which they were
committed, and a file loses what is recorded on it. -/
inductive Elsewhere (V : Versions) (w : SharedDrive) : SharedDrive → Prop
  | foreign (key : ObjectKey) : Elsewhere V w (w.foreign key)
  | deleted (key : ObjectKey) : Elsewhere V w (w.delete key)
  | placed (key : ObjectKey) (v : ℕ) (tag : String) : v ≤ w.clock →
      (∀ v', w.placed key = some v' → v' ≤ v) → (∀ v', w.version key = some v' → v ≤ v') →
      (∀ raw, Carried tag raw → raw ∈ V.tags v) → Elsewhere V w (w.place key v tag)
  | forgotten (cloudId : String) : Elsewhere V w (w.setAttr cloudId none)

/-! ## What the service answers -/

/-- What is said of an object is said of the version. -/
def Describes (V : Versions) (item : DriveItem) (v : ℕ) : Prop :=
  (∀ t, item.eTag = some t → t ∈ V.tags v) ∧ ∀ t, item.body.cTag = some t → t ∈ V.tags v

/-- The item is the object. -/
def NamesKey (drive : DriveId) (item : DriveItem) (key : ObjectKey) : Prop :=
  ∀ raw id, item.id = some raw → Id.parse raw = .ok id → (⟨drive, id⟩ : ObjectKey) = key

/-- The answer says nothing of an object. -/
def Silent (accepts : Reply → Bool) (a : Except IoError Reply) : Prop :=
  ∀ reply item, a = .ok reply → reply.item = .ok item → accepts reply = false

/-- A write has been committed, and the answer says so, with the tag or without, or does not. -/
def Told (V : Versions) (tags : TagSource) (accepts : Reply → Bool) (drive : DriveId)
    (key : ObjectKey) (a : Except IoError Reply) (w w' : SharedDrive) : Prop :=
  Silent accepts a ∧ w' = w.owing none
    ∨ ∃ reply item v, a = .ok reply ∧ accepts reply = true ∧ reply.item = .ok item
      ∧ w.version key = some v ∧ Describes V item v ∧ NamesKey drive item key
      ∧ w' = w.owing (if contentTag item.body tags = none then some key else none)

/-- Only a `200` or a `201` is a commit. -/
def Reply.commits (reply : Reply) : Bool := reply.status = 200 || reply.status = 201

/-- The item is what this machine last tried to create an object with. -/
def Matches (w : SharedDrive) (rel : String) (item : DriveItem) : Prop :=
  ∃ body, w.offered = some body
    ∧ GraphSink.isSent item rel ⟨body.length, quickxorOf body⟩ = true

/-- A fragment is answered: the session goes on, or the write is committed. -/
def FragmentAnswers (V : Versions) (tags : TagSource) (url : String) (last : Bool)
    (w : SharedDrive) (a : Except IoError Reply) (w' : SharedDrive) : Prop :=
  match w.sessions url with
  | none => (∀ reply, a = .ok reply → reply.commits = false) ∧ w' = w.owing none
  | some (target, tail) =>
    ((∀ reply, a = .ok reply → reply.commits = false)
        ∧ w' = (w.setSession url (some (target, tail || last))).owing none)
      ∨ (tail || last) = true ∧ match target with
        | .item key => ∃ v key', w.version key = some v ∧ (key' = key ∨ w.version key' = none)
            ∧ key'.drive = key.drive
            ∧ Told V tags Reply.commits key.drive key' a ((w.commit key key').setSession url none) w'
        | .path drive => ∃ key, w.version key = none ∧ key.drive = drive
            ∧ Told V tags Reply.commits drive key a ((w.commit key key).setSession url none) w'

/-- What may be answered, and what becomes of the drive. Whether a write was committed does not
depend on whether the answer says so. -/
def DriveAnswers (V : Versions) (tags : TagSource) :
    (q : Query) → SharedDrive → q.Answer → SharedDrive → Prop
  | .send (.metadata key), w, a, w' =>
    Silent Reply.success a ∧ w' = w
      ∨ ∃ reply item v, a = .ok reply ∧ reply.success = true ∧ reply.item = .ok item
        ∧ w.version key = some v ∧ Describes V item v ∧ w' = w.read key
  | .send (.pathMetadata drive rel), w, a, w' =>
    Silent Reply.success a ∧ w' = w.owing none
      ∨ ∃ reply item key v, a = .ok reply ∧ reply.success = true ∧ reply.item = .ok item
        ∧ w.version key = some v ∧ Describes V item v ∧ NamesKey drive item key
        ∧ (Matches w rel item
            ∧ w' = (w.keep key).owing (if contentTag item.body tags = none then some key else none)
          ∨ ¬ Matches w rel item ∧ w' = w.owing none)
  | .send (.putItem key ifMatch _), w, a, w' =>
    (∀ reply, a = .ok reply → reply.success = false) ∧ w' = w.owing none
      ∨ ∃ v key', w.version key = some v ∧ ifMatch ∈ V.tags v
        ∧ (key' = key ∨ w.version key' = none) ∧ key'.drive = key.drive
        ∧ Told V tags Reply.success key.drive key' a (w.commit key key') w'
  | .send (.patch key ifMatch _ _), w, a, w' =>
    (∀ reply, a = .ok reply → reply.success = false) ∧ w' = w.owing none
      ∨ ∃ v, w.version key = some v ∧ ifMatch ∈ V.tags v
        ∧ (Told V tags Reply.success key.drive key a (w.keep key) w'
          ∨ Told V tags Reply.success key.drive key a (w.commit key key) w')
  | .send (.putPath drive _ body), w, a, w' =>
    (∀ reply, a = .ok reply → reply.success = false) ∧ w' = (w.offer body).owing none
      ∨ ∃ key, w.version key = none ∧ key.drive = drive
        ∧ Told V tags Reply.success drive key a ((w.offer body).commit key key) w'
  | .send (.itemSession key), w, a, w' => SessionAnswers (.item key) w a w'
  | .send (.pathSession drive _), w, a, w' => SessionAnswers (.path drive) w a w'
  | .send (.fragment url _ stop total _), w, a, w' =>
    FragmentAnswers V tags url (stop + 1 = total) w a w'
  | .send (.cancel url), w, _, w' => w' = (w.setSession url none).owing none
  | .send (.probe _), w, _, w' | .send (.children _), w, _, w' => w' = w.owing none
  | .send (.delete key _), w, _, w' => w' = w.owing none ∨ w' = (w.delete key).owing none
  | _, w, _, w' => w' = w
where
  /-- A session that is opened is a new one. -/
  SessionAnswers (target : SessionTarget) (w : SharedDrive) (a : Except IoError Reply)
      (w' : SharedDrive) : Prop :=
    (∀ reply session, a = .ok reply → reply.success = true → reply.session = .ok session →
        session.uploadUrl = none) ∧ w' = w.owing none
      ∨ ∃ reply session url, a = .ok reply ∧ reply.session = .ok session
        ∧ session.uploadUrl = some url ∧ w.sessions url = none
        ∧ w' = (w.setSession url (some (target, false))).owing none

def driveEnv (V : Versions) (tags : TagSource) : Env Query Query.Answer SharedDrive :=
  ⟨DriveAnswers V tags, Elsewhere V⟩

/-- No other device's write comes between a write of this machine and the read of its tag, or
between the last read of an object and the commit of a session that writes to it. -/
def Timely : (q : Query) → SharedDrive → q.Answer → SharedDrive → Prop
  | .send (.metadata key), w, _, _ => w.owed = some key → w.news key = false
  | .send (.fragment url ..), w, _, w' => ∀ key tail, w.sessions url = some (.item key, tail) →
      w.clock < w'.clock → w.news key = false
  | _, _, _, _ => True

end HydrationAPI.Graph
