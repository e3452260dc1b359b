import HydrationAPI.Client.SyncDir
import HydrationAPI.Client.Upload
import HydrationAPI.Graph.Item
import HydrationAPI.Lib.Dialogue
import HydrationAPI.Protocol.Errors

/-!
# The sink

What is sent to the service, what it answers, and how often a request is sent again. The sink is a
program that asks: it puts requests to the service, which others use at the same time, and questions
to the local directory, which others change.
-/

namespace HydrationAPI.Graph

open Client (Attr RelPath)

/-! ## Requests and replies -/

/-- What is sent to the service. -/
inductive Request where
  | metadata (key : ObjectKey)
  | pathMetadata (drive : DriveId) (rel : String)
  /-- One child at most is asked for. -/
  | children (key : ObjectKey)
  | delete (key : ObjectKey) (ifMatch : Option String)
  | putItem (key : ObjectKey) (ifMatch : String) (body : List UInt8)
  /-- With the conflict behaviour `fail`. -/
  | putPath (drive : DriveId) (rel : String) (body : List UInt8)
  | patch (key : ObjectKey) (ifMatch : String) (name : String) (parent : Option ItemId)
  /-- With the conflict behaviour `replace`. -/
  | itemSession (key : ObjectKey)
  /-- With the conflict behaviour `fail`. -/
  | pathSession (drive : DriveId) (rel : String)
  | fragment (url : String) (offset stop total : ℕ) (bytes : List UInt8)
  | probe (url : String)
  | cancel (url : String)
  deriving DecidableEq

structure SessionBody where
  uploadUrl : Option String
  nextExpectedRanges : Option (List String)
  deriving DecidableEq, Repr

/-- What the service answers: the status, and the body under every reading of it. -/
structure Reply where
  status : ℕ
  item : Except String DriveItem
  session : Except String SessionBody
  /-- How many there are under `value`, if there is an array. -/
  children : Except String (Option ℕ)
  /-- The service's own error code. -/
  code : Option String

/-- The inode a transfer describes, with the head of its content. -/
structure Snapshot where
  dev : ℕ
  ino : ℕ
  len : ℕ
  mtime : Option ℕ
  head : List UInt8
  deriving DecidableEq, Repr

/-- What is asked, of the service and of the local directory. -/
inductive Query where
  | send (request : Request)
  /-- An extended attribute: the cloud id, or the mark of a placeholder. -/
  | idAt (path : RelPath)
  | markAt (path : RelPath)
  | isDir (path : RelPath)
  | open' (path : RelPath)
  /-- The file that has been opened, as it is now. -/
  | opened
  /-- The file at the path, as it is now; of its head, as many bytes as `head`. -/
  | current (path : RelPath) (head : ℕ)
  | readWhole
  | readExactAt (offset len : ℕ)

@[reducible] def Query.Answer : Query → Type
  | send _ => Except IoError Reply
  | idAt _ | markAt _ => Attr
  | isDir _ => Bool
  | open' _ => Except IoError Unit
  | opened | current .. => Except IoError Snapshot
  | readWhole | readExactAt .. => Except IoError (List UInt8)

/-- The tags that have been remembered, by cloud id. -/
abbrev KnownTags := AList fun _ : String ↦ String

abbrev GraphSink := Errand Query Query.Answer KnownTags IoError

/-- What is the same for every call of the sink. -/
structure SinkConfig where
  scope : DriveScope
  tags : TagSource
  simpleUploadMax : ℕ
  fragmentBytes : ℕ

/-! ## Errors -/

def refused (what : String) : IoError := ⟨.invalidInput, none, what⟩

def errorOther (what : String) : IoError := ⟨.other, none, what⟩

/-- A refusal, named by the service's own error code. -/
def serviceRefused (what : String) (reply : Reply) : IoError :=
  let code := reply.code.getD ""
  errorOther s!"{what}: the service answered {reply.status} {code}"

def sessionFailed (what : String) : IoError := errorOther s!"the upload session {what}"

def noPrecondition : IoError :=
  refused ("this drive offers no value the service accepts as a precondition, so the "
    ++ "update is refused rather than written blind")

/-! ## The retry policies -/

def maxWriteAttempts : ℕ := 4

/-- Throttling, or a failure of the service that may pass. -/
def Reply.transient (reply : Reply) : Bool :=
  reply.status = 429 || (500 ≤ reply.status && reply.status < 600)

def Reply.success (reply : Reply) : Bool := 200 ≤ reply.status && reply.status < 300

namespace GraphSink

def sendOnce (request : Request) (unreachable : IoError → IoError) : GraphSink Reply := do
  let answer : Except IoError Reply ← Errand.ask (Query.send request)
  match answer with
  | .error e => Errand.throw (unreachable e)
  | .ok reply => pure reply

/-- A request, and the same request up to `again` times more. -/
def sendAgain (request : Request) (unreachable : IoError → IoError) : ℕ → GraphSink Reply
  | 0 => sendOnce request unreachable
  | again + 1 => do
    let reply ← sendOnce request unreachable
    if reply.transient then sendAgain request unreachable again else pure reply

/-- One request. -/
def call (request : Request) : GraphSink Reply := sendAgain request id (maxWriteAttempts - 1)

/-- One request to a URL that a reply has named, of which no error may speak. -/
def callSession (request : Request) : GraphSink Reply :=
  sendAgain request (fun _ ↦ sessionFailed "could not be reached") (maxWriteAttempts - 1)

section

open Errand Dialogue

variable {W : Type} {E : Env Query Query.Answer W} {I P : W → Prop} {request : Request}
  {unreachable : IoError → IoError} {s : KnownTags} {w : W}
  {post : Except IoError Reply → KnownTags → W → Prop}

theorem meets_sendOnce (hlasts : Lasting E I post) (hstable : Stable E P) (hw : P w)
    (hinv : ∀ w, P w → I w)
    (hpost : ∀ w (a : Except IoError Reply) w', P w → E.answers (.send request) w a w' →
      post (a.mapError unreachable) s w') :
    Meets E I post (sendOnce request unreachable) s w := by
  refine meets_ask hstable hw hinv fun v a v' hv ha ↦ ?_
  have h := hpost v a v' hv ha
  match a with
  | .error e => exact meets_throw hlasts h
  | .ok reply => exact meets_pure hlasts h

/-- **A request that may be sent again**: what is known of the world must be left by every answer
after which it is, and whatever the last answer is must do. -/
theorem meets_sendAgain (hlasts : Lasting E I post) (hstable : Stable E P)
    (hinv : ∀ w, P w → I w)
    (hagain : ∀ w (reply : Reply) w', P w → E.answers (.send request) w (.ok reply) w' →
      reply.transient = true → P w')
    (hpost : ∀ w (a : Except IoError Reply) w', P w → E.answers (.send request) w a w' →
      post (a.mapError unreachable) s w') (again : ℕ) (hw : P w) :
    Meets E I post (sendAgain request unreachable again) s w := by
  induction again generalizing w with
  | zero => exact meets_sendOnce hlasts hstable hw hinv hpost
  | succ again ih =>
    refine meets_ask hstable hw hinv fun v a v' hv ha ↦ ?_
    have h := hpost v a v' hv ha
    match a with
    | .error e => exact meets_throw hlasts h
    | .ok reply =>
      have hrest : Meets E I post
          (if reply.transient then sendAgain request unreachable again else pure reply) s v' := by
        by_cases htransient : reply.transient = true
        · rw [if_pos htransient]
          exact ih (hagain v reply v' hv ha htransient)
        · rw [if_neg htransient]
          exact meets_pure hlasts h
      exact hrest

end

def decode {α : Type} (body : Except String α) : GraphSink α :=
  match body with
  | .ok a => pure a
  | .error e => Errand.throw (invalidData e)

/-- `get_xattr` of the cloud id. -/
def idAt (path : RelPath) : GraphSink Attr := do
  let attr : Attr ← Errand.ask (Query.idAt path)
  match attr with
  | .unreadable e => Errand.throw (errorOther e)
  | attr => pure attr

/-! ## Removing a folder -/

def removeFolder (existing : Client.Upload.Known) : GraphSink Unit := do
  match keyOfCloudId existing.cloudId with
  | none =>
    Errand.throw (refused
      "the folder cloud id names no drive and no item, so nothing was removed")
  | some key =>
    let rootId ← idAt []
    if rootId = .text existing.cloudId then
      Errand.throw (refused "the sync root can never be removed")
    else match (existing.tag.bind (Text.stripPrefix "et:")).filter (· ≠ "") with
    | none =>
      Errand.throw (refused
        "the folder has no recorded metadata eTag; a recursive delete was refused")
    | some _ =>
      let children ← call (.children key)
      if children.status = 404 then pure ()
      else if ¬ children.success then
        Errand.throw (serviceRefused "the folder's children could not be checked" children)
      else match ← decode children.children with
      | none =>
        Errand.throw (invalidData
          "the service did not return a children collection; the folder was not deleted")
      | some (_ + 1) =>
        Errand.throw (refused "the cloud folder is not empty; recursive deletion was refused")
      | some 0 =>
        let metadata ← call (.metadata key)
        if metadata.status = 404 then pure ()
        else if ¬ metadata.success then
          Errand.throw (serviceRefused "the empty folder's metadata could not be checked" metadata)
        else
          let item ← decode metadata.item
          if item.id ≠ some key.item.raw ∨ shapeOf item ≠ .folder then
            Errand.throw (refused
              "the object checked before deletion is no longer the expected folder")
          else match item.eTag.filter (· ≠ "") with
          | none =>
            Errand.throw (refused
              "the empty folder has no current metadata eTag; deletion was refused")
          | some currentTag =>
            let reply ← call (.delete key (some currentTag))
            if reply.success ∨ reply.status = 404 then pure ()
            else Errand.throw (serviceRefused "the empty folder was not removed" reply)

end GraphSink

end HydrationAPI.Graph
