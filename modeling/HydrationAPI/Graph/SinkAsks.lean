import HydrationAPI.Graph.SinkUpload
import HydrationAPI.Lib.Asks

/-!
# What the procedures of the sink ask

Which questions the procedures put that do not write to an object they have been given: those about
the local file, which leave what is remembered as it is, and those of a create and of what follows a
write.
-/

namespace HydrationAPI.Graph

open Errand
open Client (RelPath)

/-- The question is put to the operating system. -/
def Query.IsLocal : Query → Prop
  | .send _ => False
  | _ => True

/-- The request reads the metadata of an object. -/
def Query.IsMetadata : Query → Prop
  | .send (.metadata _) => True
  | _ => False

/-- The question is local, or nothing but a name or the metadata of an object stands in it. -/
def Query.Names : Query → Prop
  | .send (.metadata _) | .send (.pathMetadata ..) | .send (.putPath ..) => True
  | .send _ => False
  | _ => True

theorem Query.IsLocal.names {q : Query} (h : q.IsLocal) : q.Names := by
  cases q with
  | send request => exact h.elim
  | _ => trivial

theorem Query.IsMetadata.names {q : Query} (h : q.IsMetadata) : q.Names := by
  match q with
  | .send (.metadata _) => trivial

namespace GraphSink

variable {C : Query → Prop} {K : KnownTags → Prop} {cfg : SinkConfig} {path : RelPath}
  {request : Request} {drive : DriveId}

/-! ## Requests -/

theorem asks_sendOnce {unreachable : IoError → IoError} (h : C (.send request)) :
    Asks C K (sendOnce request unreachable) := by
  refine asks_bind (asks_ask h) fun answer ↦ ?_
  match answer with
  | .error e => exact asks_throw
  | .ok reply => exact asks_pure

theorem asks_sendAgain {unreachable : IoError → IoError} (h : C (.send request)) (again : ℕ) :
    Asks C K (sendAgain request unreachable again) := by
  induction again with
  | zero => exact asks_sendOnce h
  | succ again ih =>
    refine asks_bind (asks_sendOnce h) fun reply ↦ ?_
    split
    · exact ih
    · exact asks_pure

theorem asks_call (h : C (.send request)) : Asks C K (call request) := asks_sendAgain h _

theorem asks_probe {url : String} (h : C (.send (.probe url))) : Asks C K (probe url) := by
  refine asks_bind (asks_attempt (asks_sendAgain h _)) fun r ↦ ?_
  match r with
  | .error e => exact asks_pure
  | .ok reply =>
    dsimp only
    split
    · exact asks_pure
    · exact asks_pure

theorem asks_decode {α : Type} {body : Except String α} :
    Asks C K (decode body : GraphSink α) := by
  match body with
  | .ok a => exact asks_pure
  | .error e => exact asks_throw

/-! ## The local file -/

theorem asks_idAt : Asks Query.IsLocal K (idAt path) := by
  refine asks_bind (asks_ask trivial) fun attr ↦ ?_
  match attr with
  | .unreadable e => exact asks_throw
  | .absent | .text _ | .binary _ => exact asks_pure

theorem asks_isPlaceholder : Asks Query.IsLocal K (isPlaceholder path) := by
  refine asks_bind (asks_ask trivial) fun mark ↦ ?_
  match mark with
  | .unreadable e => exact asks_throw
  | .absent => exact asks_pure
  | .text _ | .binary _ => exact asks_pure

theorem asks_openFile : Asks Query.IsLocal K (openFile path) :=
  asks_bind (asks_ask trivial) fun _ ↦ asks_lift

theorem asks_snapshot : Asks Query.IsLocal K snapshot :=
  asks_bind (asks_ask trivial) fun _ ↦ asks_lift

theorem asks_readWhole : Asks Query.IsLocal K readWhole :=
  asks_bind (asks_ask trivial) fun _ ↦ asks_lift

theorem asks_readExactAt {offset len : ℕ} : Asks Query.IsLocal K (readExactAt offset len) :=
  asks_bind (asks_ask trivial) fun _ ↦ asks_lift

theorem asks_unchanged {snap : Snapshot} : Asks Query.IsLocal K (unchanged path snap) := by
  refine asks_bind asks_isPlaceholder fun placeholder ↦ ?_
  split
  · exact asks_throw
  · refine asks_bind (asks_bind (asks_ask trivial) fun _ ↦ asks_lift) fun now ↦ ?_
    split
    · exact asks_throw
    · exact asks_pure

theorem asks_judgeFile : Asks Query.IsLocal K (judgeFile path) := by
  refine asks_bind asks_openFile fun _ ↦ asks_bind asks_isPlaceholder fun placeholder ↦ ?_
  split
  · exact asks_throw
  · exact asks_snapshot

theorem asks_destination {key : ObjectKey} {src dst : RelPath} :
    Asks Query.IsLocal K (destination key src dst) := by
  rw [destination]
  split
  · exact asks_pure
  · refine asks_bind asks_idAt fun attr ↦ ?_
    split
    · split
      · exact asks_throw
      · split
        · exact asks_throw
        · exact asks_pure
    · exact asks_throw

/-! ## What follows a write -/

theorem asks_readTag {key : ObjectKey} : Asks Query.IsMetadata K (readTag cfg key) := by
  refine asks_bind (asks_call trivial) fun reply ↦ ?_
  split
  · exact asks_throw
  · exact asks_bind asks_decode fun item ↦ asks_pure

/-- Where the state may be any, so may what is remembered. -/
theorem asks_settle {body : Except String DriveItem} :
    Asks Query.IsMetadata (fun _ ↦ True) (settle cfg drive body) := by
  refine asks_bind asks_decode fun item ↦ ?_
  split
  · exact asks_throw
  · split
    · exact asks_throw
    · dsimp only
      split
      · refine asks_bind asks_pure fun tag ↦ ?_
        split
        · exact asks_bind (asks_modify fun _ _ ↦ trivial) fun _ ↦ asks_pure
        · exact asks_pure
      · refine asks_bind asks_readTag fun tag ↦ ?_
        split
        · exact asks_bind (asks_modify fun _ _ ↦ trivial) fun _ ↦ asks_pure
        · exact asks_pure

theorem asks_settleFolder {body : Except String DriveItem} :
    Asks Query.IsMetadata (fun _ ↦ True) (settleFolder drive body) := by
  refine asks_bind asks_decode fun item ↦ ?_
  split
  · exact asks_throw
  · split
    · exact asks_throw
    · split
      · exact asks_throw
      · dsimp only
        split
        · exact asks_throw
        · exact asks_bind (asks_modify fun _ _ ↦ trivial) fun _ ↦ asks_pure

/-! ## A create as one `PUT` -/

theorem asks_reconcileByContent {rel : String} {sent : Sent} :
    Asks Query.Names (fun _ ↦ True) (reconcileByContent cfg drive rel sent) := by
  refine asks_bind (asks_call trivial) fun reply ↦ ?_
  split
  · exact asks_throw
  · refine asks_bind asks_decode fun item ↦ ?_
    split
    · exact asks_bind (asks_settle.mono fun _ ↦ Query.IsMetadata.names) fun _ ↦ asks_pure
    · exact asks_pure

theorem asks_putAtPath {rel : String} {body : List UInt8} :
    Asks Query.Names (fun _ ↦ True) (putAtPath cfg rel body) := by
  refine asks_bind asks_lift fun _ ↦ asks_bind (asks_call trivial) fun reply ↦ ?_
  split
  · exact asks_settle.mono fun _ ↦ Query.IsMetadata.names
  · split
    · refine asks_bind (asks_attempt asks_reconcileByContent) fun r ↦ ?_
      match r with
      | .ok (some u) => exact asks_pure
      | .ok none => exact asks_throw
      | .error e => exact asks_throw
    · exact asks_throw

end GraphSink

end HydrationAPI.Graph
