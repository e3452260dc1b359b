import HydrationAPI.Helper.Partial
import Mathlib.Data.List.AList

/-!
# Seeing a name go away

The watch on the sync root reports what happens to names, directory by directory. A rename is
reported in two halves that share a cookie, and nothing promises that both are there when the queue
of events is drained: a first half that has no second is kept for one more drain, and only then
taken for a move out of the tree.

Of a file that is moved in nothing is reported, as nothing is of one that is created; what has been
moved out is reported apart from what has been unlinked.
-/

namespace HydrationAPI.Client

/-! ## What is reported -/

/-- A name that went away, and how. -/
structure Gone where
  path : String
  /-- The name was moved, and not to somewhere else inside the sync root. -/
  movedOut : Bool
  deriving DecidableEq, Repr

/-- One object whose name changed while it stayed inside the sync root. -/
structure Renamed where
  src : String
  dst : String
  isDir : Bool
  deriving DecidableEq, Repr

/-- The identity a directory carried before its name disappeared. -/
structure FolderRecord where
  cloudId : String
  etag : Option String
  deriving DecidableEq, Repr

/-- A directory removed or moved out of the sync root. -/
structure FolderGone where
  path : String
  movedOut : Bool
  /-- `none` is never permission to delete by path. -/
  record : Option FolderRecord
  deriving DecidableEq, Repr

/-- Local namespace changes observed in one drain. -/
structure Batch where
  gone : List Gone
  renamed : List Renamed
  /-- Directories newly created or moved into the watched tree. -/
  foldersCreated : List String
  foldersGone : List FolderGone
  deriving DecidableEq, Repr

def Batch.default : Batch := ⟨[], [], [], []⟩

structure MoveHalf where
  path : String
  isDir : Bool
  deriving DecidableEq, Repr

/-- The halves of renames by their cookies. -/
abbrev MoveHalves := AList fun _ : UInt32 ↦ MoveHalf

/-- Watches the sync root for names that go away. -/
structure Removals where
  /-- The directory that each watch is on. -/
  dirs : AList fun _ : ℤ ↦ String
  /-- The kernel dropped events. -/
  lost : Bool
  /-- First halves that ended the previous drain without a destination. -/
  pendingMoves : MoveHalves
  folderRecords : AList fun _ : String ↦ FolderRecord

/-! ## Events -/

inductive EventKind where
  | overflow
  | ignored
  | create
  | movedTo
  | movedFrom
  | delete
  deriving DecidableEq, Repr

/-- What a walk below a new directory finds of one directory: the watch that was placed on it, its
path, and the identity it carries. -/
structure Walked where
  wd : Option ℤ
  rel : String
  record : Option FolderRecord

/-- An event, and what a walk finds below the directory that it is about. -/
structure Event where
  kind : EventKind
  wd : ℤ
  cookie : UInt32
  isDir : Bool
  /-- The name, if it is UTF-8. -/
  name : Option String
  walk : List Walked

namespace Removals

variable (r : Removals)

/-- Keep the identity of a directory, and of no other path with that identity. -/
def rememberFolder (rel cloudId : String) (etag : Option String) : Removals :=
  if rel = "" ∨ cloudId = "" then r
  else
    let kept := r.folderRecords.keys.foldl (fun records path ↦
      match records.lookup path with
      | some record => if path = rel ∨ record.cloudId ≠ cloudId then records else records.erase path
      | none => records) r.folderRecords
    { r with folderRecords := kept.insert rel ⟨cloudId, etag⟩ }

def recordFolder (w : Walked) : Removals :=
  if w.rel = "" then r
  else match w.record with
    | none => { r with folderRecords := r.folderRecords.erase w.rel }
    | some record => r.rememberFolder w.rel record.cloudId record.etag

def addOne (w : Walked) : Removals :=
  match w.wd with
  | some wd => { r with dirs := r.dirs.insert wd w.rel }
  | none => r

def addTree (walk : List Walked) : Removals := walk.foldl (fun r w ↦ (r.addOne w).recordFolder w) r

/-- The record of a directory that is gone. -/
def folderGone (path : String) (movedOut : Bool) : FolderGone × Removals :=
  (⟨path, movedOut, r.folderRecords.lookup path⟩,
    { r with folderRecords := r.folderRecords.erase path })

/-- The path that an event is about, if its directory is known and its name is text. -/
def locate (e : Event) : Option String :=
  match r.dirs.lookup e.wd, e.name.getD "" with
  | none, _ | some _, "" => none
  | some "", name => some name
  | some dir, name => some s!"{dir}/{name}"

end Removals

/-! ## One drain -/

/-- What has been read of a drain. -/
structure Reading where
  removals : Removals
  out : Batch
  movedFrom : MoveHalves
  movedTo : MoveHalves

namespace Reading

variable (s : Reading)

/-- An event about a path. -/
def readAt (e : Event) (path : String) : Reading :=
  match e.kind with
  | .create =>
    if e.isDir then
      { s with
        removals := s.removals.addTree e.walk
        out := { s.out with foldersCreated := s.out.foldersCreated ++ [path] } }
    else s
  | .movedTo =>
    { s with
      movedTo := s.movedTo.insert e.cookie ⟨path, e.isDir⟩
      removals := if e.isDir then s.removals.addTree e.walk else s.removals }
  | .movedFrom => { s with movedFrom := s.movedFrom.insert e.cookie ⟨path, e.isDir⟩ }
  | .delete =>
    if e.isDir then
      let (gone, removals) := s.removals.folderGone path false
      { s with
        removals := removals
        out := { s.out with foldersGone := s.out.foldersGone ++ [gone] } }
    else { s with out := { s.out with gone := s.out.gone ++ [⟨path, false⟩] } }
  | .overflow | .ignored => s

def read (e : Event) : Reading :=
  match e.kind with
  | .overflow => { s with removals := { s.removals with lost := true } }
  | .ignored => { s with removals := { s.removals with dirs := s.removals.dirs.erase e.wd } }
  | _ =>
    match s.removals.locate e with
    | some path => s.readAt e path
    | none => s

end Reading

/-- The order in which a hash map is gone through. -/
structure HashOrder where
  arrange : List (Sigma fun _ : UInt32 ↦ MoveHalf) → List (Sigma fun _ : UInt32 ↦ MoveHalf)
  perm : ∀ l, (arrange l).Perm l

def HashOrder.asListed : HashOrder := ⟨id, List.Perm.refl⟩

/-- What has become of the halves of renames. -/
structure Settled where
  movedOut : List MoveHalf
  movedIn : List MoveHalf
  pending : MoveHalves
  renamed : List Renamed

/-- The halves while the destinations are gone through. -/
structure Pairing where
  previous : MoveHalves
  current : MoveHalves
  renamed : List Renamed
  movedIn : List MoveHalf

/-- Look for the first half of a destination. -/
def Pairing.pair (p : Pairing) (e : Sigma fun _ : UInt32 ↦ MoveHalf) : Pairing :=
  match p.previous.lookup e.1, p.current.lookup e.1 with
  | some src, _ =>
    { p with
      previous := p.previous.erase e.1
      renamed := p.renamed ++ [⟨src.path, e.2.path, src.isDir || e.2.isDir⟩] }
  | none, some src =>
    { p with
      current := p.current.erase e.1
      renamed := p.renamed ++ [⟨src.path, e.2.path, src.isDir || e.2.isDir⟩] }
  | none, none => { p with movedIn := p.movedIn ++ [e.2] }

/-- Pair rename halves without assuming that one drain receives both. -/
def settleMoves (order : HashOrder) (previous current destinations : MoveHalves) (lost : Bool) :
    Settled :=
  if lost then ⟨[], [], ∅, []⟩
  else
    let p := (order.arrange destinations.entries).foldl Pairing.pair ⟨previous, current, [], []⟩
    ⟨(order.arrange p.previous.entries).map Sigma.snd, p.movedIn, p.current, p.renamed⟩

/-- What is in the queue when it is drained. -/
structure Drain where
  events : List Event
  order : HashOrder

namespace Removals

variable (r : Removals) (d : Drain)

/-- The queue is read until it is empty. -/
def reading : Reading :=
  d.events.foldl Reading.read ⟨{ r with lost := false, pendingMoves := ∅ }, .default, ∅, ∅⟩

def settled : Settled :=
  settleMoves d.order r.pendingMoves (r.reading d).movedFrom (r.reading d).movedTo
    (r.reading d).removals.lost

/-- The directories that an overflow leaves unreported keep their identities. -/
def restore (gone : List FolderGone) : Removals :=
  gone.foldl (fun r folder ↦
    match folder.record with
    | some record => r.rememberFolder folder.path record.cloudId record.etag
    | none => r) r

/-- Report what was moved out of the tree. -/
def reportMovedOut (r : Removals) (out : Batch) : List MoveHalf → Removals × Batch
  | [] => (r, out)
  | item :: items =>
    if item.isDir then
      let (gone, r) := r.folderGone item.path true
      r.reportMovedOut { out with foldersGone := out.foldersGone ++ [gone] } items
    else r.reportMovedOut { out with gone := out.gone ++ [⟨item.path, true⟩] } items

/-- A directory that was renamed takes its identity along. -/
def moveRecords (renamed : List Renamed) : Removals :=
  renamed.foldl (fun r item ↦
    if item.isDir then
      match r.folderRecords.lookup item.src with
      | some record =>
        { r with folderRecords := r.folderRecords.erase item.src }.rememberFolder item.dst
          record.cloudId record.etag
      | none => r
    else r) r

/-- Everything that went away since the last call. -/
def take : Removals × Batch :=
  let s := r.reading d
  let settled := r.settled d
  if s.removals.lost then (s.removals.restore s.out.foldersGone, .default)
  else
    let (r, out) :=
      { s.removals with pendingMoves := settled.pending }.reportMovedOut s.out settled.movedOut
    (r.moveRecords settled.renamed,
      { out with
        foldersCreated := out.foldersCreated ++ (settled.movedIn.filter (·.isDir)).map (·.path)
        renamed := settled.renamed })

end Removals

end HydrationAPI.Client
