import HydrationAPI.Client.RenameHalves

/-!
# A watched tree

The file system around the sync root, the watches on its directories, and the queue of events that
they fill. A watch is on a directory and stays on it wherever the directory is moved; an event
tells the watch and the name, and nothing of where the directory was. What a path is, is made up
when the event is read, from the place at which a walk has met the directory.

Names that are not UTF-8 are names like others to the file system, and no path is made of them.
-/

namespace HydrationAPI.Client.Inotify

/-! ## The file system -/

/-- A directory, by the descriptor of a watch on it: an inode has one, and it is not used again. -/
abbrev Dir := ℤ

inductive Name where
  | text (s : String)
  /-- One that is not UTF-8. -/
  | raw (bytes : List UInt8)
  deriving DecidableEq

def Name.toText : Name → Option String
  | text s => some s
  | raw _ => none

def Name.Valid : Name → Bool
  | text s => s ≠ "" ∧ '/' ∉ s.toList
  | raw _ => true

inductive Node where
  | file
  | dir (id : Dir)
  deriving DecidableEq

def Node.isDir : Node → Bool
  | file => false
  | dir _ => true

/-- A name in a directory. -/
structure Link where
  dir : Dir
  name : Name
  node : Node
  deriving DecidableEq

/-- What is inside the sync root and what is outside of it. -/
abbrev Files := List Link

/-- The sync root, on which the first watch is placed. -/
def syncRoot : Dir := 1

def Files.find (fs : Files) (d : Dir) (n : Name) : Option Node :=
  (List.find? (fun e ↦ e.dir = d ∧ e.name = n) fs).map Link.node

/-- The path of a name in a directory. -/
def join (dir name : String) : String := if dir = "" then name else s!"{dir}/{name}"

/-- The directory is inside the sync root, at this path. -/
inductive Placed (fs : Files) : Dir → String → Prop
  | root : Placed fs syncRoot ""
  | sub {d c : Dir} {p s : String} : Placed fs d p → ⟨d, .text s, .dir c⟩ ∈ fs →
      Placed fs c (join p s)

/-- The directory `d` is `c` or below it. -/
def Under (fs : Files) : Dir → Dir → Prop :=
  Relation.ReflTransGen fun c d ↦ ∃ e ∈ fs, e.dir = c ∧ e.node = .dir d

/-- What is done to the file system, whoever does it. -/
inductive Op where
  | create (d : Dir) (n : Name) (node : Node)
  | delete (d : Dir) (n : Name)
  | rename (d : Dir) (n : Name) (d' : Dir) (n' : Name) (cookie : UInt32)
  deriving DecidableEq

/-- No directory, or one with nothing in it. -/
def Files.Empty (fs : Files) : Node → Bool
  | .file => true
  | .dir c => List.all fs fun e ↦ e.dir ≠ c

/-- No directory, or one that there has not been. -/
def Files.New (fs : Files) : Node → Bool
  | .file => true
  | .dir c => c ≠ syncRoot ∧ List.all fs fun e ↦ e.dir ≠ c ∧ e.node ≠ .dir c

namespace Op

/-- A directory is deleted, or replaced, only when it is empty, and is not moved below itself. -/
def Possible (fs : Files) : Op → Prop
  | create d n node => n.Valid ∧ fs.find d n = none ∧ fs.New node
  | delete d n => ∃ node, fs.find d n = some node ∧ fs.Empty node
  | rename d n d' n' _ => ∃ node, fs.find d n = some node ∧ n'.Valid ∧ (d, n) ≠ (d', n')
      ∧ (∀ c, node = .dir c → ¬ Under fs c d')
      ∧ ∀ old ∈ fs.find d' n', old.isDir = node.isDir ∧ fs.Empty old

def apply (fs : Files) : Op → Files
  | create d n node => fs ++ [⟨d, n, node⟩]
  | delete d n => List.filter (fun e ↦ ¬(e.dir = d ∧ e.name = n)) fs
  | rename d n d' n' _ =>
    (List.filter (fun e ↦ ¬(e.dir = d ∧ e.name = n) ∧ ¬(e.dir = d' ∧ e.name = n')) fs)
      ++ ((fs.find d n).map (Link.mk d' n')).toList

/-- The name is deleted, or moved away. -/
def Takes (d : Dir) (n : Name) : Op → Prop
  | create _ _ _ => False
  | delete d' n' => d' = d ∧ n' = n
  | rename d' n' _ _ _ => d' = d ∧ n' = n

end Op

/-- Something of this kind existed at the path, and was deleted or moved away from there. -/
def Removed (past : List (Files × Op)) (path : String) (isDir : Bool) : Prop :=
  ∃ fs o d p s node, (fs, o) ∈ past ∧ Placed fs d p ∧ path = join p s
    ∧ fs.find d (.text s) = some node ∧ node.isDir = isDir ∧ o.Takes d (.text s)

/-! ## Events -/

/-- An event in the queue, and the file system that it was made in. -/
structure Made where
  kind : EventKind
  wd : Dir
  cookie : UInt32
  isDir : Bool
  name : Name
  fs : Files

/-- The event as it is read, with what a walk finds then. -/
def Made.event (m : Made) (walk : List Walked) : Event :=
  ⟨m.kind, m.wd, m.cookie, m.isDir, m.name.toText, walk⟩

/-- What is queued of it: what happens to the names of watched directories. -/
def Op.events (watched : List Dir) (fs : Files) : Op → List Made
  | create d n node =>
    if d ∈ watched then [⟨.create, d, 0, node.isDir, n, fs⟩] else []
  | delete d n =>
    match fs.find d n with
    | some node => if d ∈ watched then [⟨.delete, d, 0, node.isDir, n, fs⟩] else []
    | none => []
  | rename d n d' n' cookie =>
    match fs.find d n with
    | some node =>
      (if d ∈ watched then [⟨.movedFrom, d, cookie, node.isDir, n, fs⟩] else [])
        ++ if d' ∈ watched then [⟨.movedTo, d', cookie, node.isDir, n', fs⟩] else []
    | none => []

/-- The queue is full. -/
def overflow (fs : Files) : Made := ⟨.overflow, -1, 0, false, .raw [], fs⟩

/-- The watch is gone with its directory. -/
def ignored (d : Dir) (fs : Files) : Made := ⟨.ignored, d, 0, false, .raw [], fs⟩

end HydrationAPI.Client.Inotify

namespace HydrationAPI.Client.Removals

/-- What the events come to that have been read of a drain. -/
def readOf (r : Removals) (events : List Event) : Reading := events.foldl Reading.read r.start

/-- `Removals::watch`, of what the walk finds. -/
def watch (walk : List Walked) : Removals := addTree ⟨∅, false, ∅, ∅⟩ walk

end HydrationAPI.Client.Removals

namespace HydrationAPI.Client.Inotify

/-! ## The session -/

/-- What a walk finds it finds where it is; it may miss any of it. -/
def Truthful (fs : Files) (walk : List Walked) : Prop :=
  ∀ w ∈ walk, ∀ d, w.wd = some d → Placed fs d w.rel

/-- The walk that reading an event comes with: below the path of a directory that has come. -/
inductive Walks (fs : Files) (s : Reading) (m : Made) : List Walked → Prop
  | nothing : Walks fs s m []
  | beneath {walk : List Walked} (path : String) : s.removals.locate (m.event walk) = some path →
      m.isDir = true → m.kind = .create ∨ m.kind = .movedTo → Truthful fs walk →
      (∀ w ∈ walk, w.rel = path ∨ (path ++ "/").toList <+: w.rel.toList) → Walks fs s m walk

/-- Where walks have met the directories last. -/
abbrev Places := Dir → Option String

def Places.meet (places : Places) (walk : List Walked) : Places :=
  walk.foldl (fun places w ↦
    match w.wd with
    | some d => Function.update places d (some w.rel)
    | none => places) places

/-- The file system, the kernel's side and the watcher, with what has happened so far and what has
been reported. `draining` are the events that have been read of a drain. -/
structure Session where
  fs : Files
  watched : List Dir
  queue : List Made
  removals : Removals
  draining : Option (List Event)
  met : Places
  past : List (Files × Op)
  reported : List Batch

def Session.start (fs : Files) (walk : List Walked) : Session :=
  ⟨fs, walk.filterMap Walked.wd, [], .watch walk, none, Places.meet (fun _ ↦ none) walk, [], []⟩

/-- What the events come to that have been read of the drain underway. -/
def Session.reading (s : Session) : Reading := s.removals.readOf (s.draining.getD [])

/-- After an operation, with what is queued of it. -/
def Session.does (s : Session) (o : Op) (events : List Made) : Session :=
  { s with fs := o.apply s.fs, queue := s.queue ++ events, past := s.past ++ [(s.fs, o)] }

/-- An operation of any process, or a step of the watcher. What it reads it reads under the
condition `C`. -/
inductive Step (C : Session → Made → Prop) : Session → Session → Prop
  | op {s : Session} (o : Op) : o.Possible s.fs → Step C s (s.does o (o.events s.watched s.fs))
  /-- An operation the events of which find no room. -/
  | dropped {s : Session} (o : Op) : o.Possible s.fs → Step C s (s.does o [overflow s.fs])
  /-- The inode of a deleted directory goes, and its watch with it. -/
  | expire {s : Session} (d : Dir) : d ∈ s.watched → d ≠ syncRoot → (∀ e ∈ s.fs, e.node ≠ .dir d) →
      Step C s { s with
        watched := s.watched.filter (· ≠ d), queue := s.queue ++ [ignored d s.fs] }
  /-- A delta pass has changed the identities of directories. -/
  | recorded {s : Session} (folderRecords : AList fun _ : String ↦ FolderRecord) :
      s.draining = none → Step C s { s with removals := { s.removals with folderRecords } }
  | drain {s : Session} : s.draining = none → Step C s { s with draining := some [] }
  | read {s : Session} (m : Made) (queue : List Made) (events : List Event)
      (walk : List Walked) : s.draining = some events → s.queue = m :: queue →
      Walks s.fs s.reading m walk → C s m →
      Step C s { s with
        queue := queue
        draining := some (events ++ [m.event walk])
        met := s.met.meet walk
        watched := s.watched ++ walk.filterMap Walked.wd }
  /-- The queue is empty. -/
  | finish {s : Session} (events : List Event) (order : HashOrder) :
      s.draining = some events → s.queue = [] →
      Step C s { s with
        removals := (s.removals.take ⟨events, order⟩).1
        draining := none
        reported := s.reported ++ [(s.removals.take ⟨events, order⟩).2] }

/-- The sessions that the watcher gets to. -/
inductive Run (C : Session → Made → Prop) : Session → Prop
  | start (fs : Files) (walk : List Walked) : Truthful fs walk → Run C (.start fs walk)
  | step {s s' : Session} : Run C s → Step C s s' → Run C s'

/-- A removal is read while its directory was met last where the removal was made. -/
def InPlace (s : Session) (m : Made) : Prop :=
  m.kind = .delete ∨ m.kind = .movedFrom → ∀ p, s.met m.wd = some p → Placed m.fs m.wd p

end HydrationAPI.Client.Inotify
