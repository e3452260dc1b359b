import HydrationAPI.Client.Change
import HydrationAPI.Client.Store

/-!
# Bringing changes down from the cloud

One pass over a batch of changes. Two maps are made before the first change is applied: the file of
every cloud id and the folder of every cloud id; and the changes are then applied one after another,
at most one of each kind to an object. A file that is at another path than the change says is moved
there, a folder takes along all that lies below it, and where there is nothing, or something that
may be replaced, a placeholder is put.

What the operating system answers to a call that can fail is a parameter, by the number of the
change at hand.
-/

namespace HydrationAPI.Client.Delta

/-! ## What a pass reports -/

/-- Why a change was not applied. -/
inductive Why where
  | editWaiting
  | neverUploaded
  | changedUnderneath
  deriving DecidableEq, Repr

/-- A change that was refused, and which of the rules refused it. -/
structure Kept where
  path : String
  why : Why
  deriving DecidableEq, Repr

/-- What stopped a change from being applied. -/
inductive Failure where
  | pathRefused
  | tooLarge (size : ℕ)
  | destinationOccupied
  | rename (error : String)
  | place (error : String)
  | remove (error : String)
  deriving DecidableEq, Repr

structure Failed where
  path : String
  why : Failure
  deriving DecidableEq, Repr

/-- Why a pass ended before it ran out of changes. -/
inductive Stopped where
  | mountChanged
  | mountUnverifiable (error : String)
  deriving DecidableEq, Repr

/-- What a delta pass did. -/
structure Applied where
  created : ℕ
  updated : ℕ
  removed : ℕ
  moved : ℕ
  ignored : ℕ
  keptLocal : List Kept
  failed : List Failed
  retryable : Bool
  stopped : Option Stopped
  deriving DecidableEq, Repr

/-- `Applied::default`. -/
def Applied.default : Applied := ⟨0, 0, 0, 0, 0, [], [], false, none⟩

/-! ## The calls that can fail -/

/-- What the operating system answers at the change of a number, where that is not for the directory
to say. -/
structure Os where
  /-- `root_still_current`. -/
  current : ℕ → Except String Bool
  mkdir : ℕ → RelPath → Except String Stat
  rename : ℕ → Option String
  /-- The inode of a placeholder, and whether it could be stamped. -/
  place : ℕ → Except String (Stat × Bool)
  remove : ℕ → Option String
  rmdir : ℕ → Option String
  setId : ℕ → Option String
  /-- For writing and for removing a tag. -/
  setEtag : ℕ → Option String
  removeId : ℕ → Option String

/-- A directory that was just made. -/
def newDir (st : Stat) : Inode := ⟨st, true, .absent, .absent, .absent, .absent, false⟩

/-- Make the directories of `rest` below `done`, which is one. -/
def makeDirs (mkdir : RelPath → Except String Stat) (d : Disk) :
    RelPath → RelPath → Disk × Option String
  | _, [] => (d, none)
  | done, name :: rest =>
    let p := done ++ [name]
    match d.get p with
    | some i =>
      if i.isDir then makeDirs mkdir d p rest else (d, some "Not a directory (os error 20)")
    | none =>
      match mkdir p with
      | .error e => (d, some e)
      | .ok st => makeDirs mkdir (d.set p (newDir st)) p rest

/-- `create_dir_all`. -/
def createDirAll (mkdir : RelPath → Except String Stat) (d : Disk) (p : RelPath) :
    Disk × Option String := makeDirs mkdir d [] p

/-- `rename`, to a name that nothing has. -/
def rename (fault : Option String) (d : Disk) (src dst : RelPath) : Except String Disk :=
  match fault with
  | some e => .error e
  | none =>
    if src <+: dst then .error "Invalid argument (os error 22)"
    else if d.isDirAt dst.dropLast then .ok (d.move src dst)
    else .error "No such file or directory (os error 2)"

/-- A complete placeholder. -/
def placeholder (st : Stat) (stamped : Bool) (size : ℕ) (cloudId : String) (etag : Option String) :
    Inode :=
  let st := { st with size := size }
  { stat := st, isDir := false, id := .text cloudId
    etag := match etag with
      | some e => .text e
      | none => .absent
    stamp := if stamped then .text st.stamp else .absent
    dehydrated := .text "1", holdsData := false }

/-- `TmpfilePlacer::place`. -/
def place (os : Os) (n : ℕ) (d : Disk) (p : RelPath) (size : ℕ) (cloudId : String)
    (etag : Option String) : Disk × Option String :=
  match createDirAll (os.mkdir n) d p.dropLast with
  | (d, some e) => (d, some e)
  | (d, none) =>
    match os.place n with
    | .error e => (d, some e)
    | .ok (st, stamped) =>
      if d.isDirAt p then (d, some "Is a directory (os error 21)")
      else (d.set p (placeholder st stamped size cloudId etag), none)

/-- `TmpfilePlacer::remove`, of a path something is at. -/
def remove (os : Os) (n : ℕ) (d : Disk) (p : RelPath) : Disk × Option String :=
  if d.isDirAt p then (d, some "Is a directory (os error 21)")
  else match os.remove n with
    | some e => (d, some e)
    | none => (d.erase p, none)

/-! ## A pass -/

/-- A call of the materialiser, with the directory as it is then. -/
inductive Call where
  | place (path : RelPath) (cloudId : String) (disk : Disk)
  | remove (path : RelPath) (cloudId : String) (disk : Disk)

/-- A pass, as far as it has come. -/
structure Pass where
  disk : Disk
  /-- Cloud id to local file. -/
  files : AList fun _ : String ↦ StoreEntry
  /-- Cloud id to local folder. -/
  folders : AList fun _ : String ↦ RelPath
  store : Store
  out : Applied
  calls : List Call

/-- What is the same for every change of a pass. -/
structure Ctx where
  os : Os
  ignore : IgnoreSet
  ignoredFolders : List String
  waiting : List FileId

/-- How a pass goes on. -/
inductive Flow where
  | next
  | stop
  | error (e : String)
  deriving DecidableEq, Repr

namespace Pass

variable (s : Pass)

def fail (path : String) (why : Failure) (retryable : Bool) : Pass :=
  { s with
    out := { s.out with
      failed := s.out.failed ++ [⟨path, why⟩]
      retryable := s.out.retryable || retryable } }

def keep (path : String) (why : Why) : Pass :=
  { s with out := { s.out with keptLocal := s.out.keptLocal ++ [⟨path, why⟩] } }

def ignored : Pass := { s with out := { s.out with ignored := s.out.ignored + 1 } }

end Pass

/-- Whether the local file already is what the change describes. -/
def isCurrent (i : Inode) (cloudId : String) (etag : Option String) (size : ℕ) : Bool :=
  i.id = .text cloudId && i.stat.size = size && match etag with
    | none => true
    | some remote => i.etag = .text remote

/-- One change per object and kind, last occurrence winning, order otherwise preserved. -/
def coalesce (changes : List Change) : List Change := Change.lastOnes changes

/-! ### Folders -/

/-- Follow a folder to its new path. -/
def moveFolder (ctx : Ctx) (n : ℕ) (s : Pass) (cloudId path : String) (abs : RelPath) :
    Except (Pass × Flow) Pass :=
  match s.folders.lookup cloudId with
  | none => .ok s
  | some existing =>
    if existing ≠ abs ∧ s.disk.exists' existing then
      if s.disk.exists' abs then .error (s.fail path .destinationOccupied true, .next)
      else match createDirAll (ctx.os.mkdir n) s.disk abs.dropLast with
        | (d, some e) => .error ({ s with disk := d }, .error e)
        | (d, none) =>
          match rename (ctx.os.rename n) d existing abs with
          | .error e => .error ({ s with disk := d }.fail path (.rename e) true, .next)
          | .ok d => .ok { s with disk := d, out := { s.out with moved := s.out.moved + 1 } }
    else .ok s

/-- See to it that there is a directory. -/
def makeFolder (ctx : Ctx) (n : ℕ) (s : Pass) (path : String) (abs : RelPath) :
    Except (Pass × Flow) Pass :=
  match s.disk.get abs with
  | some i => if i.isDir then .ok s else .error (s.fail path .destinationOccupied true, .next)
  | none =>
    match createDirAll (ctx.os.mkdir n) s.disk abs with
    | (d, some e) => .error ({ s with disk := d }.fail path (.place e) true, .next)
    | (d, none) =>
      .ok { s with disk := d, out := { s.out with created := s.out.created + 1 } }

/-- The tag that is recorded on a folder. -/
def folderTag : Option String → Attr
  | some e => .text e
  | none => .absent

/-- Record on a directory which folder it is. -/
def claimFolder (ctx : Ctx) (n : ℕ) (s : Pass) (cloudId path : String) (abs : RelPath)
    (etag : Option String) : Pass :=
  match s.disk.get abs with
  | none => s.fail path (.place "No such file or directory (os error 2)") true
  | some i =>
    if i.id.isSome ∧ i.id ≠ .text cloudId then s.fail path .destinationOccupied true
    else match ctx.os.setId n with
      | some e => s.fail path (.place e) true
      | none =>
        let i := { i with id := .text cloudId }
        match ctx.os.setEtag n with
        | some e => { s with disk := s.disk.set abs i }.fail path (.place e) true
        | none =>
          { s with
            disk := s.disk.set abs { i with etag := folderTag etag }
            folders := s.folders.insert cloudId abs }

def folderUpserted (ctx : Ctx) (n : ℕ) (s : Pass) (cloudId path : String) (etag : Option String) :
    Pass × Flow :=
  match folderPath path with
  | none => (s.fail path .pathRefused false, .next)
  | some abs =>
    match moveFolder ctx n s cloudId path abs with
    | .error r => r
    | .ok s =>
      match makeFolder ctx n s path abs with
      | .error r => r
      | .ok s => (claimFolder ctx n s cloudId path abs etag, .next)

/-- Whether a file is on the way to a path. -/
def blocked (d : Disk) (p : RelPath) : Bool :=
  p.inits.any fun q ↦ q ≠ p ∧ (d.fileAt q).isSome

/-- The directory has local content, so it survives as a local-only folder. -/
def detachFolder (ctx : Ctx) (n : ℕ) (s : Pass) (cloudId path : String) (existing : RelPath)
    (i : Inode) : Pass :=
  match ctx.os.setEtag n with
  | some e => s.fail path (.remove e) true
  | none =>
    let i := { i with etag := .absent }
    match ctx.os.removeId n with
    | some e => { s with disk := s.disk.set existing i }.fail path (.remove e) true
    | none =>
      { s with
        disk := s.disk.set existing { i with id := .absent }
        folders := s.folders.erase cloudId }

def folderRemoved (ctx : Ctx) (n : ℕ) (s : Pass) (cloudId path : String) : Pass :=
  if cloudId ∈ ctx.ignoredFolders then s.ignored
  else match s.folders.lookup cloudId with
    | none => s
    | some existing =>
      if ctx.ignore.ignores existing then s.ignored
      else if existing = [] then s.fail path (.remove "the sync root cannot be removed") false
      else match s.disk.get existing with
        | none =>
          if blocked s.disk existing then
            s.fail path (.remove "Not a directory (os error 20)") true
          else { s with folders := s.folders.erase cloudId }
        | some i =>
          if ¬ i.isDir then s.fail path (.remove "Not a directory (os error 20)") true
          else match ctx.os.rmdir n with
            | some e => s.fail path (.remove e) true
            | none =>
              if s.disk.hasChild existing then detachFolder ctx n s cloudId path existing i
              else
                { s with
                  disk := s.disk.erase existing, folders := s.folders.erase cloudId
                  out := { s.out with removed := s.out.removed + 1 } }

/-! ### Files -/

/-- Follow a file to its new path. -/
def moveFile (ctx : Ctx) (n : ℕ) (s : Pass) (cloudId path : String) (abs : RelPath) :
    Except (Pass × Flow) Pass :=
  match s.files.lookup cloudId with
  | none => .ok s
  | some existing =>
    if existing.path ≠ abs ∧ s.disk.exists' existing.path then
      if s.disk.exists' abs then .error (s.fail path .destinationOccupied true, .next)
      else
        let d := (createDirAll (ctx.os.mkdir n) s.disk abs.dropLast).1
        match rename (ctx.os.rename n) d existing.path abs with
        | .error e => .error ({ s with disk := d }.fail path (.rename e) true, .next)
        | .ok d =>
          .ok { s with
            disk := d
            files := s.files.insert cloudId { existing with path := abs }
            store := match d.get abs with
              | some i => s.store.remember i.stat.file abs
              | none => s.store
            out := { s.out with moved := s.out.moved + 1 } }
    else .ok s

/-- Put a placeholder, in the place of what is there if anything is. -/
def placeFile (ctx : Ctx) (n : ℕ) (s : Pass) (cloudId path : String) (abs : RelPath) (size : ℕ)
    (etag : Option String) (count : Applied → Applied) : Pass :=
  let s' := { s with calls := s.calls ++ [Call.place abs cloudId s.disk] }
  match place ctx.os n s.disk abs size cloudId etag with
  | (d, some e) => { s' with disk := d }.fail path (.place e) false
  | (d, none) => { s' with disk := d, out := count s.out }

/-- What is at the path stays unless it may be replaced. -/
def refreshFile (ctx : Ctx) (n : ℕ) (s : Pass) (cloudId path : String) (abs : RelPath) (size : ℕ)
    (etag : Option String) : Pass :=
  match s.disk.get abs with
  | none =>
    placeFile ctx n s cloudId path abs size etag fun out ↦ { out with created := out.created + 1 }
  | some i =>
    if isCurrent i cloudId etag size then s
    else if i.stat.file ∈ ctx.waiting then s.keep path .editWaiting
    else if ¬ i.id.isFilled ∧ i.stat.size > 0 then s.keep path .neverUploaded
    else if i.stampState = .ok .dirty then s.keep path .changedUnderneath
    else
      placeFile ctx n s cloudId path abs size etag fun out ↦
        { out with updated := out.updated + 1 }

def upserted (ctx : Ctx) (n : ℕ) (s : Pass) (cloudId path : String) (size : ℕ)
    (etag : Option String) : Pass × Flow :=
  match safeJoin path with
  | none => (s.fail path .pathRefused false, .next)
  | some abs =>
    if size > maxObject then (s.fail path (.tooLarge size) false, .next)
    else match moveFile ctx n s cloudId path abs with
      | .error r => r
      | .ok s => (refreshFile ctx n s cloudId path abs size etag, .next)

def removed (ctx : Ctx) (n : ℕ) (s : Pass) (cloudId : String) : Pass :=
  match s.files.lookup cloudId with
  | none => s
  | some entry =>
    if ctx.ignore.ignores entry.path then s.ignored
    else match s.disk.get entry.path with
      | none => s
      | some i =>
        let path := entry.path.display
        if i.stat.file ∈ ctx.waiting then s.keep path .editWaiting
        else if i.stampState = .ok .dirty then s.keep path .changedUnderneath
        else
          let s' := { s with calls := s.calls ++ [Call.remove entry.path cloudId s.disk] }
          match remove ctx.os n s.disk entry.path with
          | (d, some e) => { s' with disk := d }.fail path (.remove e) false
          | (d, none) =>
            { s' with disk := d, out := { s.out with removed := s.out.removed + 1 } }

/-! ### The loop -/

/-- The path that a change declares. -/
def declared : Change → Option String
  | .upserted _ path .. | .folderUpserted _ path _ | .folderRemoved _ path => some path
  | .removed _ => none

/-- One change, while the root is the mount it was. -/
def applyChange (ctx : Ctx) (n : ℕ) (s : Pass) (c : Change) : Pass × Flow :=
  if (declared c).any ctx.ignore.isIgnored then (s.ignored, .next)
  else match c with
    | .folderUpserted cloudId path etag => folderUpserted ctx n s cloudId path etag
    | .upserted cloudId path size etag => upserted ctx n s cloudId path size etag
    | .removed cloudId => (removed ctx n s cloudId, .next)
    | .folderRemoved cloudId path => (folderRemoved ctx n s cloudId path, .next)

/-- The pass gives up. -/
def Pass.stop (s : Pass) (why : Stopped) : Pass × Flow :=
  ({ s with out := { s.out with stopped := some why, retryable := true } }, .stop)

def step (ctx : Ctx) (n : ℕ) (s : Pass) (c : Change) : Pass × Flow :=
  match ctx.os.current n with
  | .ok true => applyChange ctx n s c
  | .ok false => s.stop .mountChanged
  | .error e => s.stop (.mountUnverifiable e)

/-- The changes in their order, from the one of a number on; with the error that ended the pass. -/
def run (ctx : Ctx) : ℕ → List Change → Pass → Pass × Option String
  | _, [], s => (s, none)
  | n, c :: cs, s =>
    match step ctx n s c with
    | (s, .next) => run ctx (n + 1) cs s
    | (s, .stop) => (s, none)
    | (s, .error e) => (s, some e)

/-! ### Folders by cloud id -/

structure FolderIndex where
  synced : AList fun _ : String ↦ RelPath
  ignored : List String

/-- Take up what a directory claims to be. -/
def addFolder (ignore : IgnoreSet) (d : Disk) (index : FolderIndex) (p : RelPath) :
    Except String FolderIndex :=
  match d.get p with
  | none => .ok index
  | some i =>
    if ¬ i.isDir then .ok index
    else match i.id with
      | .unreadable e => .error e
      | .binary _ => .error s!"folder at {RelPath.display p} has a non-UTF-8 cloud identity"
      | .absent => .ok index
      | .text id =>
        if id = "" then .ok index
        else if p ≠ [] ∧ ignore.ignores p then .ok { index with ignored := id :: index.ignored }
        else if (index.synced.lookup id).isSome then
          .error s!"folder cloud identity {id} is claimed more than once"
        else .ok { index with synced := index.synced.insert id p }

/-- The folder of every cloud id; refused where two claim one. -/
def foldersByCloudId (ignore : IgnoreSet) (d : Disk) : Except String FolderIndex :=
  match d.paths.dedup.foldlM (addFolder ignore d) ⟨∅, []⟩ with
  | .error e => .error e
  | .ok index =>
    match index.synced.keys.find? (· ∈ index.ignored) with
    | some id =>
      .error s!"folder cloud identity {id} is claimed by both a synced and an ignored folder"
    | none => .ok index

/-! ### The pass -/

/-- What a pass was applied to, as two digests. -/
structure Fingerprint where
  batch : ℕ
  tree : ℕ
  deriving DecidableEq, Repr

/-- What a pass finds when it begins. -/
structure Setting where
  os : Os
  config : Config
  /-- Why the walk broke off, and what it had met. -/
  broken : Option (String × List RelPath)
  waiting : List FileId
  /-- The digest of a batch and of a tree. -/
  batchDigest : List Change → ℕ
  treeDigest : Disk → ℕ

/-- The store after the walk at the start of a pass. -/
def scanned (setting : Setting) (store : Store) (d : Disk) : Store :=
  store.scan setting.config d (setting.broken.map Prod.snd)

/-- `apply_remembering`: the pass, the error that ended it, and what it was applied to if it did
nothing. -/
def applyRemembering (setting : Setting) (store : Store) (d : Disk) (changes : List Change)
    (seen : Option Fingerprint) : Pass × Option String × Option Fingerprint :=
  let idle (store : Store) : Pass := ⟨d, ∅, ∅, store, Applied.default, []⟩
  if changes = [] then (idle store, none, seen)
  else
    let store := scanned setting store d
    match setting.broken with
    | some (e, _) => (idle store, some e, seen)
    | none =>
      let now : Fingerprint := ⟨setting.batchDigest changes, setting.treeDigest d⟩
      if seen = some now then (idle store, none, seen)
      else match foldersByCloudId store.ignore d with
        | .error e => (idle store, some e, seen)
        | .ok folders =>
          let ctx : Ctx := ⟨setting.os, store.ignore, folders.ignored, setting.waiting⟩
          let s : Pass :=
            ⟨d, store.byCloudId d, folders.synced, store, Applied.default, []⟩
          let (s, error) := run ctx 0 (coalesce changes) s
          let out := s.out
          let nothing := out.created = 0 ∧ out.updated = 0 ∧ out.removed = 0 ∧ out.moved = 0
            ∧ out.stopped = none ∧ ¬ out.retryable ∧ out.failed = []
          (s, error, if error = none ∧ nothing then some now else seen)

end HydrationAPI.Client.Delta
