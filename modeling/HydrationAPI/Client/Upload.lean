import HydrationAPI.Client.Store

/-!
# Getting local changes back to the cloud

One upload, from the look-up that resolves the name the file has now to the attribute that records
what came of it. The transfer takes time, and by its end the file may have been renamed, replaced by
a save, or deleted; what has happened is told from where the inode is found then.

A file that is found nowhere has been deleted, and the remote object is removed. One that is found
at another name is sent again as a new object, and the one that was sent first is removed.
-/

namespace HydrationAPI.Client.Upload

/-- What the cloud gave back for an upload. -/
structure Uploaded where
  cloudId : String
  etag : Option String
  deriving DecidableEq, Repr

/-- What the framework already knows about the object a local file came from. -/
structure Known where
  cloudId : String
  /-- The tag recorded for the version this edit is based on. -/
  tag : Option String
  deriving DecidableEq, Repr

/-- What happened to one upload. -/
inductive Outcome where
  | sent (cloudId : String)
  /-- The file was gone by the time the bytes were sent. -/
  | deletedInstead
  | nothingToDo
  /-- The path is never synced. -/
  | ignored
  | failed (why : String)
  deriving DecidableEq, Repr

/-- What the sink answers to an upload, and the directory as it is by then. -/
structure Sent where
  answer : Except String Uploaded
  disk : Disk

/-- What an upload meets: the directory at its start, the sink, and whatever else changes the
directory while bytes are sent. -/
structure Env where
  disk : Disk
  upload : RelPath → Option Known → Sent
  resend : RelPath → Option Known → Sent
  /-- Why the sink does not remove an object. -/
  remove : String → Option String
  config : Config
  /-- The paths that a walk has met, if it breaks off. -/
  met : Option (List RelPath)
  /-- Why the attributes cannot be written. -/
  adopt : Option String
  /-- Whether the stamp can be written. -/
  stamps : Bool

/-- A call of the sink; a removal with the directory as it is then. -/
inductive Call where
  | upload (path : RelPath) (known : Option Known)
  | remove (cloudId : String) (disk : Disk)

variable (env : Env) (store : Store) (file : FileId)

/-- Record the cloud id on the file, and stamp it as it was before it was sent. -/
def adopt (d : Disk) (path : RelPath) (sentState : Option Stat) (u : Uploaded) (what : String) :
    Outcome × Disk :=
  match env.adopt, d.get path with
  | some e, _ => (.failed s!"{what}: {e}", d)
  | none, none => (.failed s!"{what}: No such file or directory (os error 2)", d)
  | none, some i =>
    let etag := match u.etag with
      | some e => .text e
      | none => i.etag
    let stamp := match sentState with
      | some st => if env.stamps then .text st.stamp else i.stamp
      | none => i.stamp
    (.sent u.cloudId, d.set path { i with id := .text u.cloudId, etag := etag, stamp := stamp })

/-- The file was renamed while it was sent: it is sent again, as a create. -/
def resend (d : Disk) (moved : RelPath) (uploaded : Uploaded) : Outcome × List Call × Disk :=
  let sentState := (d.get moved).map Inode.stat
  let sent := env.resend moved none
  let calls := [.upload moved none]
  match sent.answer with
  | .error e =>
    (.failed s!"the file was renamed mid-upload and the resend failed: {e}", calls, sent.disk)
  | .ok again =>
    let what := "could not record the cloud id after a rename"
    if again.cloudId ≠ uploaded.cloudId then
      let calls := calls ++ [.remove uploaded.cloudId sent.disk]
      match env.remove uploaded.cloudId with
      | some e =>
        (.failed ("resent under the new name, but the object created under the old one could not be "
          ++ s!"removed: {e}"), calls, sent.disk)
      | none =>
        let (outcome, d) := adopt env sent.disk moved sentState again what
        (outcome, calls, d)
    else
      let (outcome, d) := adopt env sent.disk moved sentState again what
      (outcome, calls, d)

/-- What a look-up says of a file that is not where it was, after a walk. -/
def lookAgain (d : Disk) : Option StoreEntry :=
  (if store.rooted then store.scan env.config d env.met else store).lookup d file

/-- What the framework knows of the object a file came from. -/
def known (entry : StoreEntry) : Option Known :=
  entry.cloudId.map fun cloudId ↦ ⟨cloudId, entry.etag⟩

/-- The bytes went out from `path`. -/
def settle (path : RelPath) (sentState : Option Stat) (uploaded : Uploaded) (d : Disk) :
    Outcome × List Call × Disk :=
  let record := fun () ↦
    let (outcome, d) := adopt env d path sentState uploaded "could not record the cloud id"
    (outcome, [], d)
  if (store.lookup d file).isSome then record ()
  else match lookAgain env store file d with
    | some moved => if moved.path ≠ path then resend env d moved.path uploaded else record ()
    | none =>
      let calls := [.remove uploaded.cloudId d]
      match env.remove uploaded.cloudId with
      | some e =>
        (.failed ("the file was deleted mid-upload and the remote copy could not be removed: "
          ++ e), calls, d)
      | none => (.deletedInstead, calls, d)

def runUpload : Outcome × List Call × Disk :=
  match store.lookup env.disk file with
  | none => (.nothingToDo, [], env.disk)
  | some entry =>
    let path := entry.path
    if store.pathIsIgnored path then (.ignored, [], env.disk)
    else
      -- observed before the sink reads a byte
      let sentState := (env.disk.get path).map Inode.stat
      let sent := env.upload path (known entry)
      match sent.answer with
      | .error e => (.failed e, [.upload path (known entry)], sent.disk)
      | .ok uploaded =>
        let (outcome, calls, d) := settle env store file path sentState uploaded sent.disk
        (outcome, .upload path (known entry) :: calls, d)

/-! ## What is removed -/

/-- The calls of one upload. -/
def calls : List Call := (runUpload env store file).2.1

/-- There is a file at the path, or the inode is at some path. -/
def Remains (d : Disk) (path : RelPath) (file : FileId) : Prop :=
  (∃ i, d.fileAt path = some i) ∨ ∃ q i, d.fileAt q = some i ∧ i.stat.file = file

/-- What is removed did not exist before, or nothing remains of the file. -/
def Spares (existed : String → Prop) : Prop :=
  ∀ entry, store.lookup env.disk file = some entry → ∀ cloudId d,
    .remove cloudId d ∈ calls env store file → existed cloudId → ¬ Remains d entry.path file

variable {env store file} {d : Disk} {path : RelPath} {sentState : Option Stat}
  {uploaded : Uploaded} {cloudId : String} {d' : Disk}

theorem mem_resend : .remove cloudId d' ∈ (resend env d path uploaded).2.1
    ↔ cloudId = uploaded.cloudId ∧ d' = (env.resend path none).disk
      ∧ ∃ again, (env.resend path none).answer = .ok again ∧ again.cloudId ≠ uploaded.cloudId := by
  rw [resend]
  dsimp only
  split
  · rename_i e he
    simp [he]
  · rename_i again hagain
    split
    · rename_i hne
      split <;> simp [hagain, hne]
    · rename_i heq
      simp [hagain, not_not.mp heq]

theorem mem_settle : .remove cloudId d' ∈ (settle env store file path sentState uploaded d).2.1
    ↔ store.lookup d file = none ∧
      ((∃ moved, lookAgain env store file d = some moved ∧ moved.path ≠ path
        ∧ .remove cloudId d' ∈ (resend env d moved.path uploaded).2.1)
      ∨ lookAgain env store file d = none ∧ cloudId = uploaded.cloudId ∧ d' = d) := by
  rw [settle]
  dsimp only
  split
  · rename_i hsome
    have hne : store.lookup d file ≠ none := Option.isSome_iff_ne_none.mp hsome
    simp [hne]
  · rename_i hnone
    have hnone : store.lookup d file = none := Option.not_isSome_iff_eq_none.mp hnone
    split
    · rename_i moved hmoved
      split
      · rename_i hne
        simp [hnone, hmoved, hne]
      · rename_i heq
        simp [hnone, hmoved, not_not.mp heq]
    · rename_i hmoved
      split <;> simp [hnone, hmoved]

/-- What is removed was sent first, under the name the file had then. -/
theorem mem_calls : .remove cloudId d' ∈ calls env store file ↔ ∃ entry uploaded,
    store.lookup env.disk file = some entry ∧ store.pathIsIgnored entry.path = false
      ∧ (env.upload entry.path (known entry)).answer = .ok uploaded
      ∧ .remove cloudId d' ∈ (settle env store file entry.path
        ((env.disk.get entry.path).map Inode.stat) uploaded
        (env.upload entry.path (known entry)).disk).2.1 := by
  rw [calls, runUpload]
  dsimp only
  split
  · rename_i hnone
    simp [hnone]
  · rename_i entry hentry
    split
    · rename_i hignored
      simp [hentry, hignored]
    · rename_i hignored
      have hignored := Bool.eq_false_iff.mpr hignored
      split
      · rename_i e he
        simp [hentry, he]
      · rename_i uploaded hok
        simp [hentry, hignored, hok]

/-! ## Where the file is found -/

/-- The inode is where it was. -/
def Stays (d : Disk) (path : RelPath) (file : FileId) : Prop :=
  ∃ i, d.get path = some i ∧ i.stat.file = file

/-- A look-up finds the file where the index has it, or not at all. -/
theorem lookup_eq_none_iff {entry : StoreEntry} (h : store.lookup env.disk file = some entry) :
    store.lookup d file = none ↔ ¬ Stays d entry.path file := by
  obtain ⟨p, i, hp, -, -, rfl⟩ := Store.lookup_eq_some.mp h
  rw [Option.eq_none_iff_forall_ne_some, Store.entryAt_path]
  constructor
  · rintro hnone ⟨j, hj, hfile⟩
    exact hnone _ (Store.lookup_eq_some.mpr ⟨p, j, hp, hj, hfile, rfl⟩)
  · rintro hstays e he
    obtain ⟨q, j, hq, hj, hfile, -⟩ := Store.lookup_eq_some.mp he
    cases hp.symm.trans hq
    exact hstays ⟨j, hj, hfile⟩

/-- A file that is found again is where it is found. -/
theorem stays_of_lookAgain {moved : StoreEntry} (h : lookAgain env store file d = some moved) :
    Stays d moved.path file := by
  obtain ⟨p, i, -, hi, hfile, rfl⟩ := Store.lookup_eq_some.mp h
  rw [Store.entryAt_path]
  exact ⟨i, hi, hfile⟩

/-- A walk finds a file that has left its place at every name it meets that is not one of the
framework's own. -/
theorem lookAgain_isSome_iff (hnone : store.lookup d file = none) :
    (lookAgain env store file d).isSome = true ↔ store.rooted = true ∧ ∃ q i,
      (∀ met, env.met = some met → q ∈ met) ∧ indexable d q = some i ∧ i.stat.file = file := by
  rw [lookAgain]
  split
  · rename_i hrooted
    have hindex : (store.scan env.config d env.met).index
        = (env.met.getD d.paths).foldl (Store.meet d) ∅ := by
      cases env.met <;> rfl
    constructor
    · intro hsome
      obtain ⟨e, he⟩ := Option.isSome_iff_exists.mp hsome
      obtain ⟨p, i, hp, -, -, -⟩ := Store.lookup_eq_some.mp he
      rw [hindex] at hp
      rcases Store.exists_of_foldl_meet hp with ⟨j, hmem, hj, hfile⟩ | hempty
      · refine ⟨hrooted, p, j, fun met hmet ↦ ?_, hj, hfile⟩
        rwa [hmet] at hmem
      · cases hempty
    · rintro ⟨-, q, i, hmet, hi, hfile⟩
      have hget : d.get q = some i := (Disk.fileAt_eq_some d |>.mp
        (Store.indexable_eq_some.mp hi).1).1
      have hmem : q ∈ env.met.getD d.paths := by
        cases henv : env.met with
        | none => exact PathMap.mem_paths.mpr ⟨i, hget⟩
        | some met => exact hmet met henv
      have hsome : (((env.met.getD d.paths).foldl (Store.meet d) ∅).lookup file).isSome = true :=
        Store.isSome_foldl_meet (Or.inl ⟨hmem, hi, hfile⟩)
      obtain ⟨p, hp⟩ := Option.isSome_iff_exists.mp hsome
      rcases Store.exists_of_foldl_meet hp with ⟨j, -, hj, hjfile⟩ | hempty
      · rw [← hindex] at hp
        have hjget := (Disk.fileAt_eq_some d |>.mp (Store.indexable_eq_some.mp hj).1).1
        exact Option.isSome_iff_exists.mpr
          ⟨_, Store.lookup_eq_some.mpr ⟨p, j, hp, hjget, hjfile, rfl⟩⟩
      · cases hempty
  · rename_i hrooted
    rw [hnone]
    exact ⟨fun h ↦ absurd h Bool.false_ne_true, fun h ↦ absurd h.1 hrooted⟩

/-! ## When nothing is destroyed that still has a file -/

/-- The object that was sent first is removed though something of the file remains: the inode has
left its place, and it is found elsewhere and sent again as another object, or it is not found. -/
def Strands (env : Env) (store : Store) (file : FileId) (path : RelPath) (uploaded : Uploaded)
    (d : Disk) : Prop :=
  ¬ Stays d path file ∧ match lookAgain env store file d with
    | some moved => (∃ again, (env.resend moved.path none).answer = .ok again
        ∧ again.cloudId ≠ uploaded.cloudId) ∧ Remains (env.resend moved.path none).disk path file
    | none => Remains d path file

/-- **An upload destroys no object that still has a file** exactly if, whenever the object it sent
to existed before, the file is still in its place when the bytes are sent, or is nowhere with
nothing in its place, or is elsewhere and is not sent again as another object while anything of it
remains. -/
theorem spares_iff {existed : String → Prop} : Spares env store file existed ↔
    ∀ entry uploaded, store.lookup env.disk file = some entry →
      store.pathIsIgnored entry.path = false →
      (env.upload entry.path (known entry)).answer = .ok uploaded → existed uploaded.cloudId →
      ¬ Strands env store file entry.path uploaded (env.upload entry.path (known entry)).disk := by
  constructor
  · intro hspares entry uploaded hentry hignored hok hexisted hstrands
    obtain ⟨hstays, hfound⟩ := hstrands
    have hnone := (lookup_eq_none_iff hentry).mpr hstays
    have hremoved : ∀ d', .remove uploaded.cloudId d' ∈ (settle env store file entry.path
        ((env.disk.get entry.path).map Inode.stat) uploaded
        (env.upload entry.path (known entry)).disk).2.1 → ¬ Remains d' entry.path file :=
      fun d' hd' ↦ hspares entry hentry uploaded.cloudId d'
        (mem_calls.mpr ⟨entry, uploaded, hentry, hignored, hok, hd'⟩) hexisted
    split at hfound
    · rename_i moved hmoved
      have hthere := stays_of_lookAgain hmoved
      have hne : moved.path ≠ entry.path := fun heq ↦ hstays (by rwa [heq] at hthere)
      refine hremoved _ (mem_settle.mpr ⟨hnone, Or.inl ⟨moved, hmoved, hne, ?_⟩⟩) hfound.2
      exact mem_resend.mpr ⟨rfl, rfl, hfound.1⟩
    · rename_i hmoved
      exact hremoved _ (mem_settle.mpr ⟨hnone, Or.inr ⟨hmoved, rfl, rfl⟩⟩) hfound
  · intro h entry hentry cloudId d' hcall hexisted hremains
    obtain ⟨entry', uploaded, hentry', hignored, hok, hmem⟩ := mem_calls.mp hcall
    cases hentry.symm.trans hentry'
    obtain ⟨hnone, hfound⟩ := mem_settle.mp hmem
    have hstays := (lookup_eq_none_iff hentry).mp hnone
    rcases hfound with ⟨moved, hmoved, -, hresend⟩ | ⟨hmoved, rfl, rfl⟩
    · obtain ⟨rfl, rfl, hagain⟩ := mem_resend.mp hresend
      refine h entry uploaded hentry hignored hok hexisted ⟨hstays, ?_⟩
      rw [hmoved]
      exact ⟨hagain, hremains⟩
    · refine h entry uploaded hentry hignored hok hexisted ⟨hstays, ?_⟩
      rw [hmoved]
      exact hremains

/-! ### A rename and a save during the transfer -/

/-- A file that came from the object `c`. -/
def sampleInode (ino : ℕ) : Inode :=
  ⟨⟨⟨1, ino⟩, 3, 10, 0⟩, false, .text "c", .text "v1", .text "9.0:3", .absent, true⟩

/-- A directory with one file. -/
def sampleDisk (name : String) (ino : ℕ) : Disk :=
  ⟨[([name], sampleInode ino), ([], ⟨⟨⟨1, 1⟩, 0, 0, 0⟩, true, .absent, .absent, .absent, .absent,
    false⟩)]⟩

def sampleStore : Store := ⟨AList.singleton ⟨1, 7⟩ ["a"], true, none, ⟨[".git"], []⟩⟩

/-- The file is updated in the cloud; by the end of the transfer `after` is in the directory. What
is sent again becomes another object. -/
def sampleEnv (after : Disk) : Env :=
  ⟨sampleDisk "a" 7, fun _ _ ↦ ⟨.ok ⟨"c", some "v2"⟩, after⟩,
    fun _ _ ↦ ⟨.ok ⟨"d", some "v1"⟩, after⟩, fun _ ↦ none, ⟨⟨[".git"], []⟩, ⟨[]⟩⟩, none, none, true⟩

/-- The object that the file came from is removed when the file is renamed while it is sent, and
when it is saved in the manner of an editor. -/
theorem known_object_removed : ¬ Spares (sampleEnv (sampleDisk "b" 7)) sampleStore ⟨1, 7⟩ (· = "c")
    ∧ ¬ Spares (sampleEnv (sampleDisk "a" 8)) sampleStore ⟨1, 7⟩ (· = "c") := by
  constructor
  · intro hspares
    have hcalls : calls (sampleEnv (sampleDisk "b" 7)) sampleStore ⟨1, 7⟩
        = [.upload ["a"] (some ⟨"c", some "v1"⟩), .upload ["b"] none,
          .remove "c" (sampleDisk "b" 7)] := rfl
    refine hspares ⟨["a"], some "c", some "v1", 3⟩ rfl "c" (sampleDisk "b" 7) ?_ rfl ?_
    · rw [hcalls]
      simp
    · exact Or.inr ⟨["b"], sampleInode 7, rfl, rfl⟩
  · intro hspares
    have hcalls : calls (sampleEnv (sampleDisk "a" 8)) sampleStore ⟨1, 7⟩
        = [.upload ["a"] (some ⟨"c", some "v1"⟩), .remove "c" (sampleDisk "a" 8)] := rfl
    refine hspares ⟨["a"], some "c", some "v1", 3⟩ rfl "c" (sampleDisk "a" 8) ?_ rfl ?_
    · rw [hcalls]
      simp
    · exact Or.inl ⟨sampleInode 8, rfl⟩

end HydrationAPI.Client.Upload
