import HydrationAPI.Client.SyncDir
import Mathlib.Data.List.AList
import Mathlib.Data.List.Dedup

/-!
# Which cloud object a local file is

The index maps the identity of a file back to its path. It is rebuilt by a walk, which meets the
files in no particular order, and what it answers is held against the directory as it is: a path
whose inode is another is not that file. A save that replaces the inode takes the attributes away,
and a record by path, the lineage, bridges the time until the file has them again.
-/

namespace HydrationAPI.Client

/-! ## Lineage -/

/-- What was recorded for one path. -/
structure Record where
  cloudId : String
  /-- The tag of the version an edit here is based on. -/
  tag : Option String
  deriving DecidableEq, Repr

/-- Paths to what the framework last knew about the object at each of them. -/
abbrev Lineage := PathMap String Record

/-- Replace what is remembered with what a scan just saw, keeping only the records that survived
it: of a path that is still there, and of an object that nothing the scan saw claims. -/
def Lineage.absorb (old : Lineage) (seen : PathMap String Record) (live : List RelPath) :
    Lineage :=
  ⟨seen.entries ++ old.entries.filter fun e ↦ e.1 ∉ seen.paths
    ∧ (∀ s ∈ seen.entries, s.2.cloudId ≠ e.2.cloudId) ∧ e.1 ∈ live⟩

/-! ## The store -/

/-- What the daemon knows about one file. -/
structure StoreEntry where
  path : RelPath
  /-- `none` until the first upload completes. -/
  cloudId : Option String
  etag : Option String
  size : ℕ
  deriving DecidableEq, Repr

structure Store where
  index : AList fun _ : FileId ↦ RelPath
  /-- Whether a scan has told where the root is. -/
  rooted : Bool
  /-- Present if the caller asked for it. -/
  lineage : Option Lineage
  ignore : IgnoreSet

/-- The framework's own files in the directory, as a scan reads them. -/
structure Config where
  ignore : IgnoreSet
  lineage : Lineage

/-- The regular file at a path, if it is one that is indexed. -/
def indexable (d : Disk) (p : RelPath) : Option Inode :=
  (d.fileAt p).filter fun _ ↦ ¬ p.getLast?.any Names.isInternal

/-- Whether a file holds content and is synced, so that the lineage records it. -/
def isLive (ignore : IgnoreSet) (d : Disk) (p : RelPath) : Bool :=
  (indexable d p).any fun i ↦ ¬ ignore.ignores p ∧ ¬ i.dehydrated.isSome

/-- What the lineage records of a file that has its attributes. -/
def recordOf (d : Disk) (p : RelPath) : Option Record :=
  (indexable d p).bind fun i ↦ i.id.string.map fun cloudId ↦ ⟨cloudId, i.etag.string⟩

namespace Store

/-- Index what is met at a path. -/
def meet (d : Disk) (index : AList fun _ : FileId ↦ RelPath) (p : RelPath) :
    AList fun _ : FileId ↦ RelPath :=
  match indexable d p with
  | some i => index.insert i.stat.file p
  | none => index

/-- `Store::scan`; of a walk that broke off, the paths that were met before. -/
def scan (s : Store) (config : Config) (d : Disk) : Option (List RelPath) → Store
  | some met =>
    { s with
      index := met.foldl (meet d) ∅, rooted := true
      lineage := s.lineage.map fun _ ↦ config.lineage, ignore := config.ignore }
  | none =>
    let live := d.paths.filter (isLive config.ignore d)
    let seen := live.filterMap fun p ↦ (recordOf d p).map (p, ·)
    { s with
      index := d.paths.foldl (meet d) ∅, rooted := true
      lineage := s.lineage.map fun _ ↦ config.lineage.absorb ⟨seen⟩ live
      ignore := config.ignore }

/-- What was recorded for a path before it lost its extended attributes. -/
def remembered (s : Store) (p : RelPath) : Option Record :=
  if s.rooted then s.lineage.bind (·.get p) else none

def pathIsIgnored (s : Store) (p : RelPath) : Bool := s.rooted && s.ignore.ignores p

/-- What a file says for itself, or the lineage where it has nothing to say. -/
def entryAt (s : Store) (p : RelPath) (i : Inode) : StoreEntry :=
  match i.id.string, s.remembered p with
  | none, some r => ⟨p, some r.cloudId, r.tag, i.stat.size⟩
  | cloudId, _ => ⟨p, cloudId, i.etag.string, i.stat.size⟩

/-- Resolve an identity to the file it names. -/
def lookup (s : Store) (d : Disk) (file : FileId) : Option StoreEntry :=
  (s.index.lookup file).bind fun p ↦
    ((d.get p).filter fun i ↦ i.stat.file = file).map (s.entryAt p)

/-- Index by cloud id. -/
def byCloudId (s : Store) (d : Disk) : AList fun _ : String ↦ StoreEntry :=
  s.index.keys.foldl (fun out file ↦
    match s.lookup d file with
    | some e =>
      match e.cloudId with
      | some cloudId => out.insert cloudId e
      | none => out
    | none => out) ∅

def remember (s : Store) (file : FileId) (p : RelPath) : Store :=
  { s with index := s.index.insert file p }

/-! ## What a look-up says -/

variable {s : Store} {d : Disk} {file : FileId} {p : RelPath} {e : StoreEntry}

@[simp] theorem entryAt_path (i : Inode) : (s.entryAt p i).path = p := by
  rw [entryAt]
  split <;> rfl

theorem lookup_eq_some : s.lookup d file = some e ↔ ∃ p i, s.index.lookup file = some p
    ∧ d.get p = some i ∧ i.stat.file = file ∧ s.entryAt p i = e := by
  rw [lookup, Option.bind_eq_some_iff]
  simp only [Option.map_eq_some_iff, Option.filter_eq_some_iff, decide_eq_true_eq]
  constructor
  · rintro ⟨p, hp, i, ⟨hi, hfile⟩, he⟩
    exact ⟨p, i, hp, hi, hfile, he⟩
  · rintro ⟨p, i, hp, hi, hfile, he⟩
    exact ⟨p, hp, i, ⟨hi, hfile⟩, he⟩

theorem indexable_eq_some {i : Inode} : indexable d p = some i
    ↔ d.fileAt p = some i ∧ p.getLast?.any Names.isInternal = false := by
  rw [indexable, Option.filter_eq_some_iff]
  simp

/-- What the index holds after the paths have been met is at one of them. -/
theorem exists_of_foldl_meet {met : List RelPath} {index : AList fun _ : FileId ↦ RelPath}
    (h : (met.foldl (meet d) index).lookup file = some p) :
    (∃ i, p ∈ met ∧ indexable d p = some i ∧ i.stat.file = file)
      ∨ index.lookup file = some p := by
  induction met generalizing index with
  | nil => exact Or.inr h
  | cons q met ih =>
    rcases ih h with ⟨i, hp, hi⟩ | hindex
    · exact Or.inl ⟨i, List.mem_cons_of_mem q hp, hi⟩
    · rw [meet] at hindex
      split at hindex
      · rename_i i hi
        by_cases hfile : file = i.stat.file
        · subst hfile
          rw [AList.lookup_insert] at hindex
          cases hindex
          exact Or.inl ⟨i, List.mem_cons_self, hi, rfl⟩
        · rw [AList.lookup_insert_ne hfile] at hindex
          exact Or.inr hindex
      · exact Or.inr hindex

/-- What is met is indexed. -/
theorem isSome_foldl_meet {met : List RelPath} {index : AList fun _ : FileId ↦ RelPath} {i : Inode}
    (h : p ∈ met ∧ indexable d p = some i ∧ i.stat.file = file
      ∨ (index.lookup file).isSome = true) :
    ((met.foldl (meet d) index).lookup file).isSome = true := by
  induction met generalizing index with
  | nil => exact h.resolve_left fun h ↦ List.not_mem_nil h.1
  | cons q met ih =>
    refine ih ?_
    by_cases hq : p = q ∧ indexable d p = some i ∧ i.stat.file = file
    · obtain ⟨rfl, hi, rfl⟩ := hq
      right
      rw [meet, hi, AList.lookup_insert]
      rfl
    · rcases h with ⟨hp, hi⟩ | hindex
      · exact Or.inl ⟨(List.mem_cons.mp hp).resolve_left fun h ↦ hq ⟨h, hi⟩, hi⟩
      · right
        rw [meet]
        split
        · rename_i j _
          by_cases hfile : file = j.stat.file
          · subst hfile
            rw [AList.lookup_insert]
            rfl
          · rw [AList.lookup_insert_ne hfile]
            exact hindex
        · exact hindex

end Store

end HydrationAPI.Client
