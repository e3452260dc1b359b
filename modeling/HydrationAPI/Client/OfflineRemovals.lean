import HydrationAPI.Client.Store
import HydrationAPI.Lib.Walk

/-!
# Deletions made while the daemon was not running

What the last run recorded as present is held against what is there at the start. A walk tells which
paths hold a file and which objects are on any of them. It passes by what it cannot read: a
directory, an entry, the metadata of an entry and the attribute of a file. What was passed by is
missing to it as if it were not there.
-/

namespace HydrationAPI.Client

/-- What cannot be read during the walk; of an attribute that cannot be read the inode says so. -/
structure Faults where
  /-- Directories. -/
  unreadable : RelPath → Bool
  /-- Entries of a directory that was opened. -/
  unlisted : RelPath → Bool
  /-- Entries without metadata. -/
  unstatted : RelPath → Bool

/-! ## The walk -/

section

variable (d : Disk) (faults : Faults)

/-- The entries of a directory that the walk comes by. -/
def entriesMet (dir : RelPath) : List RelPath :=
  d.paths.dedup.filter fun p ↦ p ≠ [] ∧ p.dropLast = dir ∧ ¬ faults.unlisted p
    ∧ ¬ faults.unstatted p

/-- The directories that are put on the stack when one is read. -/
def subdirs (dir : RelPath) : List RelPath := (entriesMet d faults dir).filter d.isDirAt

def directories : AList fun _ : RelPath ↦ List RelPath where
  entries := ([] :: d.paths).dedup.map fun p ↦ ⟨p, subdirs d faults p⟩
  nodupKeys := by
    rw [List.NodupKeys, List.keys, List.map_map]
    exact (List.map_id' _).symm ▸ List.nodup_dedup _

/-- The regular files that the walk comes by, without the framework's own. -/
def filesMet : List (RelPath × Inode) :=
  let dirs := Walk.walk (directories d faults) (fun dir ↦ !faults.unreadable dir) [[]]
  ((dirs.filter fun dir ↦ !faults.unreadable dir).flatMap (entriesMet d faults)).filterMap
    fun p ↦ (indexable d p).map (p, ·)

/-- Walk the sync root once: which paths hold a file, and which cloud ids sit on any of them. -/
def scanPresent : List RelPath × List String :=
  ((filesMet d faults).map Prod.fst, (filesMet d faults).filterMap fun e ↦ e.2.id.string)

end

/-! ## The journal -/

/-- The persistent presence journal: placeholders in the manifest, hydrated files in the lineage. -/
def journal (manifest : PathMap String String) (lineage : Lineage) :
    AList fun _ : RelPath ↦ String :=
  lineage.entries.foldr (fun e j ↦ j.insert e.1 e.2.cloudId)
    (manifest.entries.foldr (fun e j ↦ j.insert e.1 e.2) ∅)

/-- What is recorded of paths that are synced. -/
def recordedAs (manifest : PathMap String String) (lineage : Lineage) (ignore : IgnoreSet) :
    List (RelPath × String) :=
  ((journal manifest lineage).entries.map fun e ↦ (e.1, e.2)).filter fun e ↦ ¬ ignore.ignores e.1

/-- The most one removal batch may withdraw, given the tree it is part of. -/
def removalCeiling (known : ℕ) : ℕ := max 64 (known / 10)

def detectOfflineRemovals (manifest : PathMap String String) (lineage : Lineage)
    (ignore : IgnoreSet) (d : Disk) (faults : Faults) : List (RelPath × String) :=
  let recorded := recordedAs manifest lineage ignore
  if recorded.isEmpty then []
  else
    let known := recorded.length
    let (present, onDisk) := scanPresent d faults
    let gone := ((recorded.filter fun e ↦ e.1 ∉ present).filter fun e ↦ e.2 ∉ onDisk).mergeSort
      fun a b ↦ a.1.display < b.1.display ∨ a.1.display = b.1.display ∧ a.2 ≤ b.2
    if removalCeiling known < gone.length then [] else gone

/-! ## What is positively observed -/

/-- Everything is in a directory, and the root is not in any. -/
structure Disk.IsTree (d : Disk) : Prop where
  root : d.get [] = none
  parent : ∀ dir c, d.exists' (dir ++ [c]) = true → dir = [] ∨ d.isDirAt dir = true

/-- Every directory on the way to a path has been read, as far as there is one, and the entry in it
with its metadata, if there is one. -/
def Sees (d : Disk) (faults : Faults) (p : RelPath) : Prop :=
  ∀ dir c, dir ++ [c] <+: p → (dir = [] ∨ d.isDirAt dir = true) →
    faults.unreadable dir = false ∧ (d.exists' (dir ++ [c]) = true →
      faults.unlisted (dir ++ [c]) = false ∧ faults.unstatted (dir ++ [c]) = false)

/-- Every file has been seen, and its id attribute read. -/
def SeesAllIds (d : Disk) (faults : Faults) : Prop :=
  ∀ q i, indexable d q = some i → Sees d faults q ∧ ∀ e, i.id ≠ .unreadable e

/-- A path was observed to be absent, and every file not to carry the id. -/
structure PositivelyGone (d : Disk) (faults : Faults) (p : RelPath) (cloudId : String) : Prop where
  seen : Sees d faults p
  absent : indexable d p = none
  allSeen : SeesAllIds d faults
  uncarried : ∀ q i, indexable d q = some i → i.id.string ≠ some cloudId

/-- No file is seen at the path, and none that carries the id. -/
structure Missing (d : Disk) (faults : Faults) (p : RelPath) (cloudId : String) : Prop where
  path : ∀ i, indexable d p = some i → ¬ Sees d faults p
  id : ∀ q i, indexable d q = some i → Sees d faults q → i.id.string ≠ some cloudId

open scoped Classical in
/-- What is recorded and missing. -/
noncomputable def missing (manifest : PathMap String String) (lineage : Lineage)
    (ignore : IgnoreSet) (d : Disk) (faults : Faults) : List (RelPath × String) :=
  (recordedAs manifest lineage ignore).filter fun e ↦ Missing d faults e.1 e.2

/-- Only what was positively observed is returned, no ignored path is, and nothing at all where more
than the ceiling is missing. -/
structure OnlyPositive (manifest : PathMap String String) (lineage : Lineage) (ignore : IgnoreSet)
    (d : Disk) (faults : Faults) : Prop where
  positive : ∀ e ∈ detectOfflineRemovals manifest lineage ignore d faults,
    PositivelyGone d faults e.1 e.2
  unignored : ∀ e ∈ detectOfflineRemovals manifest lineage ignore d faults,
    ignore.ignores e.1 = false
  bounded : removalCeiling (recordedAs manifest lineage ignore).length
      < (missing manifest lineage ignore d faults).length →
    detectOfflineRemovals manifest lineage ignore d faults = []

/-! ## What the walk comes by -/

variable {d : Disk} {faults : Faults} {dir p q : RelPath} {i : Inode} {c : String}

theorem mem_entriesMet : p ∈ entriesMet d faults dir
    ↔ d.exists' p = true ∧ p ≠ [] ∧ p.dropLast = dir ∧ faults.unlisted p = false
      ∧ faults.unstatted p = false := by
  have hexists : p ∈ d.paths ↔ d.exists' p = true := by
    rw [PathMap.mem_paths, Disk.exists', Option.isSome_iff_exists]
  rw [entriesMet, List.mem_filter, List.mem_dedup, hexists]
  simp only [decide_eq_true_eq, Bool.not_eq_true]

theorem after_directories (h : dir = [] ∨ d.isDirAt dir = true) :
    Walk.after (directories d faults) dir = subdirs d faults dir := by
  have hmem : dir ∈ ([] :: d.paths).dedup := by
    rw [List.mem_dedup, List.mem_cons]
    refine h.imp_right fun hdir ↦ ?_
    rw [Disk.isDirAt, Option.any_eq_true] at hdir
    obtain ⟨i, hi, -⟩ := hdir
    exact PathMap.mem_paths.mpr ⟨i, hi⟩
  have hlookup : (directories d faults).lookup dir = some (subdirs d faults dir) :=
    AList.mem_lookup_iff.mpr (List.mem_map.mpr ⟨dir, hmem, rfl⟩)
  rw [Walk.after, hlookup, Option.getD_some]

theorem sees_nil : Sees d faults [] :=
  fun _ _ h ↦ absurd (List.prefix_nil.mp h) (List.append_ne_nil_of_right_ne_nil _ (by simp))

theorem sees_append_singleton : Sees d faults (dir ++ [c]) ↔ Sees d faults dir
    ∧ ((dir = [] ∨ d.isDirAt dir = true) → faults.unreadable dir = false
      ∧ (d.exists' (dir ++ [c]) = true →
        faults.unlisted (dir ++ [c]) = false ∧ faults.unstatted (dir ++ [c]) = false)) := by
  constructor
  · exact fun h ↦ ⟨fun a b hab ↦ h a b (hab.trans (List.prefix_append dir [c])),
      h dir c List.prefix_rfl⟩
  · rintro ⟨h, hlast⟩ a b hab
    rcases List.prefix_concat_iff.mp hab with heq | hprefix
    · obtain ⟨rfl, rfl⟩ : a = dir ∧ b = c := by simpa using List.append_inj' heq rfl
      exact hlast
    · exact h a b hprefix

theorem mem_subdirs : q ∈ subdirs d faults dir ↔ d.isDirAt q = true ∧ q ≠ [] ∧ q.dropLast = dir
    ∧ faults.unlisted q = false ∧ faults.unstatted q = false := by
  have hexists : d.isDirAt q = true → d.exists' q = true := by
    rw [Disk.isDirAt, Option.any_eq_true]
    rintro ⟨i, hi, -⟩
    rw [Disk.exists', hi]
    rfl
  rw [subdirs, List.mem_filter, mem_entriesMet]
  exact ⟨fun ⟨⟨_, hrest⟩, hdir⟩ ↦ ⟨hdir, hrest⟩, fun ⟨hdir, hrest⟩ ↦ ⟨⟨hexists hdir, hrest⟩, hdir⟩⟩

/-- **The walk gets to a directory if nothing on the way to it cannot be read.** -/
theorem reaches_iff (htree : d.IsTree) : Relation.ReflTransGen
      (Walk.Goes (directories d faults) fun dir ↦ !faults.unreadable dir) [] p
    ↔ Sees d faults p ∧ (p = [] ∨ d.isDirAt p = true) := by
  constructor
  · intro h
    induction h with
    | refl => exact ⟨sees_nil, Or.inl rfl⟩
    | @tail dir q _ hgoes ih =>
      obtain ⟨hopen, hq⟩ := hgoes
      rw [after_directories ih.2, mem_subdirs] at hq
      obtain ⟨hdir, hne, rfl, hlisted⟩ := hq
      have hsees : Sees d faults (q.dropLast ++ [q.getLast hne]) :=
        sees_append_singleton.mpr ⟨ih.1, fun _ ↦ ⟨by simpa using hopen, fun _ ↦ by
          rwa [List.dropLast_append_getLast hne]⟩⟩
      rw [List.dropLast_append_getLast hne] at hsees
      exact ⟨hsees, Or.inr hdir⟩
  · intro h
    induction p using List.reverseRecOn with
    | nil => exact .refl
    | append_singleton dir c ih =>
      obtain ⟨hsees, hentry⟩ := sees_append_singleton.mp h.1
      have hdir := h.2.resolve_left (by simp)
      have hexists : d.exists' (dir ++ [c]) = true := by
        rw [Disk.isDirAt, Option.any_eq_true] at hdir
        obtain ⟨i, hi, -⟩ := hdir
        rw [Disk.exists', hi]
        rfl
      have hparent := htree.parent dir c hexists
      obtain ⟨hopen, hlisted⟩ := hentry hparent
      refine (ih ⟨hsees, hparent⟩).tail ⟨by simpa using hopen, ?_⟩
      rw [after_directories hparent, mem_subdirs]
      exact ⟨hdir, by simp, by simp, hlisted hexists⟩

/-- The walk comes by the files that nothing hides. -/
theorem mem_filesMet (htree : d.IsTree) :
    (p, i) ∈ filesMet d faults ↔ indexable d p = some i ∧ Sees d faults p := by
  have hmet : (p, i) ∈ filesMet d faults ↔ indexable d p = some i
      ∧ ∃ dir, Sees d faults dir ∧ (dir = [] ∨ d.isDirAt dir = true)
        ∧ faults.unreadable dir = false ∧ p ∈ entriesMet d faults dir := by
    rw [filesMet, List.mem_filterMap]
    simp only [List.mem_flatMap, List.mem_filter, Walk.mem_walk, List.mem_singleton,
      exists_eq_left, Option.map_eq_some_iff, Prod.mk.injEq, reaches_iff htree,
      Bool.not_eq_true']
    constructor
    · rintro ⟨p', ⟨dir, ⟨⟨hsees, hdir⟩, hopen⟩, hp'⟩, i', hi', rfl, rfl⟩
      exact ⟨hi', dir, hsees, hdir, hopen, hp'⟩
    · rintro ⟨hi, dir, hsees, hdir, hopen, hp⟩
      exact ⟨p, ⟨dir, ⟨⟨hsees, hdir⟩, hopen⟩, hp⟩, i, hi, rfl, rfl⟩
  rw [hmet]
  refine and_congr_right fun hi ↦ ?_
  have hexists : d.exists' p = true := by
    have hget := ((Disk.fileAt_eq_some _).mp (Store.indexable_eq_some.mp hi).1).1
    rw [Disk.exists', hget]
    rfl
  constructor
  · rintro ⟨dir, hsees, hdir, hopen, hp⟩
    obtain ⟨-, hne, rfl, hlisted⟩ := mem_entriesMet.mp hp
    rw [← List.dropLast_append_getLast hne, sees_append_singleton,
      List.dropLast_append_getLast hne]
    exact ⟨hsees, fun _ ↦ ⟨hopen, fun _ ↦ hlisted⟩⟩
  · intro hsees
    have hne : p ≠ [] := by
      rintro rfl
      rw [Disk.exists', htree.root] at hexists
      cases hexists
    obtain ⟨dir, c, rfl⟩ : ∃ dir c, p = dir ++ [c] :=
      ⟨_, _, (List.dropLast_append_getLast hne).symm⟩
    obtain ⟨hdir, hentry⟩ := sees_append_singleton.mp hsees
    have hparent := htree.parent dir c hexists
    obtain ⟨hopen, hlisted⟩ := hentry hparent
    exact ⟨dir, hdir, hparent, hopen,
      mem_entriesMet.mpr ⟨hexists, hne, by simp, hlisted hexists⟩⟩

/-! ## What is returned -/

variable {manifest : PathMap String String} {lineage : Lineage} {ignore : IgnoreSet}
  {e : RelPath × String}

theorem missing_iff (htree : d.IsTree) : Missing d faults p c
    ↔ p ∉ (scanPresent d faults).1 ∧ c ∉ (scanPresent d faults).2 := by
  have hpath : p ∈ (scanPresent d faults).1 ↔ ∃ i, indexable d p = some i ∧ Sees d faults p := by
    simp only [scanPresent, List.mem_map, Prod.exists, exists_and_right, exists_eq_right,
      mem_filesMet htree]
  have hid : c ∈ (scanPresent d faults).2
      ↔ ∃ q i, indexable d q = some i ∧ Sees d faults q ∧ i.id.string = some c := by
    simp only [scanPresent, List.mem_filterMap, Prod.exists, mem_filesMet htree, and_assoc]
  rw [hpath, hid]
  exact ⟨fun h ↦ ⟨fun ⟨i, hi, hsees⟩ ↦ h.path i hi hsees,
      fun ⟨q, i, hi, hsees, hc⟩ ↦ h.id q i hi hsees hc⟩,
    fun h ↦ ⟨fun i hi hsees ↦ h.1 ⟨i, hi, hsees⟩,
      fun q i hi hsees hc ↦ h.2 ⟨q, i, hi, hsees, hc⟩⟩⟩

/-- What is missing is returned, sorted, unless it is more than the ceiling. -/
theorem detect_eq (htree : d.IsTree) : detectOfflineRemovals manifest lineage ignore d faults
    = if removalCeiling (recordedAs manifest lineage ignore).length
        < (missing manifest lineage ignore d faults).length then []
      else (missing manifest lineage ignore d faults).mergeSort
        fun a b ↦ a.1.display < b.1.display ∨ a.1.display = b.1.display ∧ a.2 ≤ b.2 := by
  have hgone : ((recordedAs manifest lineage ignore).filter fun e ↦
        e.1 ∉ (scanPresent d faults).1).filter (fun e ↦ e.2 ∉ (scanPresent d faults).2)
      = missing manifest lineage ignore d faults := by
    rw [List.filter_filter, missing]
    refine List.filter_congr fun e _ ↦ ?_
    rw [← Bool.decide_and]
    exact decide_eq_decide.mpr (and_comm.trans (missing_iff htree).symm)
  rw [detectOfflineRemovals]
  split
  · rename_i hempty
    have hnil : missing manifest lineage ignore d faults = [] := by
      rw [missing, List.isEmpty_iff.mp hempty, List.filter_nil]
    rw [hnil, List.mergeSort_nil, ite_self]
  · simp only [scanPresent] at hgone ⊢
    simp only [hgone, List.length_mergeSort]

theorem mem_detect (htree : d.IsTree) : e ∈ detectOfflineRemovals manifest lineage ignore d faults
    ↔ (missing manifest lineage ignore d faults).length
        ≤ removalCeiling (recordedAs manifest lineage ignore).length
      ∧ e ∈ missing manifest lineage ignore d faults := by
  rw [detect_eq htree]
  split
  · rename_i hmany
    exact ⟨fun h ↦ absurd h List.not_mem_nil, fun h ↦ absurd h.1 (Nat.not_le.mpr hmany)⟩
  · rename_i hfew
    rw [List.mem_mergeSort]
    exact (and_iff_right (Nat.not_lt.mp hfew)).symm

open scoped Classical in
theorem mem_missing : e ∈ missing manifest lineage ignore d faults
    ↔ e ∈ recordedAs manifest lineage ignore ∧ Missing d faults e.1 e.2 := by
  rw [missing, List.mem_filter, decide_eq_true_eq]

/-- **Offline removals are positive observations exactly if, unless nothing is missing or more than
the ceiling, every file was seen with its id, and so was every path that is missing.** -/
theorem onlyPositive_iff (manifest : PathMap String String) (lineage : Lineage)
    (ignore : IgnoreSet) (d : Disk) (faults : Faults) (htree : d.IsTree) :
    OnlyPositive manifest lineage ignore d faults
      ↔ ((missing manifest lineage ignore d faults).length
          ≤ removalCeiling (recordedAs manifest lineage ignore).length →
        ∀ e ∈ missing manifest lineage ignore d faults,
          Sees d faults e.1 ∧ SeesAllIds d faults) := by
  constructor
  · intro h hfew e he
    have hgone := h.positive e ((mem_detect htree).mpr ⟨hfew, he⟩)
    exact ⟨hgone.seen, hgone.allSeen⟩
  · intro h
    refine ⟨fun e he ↦ ?_, fun e he ↦ ?_, fun hmany ↦ ?_⟩
    · obtain ⟨hfew, hmissing⟩ := (mem_detect htree).mp he
      obtain ⟨hseen, hall⟩ := h hfew e hmissing
      have hmiss := (mem_missing.mp hmissing).2
      refine ⟨hseen, ?_, hall, fun q i hi ↦ hmiss.id q i hi (hall q i hi).1⟩
      exact Option.eq_none_iff_forall_ne_some.mpr fun i hi ↦ hmiss.path i hi hseen
    · have hrecorded := (mem_missing.mp ((mem_detect htree).mp he).2).1
      simpa using (List.mem_filter.mp hrecorded).2
    · rw [detect_eq htree, if_pos hmany]

/-! ## A directory that cannot be read -/

private def noRules : IgnoreSet := ⟨[], []⟩

private def dirInode : Inode :=
  ⟨⟨⟨1, 1⟩, 0, 0, 0⟩, true, .absent, .absent, .absent, .absent, false⟩

private def fileInode : Inode :=
  ⟨⟨⟨1, 2⟩, 1, 0, 0⟩, false, .text "A", .absent, .absent, .text "1", false⟩

/-- One file, in a directory. -/
private def oneFile : Disk := ⟨[(["a"], dirInode), (["a", "f"], fileInode)]⟩

private theorem oneFile_isTree : oneFile.IsTree := by
  refine ⟨rfl, fun dir c hexists ↦ ?_⟩
  obtain ⟨i, hi⟩ := Option.isSome_iff_exists.mp hexists
  have hmem : (dir ++ [c], i) ∈ oneFile.entries := PathMap.mem_of_get hi
  simp only [oneFile, List.mem_cons, Prod.mk.injEq, List.not_mem_nil, or_false] at hmem
  rcases hmem with ⟨hpath, -⟩ | ⟨hpath, -⟩
  · have h : dir ++ [c] = [] ++ ["a"] := hpath
    exact Or.inl (List.append_inj' h rfl).1
  · obtain ⟨rfl, -⟩ : dir = ["a"] ∧ c = "f" := by
      have h : dir ++ [c] = ["a"] ++ ["f"] := hpath
      simpa using List.append_inj' h rfl
    exact Or.inr (by decide)

private theorem oneFile_indexable {q : RelPath} {i : Inode} (h : indexable oneFile q = some i) :
    q = ["a", "f"] ∧ i = fileInode := by
  obtain ⟨hget, hdir⟩ := (Disk.fileAt_eq_some _).mp (Store.indexable_eq_some.mp h).1
  have hmem := PathMap.mem_of_get hget
  simp only [oneFile, List.mem_cons, Prod.mk.injEq, List.not_mem_nil, or_false] at hmem
  rcases hmem with ⟨-, rfl⟩ | hfile
  · cases hdir
  · exact hfile

/-- A second file was deleted, and everything could be read. -/
theorem deleted_positively : OnlyPositive ⟨[(["a", "f"], "A"), (["b"], "B")]⟩ ⟨[]⟩ noRules oneFile
    ⟨fun _ ↦ false, fun _ ↦ false, fun _ ↦ false⟩ := by
  have hsees : ∀ p, Sees oneFile ⟨fun _ ↦ false, fun _ ↦ false, fun _ ↦ false⟩ p :=
    fun _ _ _ _ _ ↦ ⟨rfl, fun _ ↦ ⟨rfl, rfl⟩⟩
  refine (onlyPositive_iff _ _ _ _ _ oneFile_isTree).mpr fun _ e _ ↦ ⟨hsees e.1, fun q i hi ↦ ?_⟩
  obtain ⟨-, rfl⟩ := oneFile_indexable hi
  exact ⟨hsees q, fun e h ↦ by cases h⟩

/-- The file is there, and is returned as deleted. -/
theorem hidden_returned : ¬ ∀ manifest lineage ignore (d : Disk) faults, d.IsTree →
    OnlyPositive manifest lineage ignore d faults := by
  intro hall
  have honly := hall ⟨[(["a", "f"], "A")]⟩ ⟨[]⟩ noRules oneFile
    ⟨fun dir ↦ dir = ["a"], fun _ ↦ false, fun _ ↦ false⟩ oneFile_isTree
  have hhidden : ¬ Sees oneFile ⟨fun dir ↦ dir = ["a"], fun _ ↦ false, fun _ ↦ false⟩
      ["a", "f"] := by
    intro h
    have hread := (h ["a"] "f" List.prefix_rfl (Or.inr (by decide))).1
    simp at hread
  have hmissing : (["a", "f"], "A") ∈ missing ⟨[(["a", "f"], "A")]⟩ ⟨[]⟩ noRules oneFile
      ⟨fun dir ↦ dir = ["a"], fun _ ↦ false, fun _ ↦ false⟩ := by
    refine mem_missing.mpr ⟨by decide, fun _ _ ↦ hhidden, fun q i hi hsees ↦ ?_⟩
    obtain ⟨rfl, -⟩ := oneFile_indexable hi
    exact absurd hsees hhidden
  have hfew : (missing ⟨[(["a", "f"], "A")]⟩ ⟨[]⟩ noRules oneFile
      ⟨fun dir ↦ dir = ["a"], fun _ ↦ false, fun _ ↦ false⟩).length
      ≤ removalCeiling (recordedAs ⟨[(["a", "f"], "A")]⟩ ⟨[]⟩ noRules).length :=
    (List.length_filter_le _ _).trans (by decide)
  have hgone := honly.positive _ ((mem_detect oneFile_isTree).mpr ⟨hfew, hmissing⟩)
  exact hhidden hgone.seen

end HydrationAPI.Client
