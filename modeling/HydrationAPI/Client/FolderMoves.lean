import HydrationAPI.Client.StaleWatches
import HydrationAPI.Client.SyncDir
import HydrationAPI.Lib.NamedTree

/-!
# Folder records and renames

Directories are renamed one after the other, and then the queue is drained. What is recorded of a
directory is kept under its path. At the second half of every rename the directories that have come
are walked, and what they carry is recorded where they are found; so that when the queue is empty
everything is recorded where it is.

Only then are the renames gone through again, in the order of a hash map, and what is found under
the source of one is put under its destination. Where another directory has come to the source, it
is the record of that one.
-/

namespace HydrationAPI.Client

namespace Removals

variable {r : Removals} {rel cloudId key : String} {etag : Option String}

/-! ## What is recorded -/

/-- What is recorded under a path. -/
abbrev recordAt (r : Removals) (key : String) : Option FolderRecord := r.folderRecords.lookup key

/-- What one step does of each key, all of them do. -/
theorem lookup_foldl_filter {f : AList (fun _ : String ↦ FolderRecord) → String → AList _}
    {P : FolderRecord → Bool} {ks : List String} {m : AList fun _ : String ↦ FolderRecord}
    (hf : ∀ m k, (f m k).lookup key = if k = key then (m.lookup key).filter P else m.lookup key) :
    (ks.foldl f m).lookup key = if key ∈ ks then (m.lookup key).filter P else m.lookup key := by
  induction ks generalizing m with
  | nil => rfl
  | cons k ks ih =>
    rw [List.foldl_cons, ih, hf]
    by_cases hk : k = key
    · rw [if_pos hk, if_pos (List.mem_cons.mpr (Or.inl hk.symm)), Option.filter_filter]
      simp
    · rw [if_neg hk]
      simp [Ne.symm hk]

/-- Under the path is the identity, and under no other. -/
theorem recordAt_rememberFolder (hrel : rel ≠ "") (hid : cloudId ≠ "") :
    (r.rememberFolder rel cloudId etag).recordAt key
      = if key = rel then some ⟨cloudId, etag⟩
        else (r.recordAt key).filter (·.cloudId ≠ cloudId) := by
  rw [rememberFolder, if_neg (by simp [hrel, hid]), recordAt]
  by_cases hkey : key = rel
  · subst hkey
    rw [if_pos rfl, AList.lookup_insert]
  · rw [if_neg hkey, AList.lookup_insert_ne hkey]
    refine (lookup_foldl_filter (P := (·.cloudId ≠ cloudId)) fun m k ↦ ?_).trans ?_
    · by_cases hk : k = key
      · subst hk
        rw [if_pos rfl]
        cases hm : m.lookup k with
        | none => exact hm
        | some record =>
          dsimp only
          by_cases hrecord : record.cloudId = cloudId
          · rw [if_neg (by simp [hkey, hrecord]), AList.lookup_erase]
            simp [Option.filter_some, hrecord]
          · rw [if_pos (Or.inr hrecord), hm]
            simp [Option.filter_some, hrecord]
      · rw [if_neg hk]
        split
        · split
          · rfl
          · exact AList.lookup_erase_ne (Ne.symm hk)
        · rfl
    · by_cases hmem : key ∈ r.folderRecords.keys
      · rw [if_pos hmem]
      · rw [if_neg hmem, recordAt, AList.lookup_eq_none.mpr hmem]
        rfl

/-- What a walk finds under a path is recorded there, and of no other path. -/
theorem recordAt_recordFolder {w : Walked} (hrel : w.rel ≠ "")
    (hfilled : ∀ record, w.record = some record → record.cloudId ≠ "") :
    (r.recordFolder w).recordAt key = if key = w.rel then w.record
      else (r.recordAt key).filter fun record ↦
        w.record.map FolderRecord.cloudId ≠ some record.cloudId := by
  rw [recordFolder, if_neg hrel]
  cases hrecord : w.record with
  | none =>
    dsimp only
    by_cases hkey : key = w.rel
    · rw [if_pos hkey, hkey, recordAt, AList.lookup_erase]
    · rw [if_neg hkey, recordAt, AList.lookup_erase_ne hkey]
      cases hold : AList.lookup key r.folderRecords <;> simp [recordAt, hold, Option.filter_some]
  | some record =>
    dsimp only
    rw [recordAt_rememberFolder hrel (hfilled record hrecord)]
    simp only [Option.map_some, ne_eq, Option.some_inj, eq_comm]

end Removals

namespace Inotify

/-! ## The directories -/

/-- The directories inside the sync root, each with the one that it is in and its name there. -/
abbrev Tree := Dir → Option (Dir × String)

/-- The directory is at this path below the sync root. -/
abbrev Tree.At (t : Tree) (d : Dir) (p : RelPath) : Prop := NamedTree.At t syncRoot d p

/-- Every name is one that a directory has. -/
def Tree.Named (t : Tree) : Prop := ∀ d l, t d = some l → l.2 ≠ "" ∧ '/' ∉ l.2.toList

/-- What the extended attributes of directories say, and keep to wherever they are moved. An
identity is that of one directory. -/
structure Identities where
  cloudId : Dir → Option String
  etag : Dir → Option String
  filled : ∀ d, cloudId d ≠ some ""
  distinct : ∀ d d' id, cloudId d = some id → cloudId d' = some id → d = d'

def Identities.record (ids : Identities) (d : Dir) : Option FolderRecord :=
  (ids.cloudId d).map fun id ↦ ⟨id, ids.etag d⟩

/-- What is read of an attribute at a path: that of the directory there, if there is one. -/
inductive Reads (t : Tree) (p : RelPath) (f : Dir → Option String) : Option String → Prop
  | dir {d : Dir} : t.At d p → Reads t p f (f d)
  | absent : (∀ d, ¬ t.At d p) → Reads t p f none

/-- What a walk finds at a path, each thing at a time of its own. -/
structure Finds (ids : Identities) (later : List Tree) (p : RelPath) (w : Walked) : Prop where
  rel : w.rel = p.display
  named : p.Named
  below : p ≠ []
  wd : ∀ d, w.wd = some d → ∃ t ∈ later, t.At d p
  cloudId : ∃ t ∈ later, Reads t p ids.cloudId (w.record.map FolderRecord.cloudId)
  etag : ∀ record, w.record = some record → ∃ t ∈ later, Reads t p ids.etag record.etag

/-- A walk below a path while the directories are moved on: it finds what it finds there at some
time, and every directory that is there all the time. -/
structure Sees (ids : Identities) (later : List Tree) (path : RelPath) (walk : List Walked) :
    Prop where
  finds : ∀ w ∈ walk, ∃ p, path <+: p ∧ Finds ids later p w
  stable : ∀ d (p : RelPath), path <+: p → (∀ t ∈ later, t.At d p) →
    ∃ w ∈ walk, w.wd = some d ∧ w.rel = p.display

/-- A rename of a directory, with its cookie and with what the walk finds when its second half is
read. -/
structure Rename extends NamedTree.Move Dir String where
  cookie : UInt32
  walk : List Walked

/-- What is queued of a rename. -/
def Rename.events (o : Rename) (t : Tree) : List Event :=
  match t o.member with
  | some (d, n) =>
    [⟨.movedFrom, d, o.cookie, true, some n, []⟩,
      ⟨.movedTo, o.parent, o.cookie, true, some o.name, o.walk⟩]
  | none => []

/-- What is queued of renames one after the other. -/
def renameEvents : Tree → List Rename → List Event
  | _, [] => []
  | t, o :: os => o.events t ++ renameEvents (o.apply t) os

/-- The trees from the first of the renames on. -/
def Tree.during (t : Tree) (os : List Rename) : List Tree :=
  NamedTree.trees t (os.map Rename.toMove)

/-- The tree that renames yield. -/
def Tree.after (t : Tree) (os : List Rename) : Tree := NamedTree.final t (os.map Rename.toMove)

/-- Renames of directories to free names, and what is seen of them: at the second half of each, the
directories below the path at which the new parent has been met last. -/
def Observed (ids : Identities) : Places → Tree → List Rename → Prop
  | _, _, [] => True
  | places, t, o :: os => (∃ p q, NamedTree.Movable t syncRoot o.member o.parent o.name p q)
      ∧ o.name ≠ "" ∧ '/' ∉ o.name.toList
      ∧ (∃ p : RelPath, p.Named ∧ places o.parent = some p.display
        ∧ Sees ids (Tree.during (o.apply t) os) (p ++ [o.name]) o.walk)
      ∧ Observed ids (places.meet o.walk) (o.apply t) os

/-- What is recorded is what the directories carry, each under its path. -/
def Keyed (ids : Identities) (t : Tree) (r : Removals) : Prop := ∀ key record,
  r.recordAt key = some record
    ↔ ∃ d, ∃ p : RelPath, p ≠ [] ∧ t.At d p ∧ p.display = key ∧ ids.record d = some record

/-! ## A walk -/

variable {ids : Identities} {later : List Tree} {t : Tree} {p q : RelPath} {d : Dir} {w : Walked}
  {walk : List Walked} {r : Removals}

theorem Reads.eq {f : Dir → Option String} {value : Option String} (h : Reads t p f value)
    (ht : NamedTree.Proper t syncRoot) (hd : t.At d p) : value = f d := by
  cases h with
  | dir hd' => rw [hd'.injective ht hd]
  | absent hnone => exact absurd hd (hnone d)

/-- A record that is found is of a directory that is there at some time. -/
theorem Finds.owner (h : Finds ids later p w) {record : FolderRecord}
    (hrecord : w.record = some record) :
    ∃ t ∈ later, ∃ d, t.At d p ∧ ids.cloudId d = some record.cloudId := by
  obtain ⟨t, ht, hreads⟩ := h.cloudId
  rw [hrecord, Option.map_some] at hreads
  generalize hvalue : some record.cloudId = value at hreads
  cases hreads with
  | dir hd => exact ⟨t, ht, _, hd, rfl⟩
  | absent _ => cases hvalue

/-- Of a directory that is there all the time it is the record. -/
theorem Finds.record_eq (h : Finds ids later p w)
    (hlater : ∀ t ∈ later, NamedTree.Proper t syncRoot) (hd : ∀ t ∈ later, t.At d p) :
    w.record = ids.record d := by
  obtain ⟨t, ht, hreads⟩ := h.cloudId
  have hid := hreads.eq (hlater t ht) (hd t ht)
  cases hrecord : w.record with
  | none =>
    rw [hrecord, Option.map_none] at hid
    rw [Identities.record, ← hid, Option.map_none]
  | some record =>
    rw [hrecord, Option.map_some] at hid
    obtain ⟨u, hu, hreads⟩ := h.etag record hrecord
    rw [Identities.record, ← hid, Option.map_some, ← hreads.eq (hlater u hu) (hd u hu)]

theorem Finds.rel_ne (h : Finds ids later p w) : w.rel ≠ "" := h.rel ▸ h.named.display_ne h.below

theorem Finds.recordAt (h : Finds ids later p w) (key : String) :
    ((r.addOne w).recordFolder w).recordAt key = if key = w.rel then w.record
      else (r.recordAt key).filter fun record ↦
        w.record.map FolderRecord.cloudId ≠ some record.cloudId := by
  have hfilled : ∀ record, w.record = some record → record.cloudId ≠ "" := by
    rintro record hrecord hempty
    obtain ⟨-, -, d, -, hd⟩ := h.owner hrecord
    exact ids.filled d (hempty ▸ hd)
  rw [Removals.recordAt_recordFolder h.rel_ne hfilled, Removals.addOne]
  cases w.wd <;> rfl

/-- The map has the directory at the path, and its record is under it. -/
structure Knows (ids : Identities) (r : Removals) (d : Dir) (p : RelPath) : Prop where
  dir : r.dirs.lookup d = some p.display
  record : p ≠ [] → ∀ record, ids.record d = some record → r.recordAt p.display = some record

section

variable (hlater : ∀ t ∈ later, NamedTree.Proper t syncRoot) (hp : p.Named)
  (hd : ∀ t ∈ later, t.At d p)

include hlater hp hd

/-- What a walk finds changes nothing of a directory that stays where it is known, and a directory
that stays is known when it is found. -/
theorem Knows.visit (hfinds : Finds ids later q w)
    (h : Knows ids r d p ∨ w.wd = some d ∧ w.rel = p.display) :
    Knows ids ((r.addOne w).recordFolder w) d p := by
  constructor
  · rw [Removals.dirs_recordFolder, Removals.addOne]
    cases hwd : w.wd with
    | none => exact (h.resolve_right fun hnew ↦ by simp [hwd] at hnew).dir
    | some k =>
      dsimp only
      by_cases hk : d = k
      · subst hk
        obtain ⟨t, ht, hq⟩ := hfinds.wd d hwd
        rw [AList.lookup_insert, hfinds.rel, hq.unique (hlater t ht) (hd t ht)]
      · rw [AList.lookup_insert_ne hk]
        exact (h.resolve_right fun hnew ↦ hk (Option.some_inj.mp (hwd ▸ hnew.1)).symm).dir
  · intro hnil record hrecord
    rw [hfinds.recordAt]
    by_cases hkey : p.display = w.rel
    · obtain rfl := hp.display_inj hfinds.named (hkey.trans hfinds.rel)
      rw [if_pos hkey, hfinds.record_eq hlater hd, hrecord]
    · have hold := (h.resolve_right fun hnew ↦ hkey hnew.2.symm).record hnil record hrecord
      rw [if_neg hkey, hold, Option.filter_some_eq_some, decide_eq_true_eq]
      intro hsame
      obtain ⟨new, hnew, hid⟩ := Option.map_eq_some_iff.mp hsame
      obtain ⟨t, ht, d', hd', hid'⟩ := hfinds.owner hnew
      obtain ⟨id, hd'', rfl⟩ := Option.map_eq_some_iff.mp hrecord
      obtain rfl := ids.distinct d' d id (hid'.trans (congrArg some hid)) hd''
      exact hkey ((hfinds.rel).trans (hd'.unique (hlater t ht) (hd t ht) ▸ rfl)).symm

theorem Knows.addTree (hfinds : ∀ w ∈ walk, ∃ q, Finds ids later q w)
    (h : Knows ids r d p ∨ ∃ w ∈ walk, w.wd = some d ∧ w.rel = p.display) :
    Knows ids (r.addTree walk) d p := by
  induction walk generalizing r with
  | nil => exact h.resolve_right fun ⟨w, hw, _⟩ ↦ List.not_mem_nil hw
  | cons w walk ih =>
    obtain ⟨⟨q, hq⟩, hfinds⟩ := List.forall_mem_cons.mp hfinds
    rw [Removals.addTree, List.foldl_cons, ← Removals.addTree]
    refine ih hfinds ?_
    rcases h with h | ⟨w', hw', hmet⟩
    · exact Or.inl (Knows.visit hlater hp hd hq (Or.inl h))
    · rcases List.mem_cons.mp hw' with rfl | hw'
      · exact Or.inl (Knows.visit hlater hp hd hq (Or.inr hmet))
      · exact Or.inr ⟨w', hw', hmet⟩

end

/-- Every record is of a directory in the tree, and no two are of one. -/
structure Owned (ids : Identities) (last : Tree) (r : Removals) : Prop where
  owner : ∀ key record, r.recordAt key = some record →
    ∃ d p, d ≠ syncRoot ∧ last.At d p ∧ ids.cloudId d = some record.cloudId
  single : ∀ key key' record record', r.recordAt key = some record →
    r.recordAt key' = some record' → record.cloudId = record'.cloudId → key = key'

variable {last : Tree}

theorem Owned.visit (h : Owned ids last r) (hlater : ∀ t ∈ later, NamedTree.Proper t syncRoot)
    (hlast : ∀ t ∈ later, ∀ d p, t.At d p → ∃ p', last.At d p') (hfinds : Finds ids later q w) :
    Owned ids last ((r.addOne w).recordFolder w) := by
  constructor
  · intro key record hrecord
    rw [hfinds.recordAt] at hrecord
    split at hrecord
    · obtain ⟨t, ht, d, hd, hid⟩ := hfinds.owner hrecord
      obtain ⟨p, hp⟩ := hlast t ht d q hd
      refine ⟨d, p, ?_, hp, hid⟩
      rintro rfl
      exact hfinds.below (hd.unique (hlater t ht) .root)
    · exact h.owner key record (Option.eq_some_of_filter_eq_some hrecord)
  · intro key key' record record' hrecord hrecord' hid
    rw [hfinds.recordAt] at hrecord hrecord'
    by_cases hkey : key = w.rel
    · by_cases hkey' : key' = w.rel
      · rw [hkey, hkey']
      · rw [if_pos hkey] at hrecord
        rw [if_neg hkey', Option.filter_eq_some_iff, decide_eq_true_eq, hrecord, Option.map_some,
          hid] at hrecord'
        exact absurd rfl hrecord'.2
    · rw [if_neg hkey, Option.filter_eq_some_iff, decide_eq_true_eq] at hrecord
      by_cases hkey' : key' = w.rel
      · rw [if_pos hkey'] at hrecord'
        rw [hrecord', Option.map_some, hid] at hrecord
        exact absurd rfl hrecord.2
      · rw [if_neg hkey'] at hrecord'
        exact h.single key key' record record' hrecord.1 (Option.eq_some_of_filter_eq_some hrecord')
          hid

theorem Owned.addTree (h : Owned ids last r) (hlater : ∀ t ∈ later, NamedTree.Proper t syncRoot)
    (hlast : ∀ t ∈ later, ∀ d p, t.At d p → ∃ p', last.At d p')
    (hfinds : ∀ w ∈ walk, ∃ q, Finds ids later q w) : Owned ids last (r.addTree walk) := by
  induction walk generalizing r with
  | nil => exact h
  | cons w walk ih =>
    obtain ⟨⟨q, hq⟩, hfinds⟩ := List.forall_mem_cons.mp hfinds
    rw [Removals.addTree, List.foldl_cons, ← Removals.addTree]
    exact ih (h.visit hlater hlast hq) hfinds

/-! ## Reading renames -/

variable {places : Places} {o : Rename} {os : List Rename} {s : Reading} {e : Event}

theorem locate_of_lookup {dir name : String} (hdir : r.dirs.lookup e.wd = some dir)
    (hname : e.name = some name) (hne : name ≠ "") : r.locate e = some (join dir name) := by
  rw [Removals.locate, hdir, hname, Option.getD_some, join]
  by_cases hroot : dir = "" <;> simp [hroot]

theorem removals_read_movedFrom (hkind : e.kind = .movedFrom) :
    (s.read e).removals = s.removals := by
  rw [Reading.read, hkind]
  dsimp only
  split
  · rw [Reading.readAt, hkind]
  · rfl

theorem removals_read_movedTo {path : String} (hkind : e.kind = .movedTo) (hdir : e.isDir = true)
    (hpath : s.removals.locate e = some path) :
    (s.read e).removals = s.removals.addTree e.walk := by
  rw [Reading.read, hkind]
  dsimp only
  rw [hpath]
  dsimp only
  rw [Reading.readAt, hkind]
  dsimp only
  rw [if_pos hdir]

/-- A walk takes the directories that it meets into the map. -/
theorem dirs_addTree (h : ∀ d, r.dirs.lookup d = places d) :
    ∀ d, (r.addTree walk).dirs.lookup d = places.meet walk d := by
  induction walk generalizing r places with
  | nil => exact h
  | cons w walk ih =>
    rw [Removals.addTree, List.foldl_cons, ← Removals.addTree, Places.meet, List.foldl_cons,
      ← Places.meet]
    refine ih fun d ↦ ?_
    rw [Removals.dirs_recordFolder, Removals.addOne]
    cases w.wd with
    | none => exact h d
    | some k =>
      dsimp only
      by_cases hk : d = k
      · rw [hk, AList.lookup_insert, Function.update_self]
      · rw [AList.lookup_insert_ne hk, Function.update_of_ne hk, h d]

theorem Places.meet_ne_none (h : places d ≠ none) : places.meet walk d ≠ none := by
  induction walk generalizing places with
  | nil => exact h
  | cons w walk ih =>
    rw [Places.meet, List.foldl_cons, ← Places.meet]
    refine ih ?_
    cases w.wd with
    | none => exact h
    | some k =>
      dsimp only
      by_cases hk : d = k
      · rw [hk, Function.update_self]
        exact Option.some_ne_none _
      · rwa [Function.update_of_ne hk]

/-- The paths that are made up of a rename when its events are read. -/
structure Reread where
  cookie : UInt32
  src : String
  dst : String
  deriving DecidableEq

/-- The one of this rename, where its directories have been met last. -/
def Rename.reread (o : Rename) (places : Places) (t : Tree) : Option Reread :=
  match t o.member with
  | some (d, n) =>
    match places d, places o.parent with
    | some src, some dst => some ⟨o.cookie, join src n, join dst o.name⟩
    | _, _ => none
  | none => none

def rereads : Places → Tree → List Rename → List Reread
  | _, _, [] => []
  | places, t, o :: os =>
    (o.reread places t).toList ++ rereads (places.meet o.walk) (o.apply t) os

def Reread.half (x : Reread) : Bool → Half
  | false => ⟨x.cookie, some x.src, true⟩
  | true => ⟨x.cookie, some x.dst, true⟩

/-- A tree of directories, and renames that it can be led through. -/
structure Tree.Sound (t : Tree) (os : List Rename) : Prop where
  proper : NamedTree.Proper t syncRoot
  named : t.Named
  movable : NamedTree.AllMovable t syncRoot (os.map Rename.toMove)
  names : ∀ o ∈ os, o.name ≠ "" ∧ '/' ∉ o.name.toList

theorem Tree.Named.at (ht : t.Named) (hd : t.At d p) : p.Named := by
  induction hd with
  | root => exact fun _ h ↦ absurd h List.not_mem_nil
  | sub hd _ ih =>
    intro n hn
    rcases List.mem_append.mp hn with hn | hn
    · exact ih n hn
    · rw [List.mem_singleton.mp hn]
      exact ht _ _ hd

theorem Tree.Sound.tail (h : t.Sound (o :: os)) : Tree.Sound (o.apply t) os := by
  obtain ⟨⟨p, q, hm⟩, hms⟩ := h.movable
  refine ⟨hm.proper h.proper, fun d l hd ↦ ?_, hms,
    fun o' ho ↦ h.names o' (List.mem_cons_of_mem o ho)⟩
  rw [NamedTree.Move.apply, NamedTree.move] at hd
  by_cases hmember : d = o.member
  · subst hmember
    rw [Function.update_self, Option.some_inj] at hd
    exact hd ▸ h.names o List.mem_cons_self
  · rw [Function.update_of_ne hmember] at hd
    exact h.named d l hd

theorem Tree.Sound.during (h : t.Sound os) : ∀ u ∈ t.during os, NamedTree.Proper u syncRoot :=
  NamedTree.proper_of_mem_trees h.proper h.movable

theorem Observed.sound (h : Observed ids places t os) (hproper : NamedTree.Proper t syncRoot)
    (hnamed : t.Named) : t.Sound os := by
  have hmoves : NamedTree.AllMovable t syncRoot (os.map Rename.toMove)
      ∧ ∀ o ∈ os, o.name ≠ "" ∧ '/' ∉ o.name.toList := by
    clear hproper hnamed
    induction os generalizing places t with
    | nil => exact ⟨trivial, fun _ h ↦ absurd h List.not_mem_nil⟩
    | cons o os ih =>
      obtain ⟨hm, hne, hslash, -, hrest⟩ := h
      obtain ⟨hms, hnames⟩ := ih hrest
      exact ⟨⟨hm, hms⟩, List.forall_mem_cons.mpr ⟨⟨hne, hslash⟩, hnames⟩⟩
  exact ⟨hproper, hnamed, hmoves.1, hmoves.2⟩

/-- What is kept to between the renames: everything that stays where it is from now on is known, and
nothing but directories is recorded. -/
structure Tracked (ids : Identities) (t : Tree) (os : List Rename) (r : Removals) : Prop where
  knows : ∀ d p, (∀ u ∈ t.during os, u.At d p) → Knows ids r d p
  owned : Owned ids (t.after os) r

/-- **One rename.** What stays from now on has stayed before, or is found beneath what has come. -/
theorem Tracked.read (h : Tracked ids t (o :: os) r) (ht : t.Sound (o :: os))
    (hparent : r.dirs.lookup o.parent = some p.display) (hp : p.Named)
    (hsees : Sees ids (Tree.during (o.apply t) os) (p ++ [o.name]) o.walk) :
    Tracked ids (o.apply t) os (r.addTree o.walk) := by
  have hrest := ht.tail
  have hfinds : ∀ w ∈ o.walk, ∃ q, Finds ids (Tree.during (o.apply t) os) q w := fun w hw ↦
    (hsees.finds w hw).imp fun _ h ↦ h.2
  refine ⟨fun d q hd ↦ ?_, h.owned.addTree hrest.during ?_ hfinds⟩
  · have hnamed : q.Named := hrest.named.at (hd _ NamedTree.mem_trees_self)
    refine Knows.addTree hrest.during hnamed hd hfinds ?_
    obtain ⟨⟨pc, q', hm⟩, hms⟩ := ht.movable
    rcases NamedTree.Settled.before ht.proper hm hms hd with hbefore | ⟨tail, rfl, hstays⟩
    · exact Or.inl (h.knows d q hbefore)
    · have hwhere := (h.knows _ _ hstays).dir
      rw [hparent, Option.some_inj] at hwhere
      obtain rfl := hp.display_inj (ht.named.at hm.parent) hwhere
      exact Or.inr (hsees.stable d _ (List.prefix_append _ _) hd)
  · exact NamedTree.exists_at_final hrest.proper hrest.movable

/-- **What has been recorded when all is read** is where it is. -/
theorem Tracked.keyed (h : Tracked ids t [] r) (ht : t.Sound []) : Keyed ids t r := by
  have hknows : ∀ d p, t.At d p → Knows ids r d p := fun d p hd ↦
    h.knows d p (NamedTree.settled_nil.mpr hd)
  intro key record
  constructor
  · intro hrecord
    obtain ⟨d, p, hne, hd, hid⟩ := h.owned.owner key record hrecord
    have hd : t.At d p := hd
    have hnil : p ≠ [] := by
      rintro rfl
      exact hne (hd.injective ht.proper .root)
    have hthere := (hknows d p hd).record hnil ⟨record.cloudId, ids.etag d⟩ (by
      rw [Identities.record, hid, Option.map_some])
    obtain rfl := h.owned.single _ _ _ _ hrecord hthere rfl
    refine ⟨d, p, hnil, hd, rfl, ?_⟩
    rw [Identities.record, hid, Option.map_some, ← Option.some_inj.mp (hthere.symm.trans hrecord)]
  · rintro ⟨d, p, hnil, hd, rfl, hrecord⟩
    exact (hknows d p hd).record hnil record hrecord

theorem Tree.Sound.after (h : t.Sound os) : Tree.Sound (t.after os) [] := by
  induction os generalizing t with
  | nil => exact h
  | cons o os ih => exact ih h.tail

/-! ## Reading all of them -/

theorem halves_append (dst : Bool) (es es' : List Event) : Reading.halves dst s (es ++ es')
    = Reading.halves dst s es ++ Reading.halves dst (es.foldl Reading.read s) es' := by
  induction es generalizing s with
  | nil => rfl
  | cons e es ih =>
    rw [List.cons_append, Reading.halves, Reading.halves, ih, List.foldl_cons]
    split <;> rfl

theorem lost_addTree : (r.addTree walk).lost = r.lost := by
  induction walk generalizing r with
  | nil => rfl
  | cons w walk ih =>
    have hadd : (r.addOne w).lost = r.lost := by
      rw [Removals.addOne]
      split <;> rfl
    rw [Removals.addTree, List.foldl_cons, ← Removals.addTree, ih, ← hadd, Removals.recordFolder]
    split
    · rfl
    · split
      · rfl
      · rw [Removals.rememberFolder]
        split <;> rfl

/-- Every directory has been met somewhere. -/
def Met (places : Places) (t : Tree) : Prop := ∀ d p, t.At d p → places d ≠ none

theorem Met.tail (h : Met places t) (ht : t.Sound (o :: os)) :
    Met (places.meet o.walk) (o.apply t) := by
  obtain ⟨⟨p, q, hm⟩, -⟩ := ht.movable
  intro d p' hd
  refine Places.meet_ne_none ?_
  rcases hm.came ht.proper hd with ⟨hd, -⟩ | ⟨tail, -, hd⟩
  · exact h d _ hd
  · exact h d _ hd

/-- The two events of a rename. -/
theorem read_events (hplaces : ∀ d, s.removals.dirs.lookup d = places d) (hmet : Met places t)
    (ht : t.Sound (o :: os)) :
    ((o.events t).foldl Reading.read s).removals = s.removals.addTree o.walk
      ∧ (∀ dst, Reading.halves dst s (o.events t)
        = (o.reread places t).toList.map fun x ↦ x.half dst)
      ∧ ∃ src dst, o.reread places t = some ⟨o.cookie, src, dst⟩ := by
  obtain ⟨⟨p, q, hm⟩, -⟩ := ht.movable
  have hname := (ht.names o List.mem_cons_self).1
  rcases hm.member.inv with ⟨hroot, -⟩ | ⟨d, n, q', hd, hdq, -⟩
  · exact absurd hroot hm.inner
  · obtain ⟨src, hsrc⟩ := Option.ne_none_iff_exists'.mp (hmet d q' hdq)
    obtain ⟨dst, hdst⟩ := Option.ne_none_iff_exists'.mp (hmet o.parent q hm.parent)
    have hreread : o.reread places t = some ⟨o.cookie, join src n, join dst o.name⟩ := by
      rw [Rename.reread, hd]
      dsimp only
      rw [hsrc, hdst]
    have hfrom : s.removals.locate ⟨.movedFrom, d, o.cookie, true, some n, []⟩
        = some (join src n) :=
      locate_of_lookup ((hplaces d).trans hsrc) rfl (ht.named _ _ hd).1
    have hremovals : (s.read ⟨.movedFrom, d, o.cookie, true, some n, []⟩).removals = s.removals :=
      removals_read_movedFrom rfl
    have hto : (s.read ⟨.movedFrom, d, o.cookie, true, some n, []⟩).removals.locate
        ⟨.movedTo, o.parent, o.cookie, true, some o.name, o.walk⟩ = some (join dst o.name) := by
      rw [hremovals]
      exact locate_of_lookup ((hplaces o.parent).trans hdst) rfl hname
    have hevents : o.events t = [⟨.movedFrom, d, o.cookie, true, some n, []⟩,
        ⟨.movedTo, o.parent, o.cookie, true, some o.name, o.walk⟩] := by
      rw [Rename.events, hd]
    refine ⟨?_, fun side ↦ ?_, _, _, hreread⟩
    · rw [hevents, List.foldl_cons, List.foldl_cons, List.foldl_nil,
        removals_read_movedTo rfl rfl hto, hremovals]
    · rw [hevents, hreread, Reading.halves, Reading.halves, Reading.halves, hfrom, hto]
      cases side <;> rfl

/-- **When all renames have been read** everything recorded is where it is, and their halves are
with the paths that were made up of them. -/
theorem read_renames (hplaces : ∀ d, s.removals.dirs.lookup d = places d) (hmet : Met places t)
    (ht : t.Sound os) (hobserved : Observed ids places t os) (h : Tracked ids t os s.removals) :
    Keyed ids (t.after os) ((renameEvents t os).foldl Reading.read s).removals
      ∧ ((renameEvents t os).foldl Reading.read s).removals.lost = s.removals.lost
      ∧ (∀ dst, Reading.halves dst s (renameEvents t os)
        = (rereads places t os).map fun x ↦ x.half dst)
      ∧ (rereads places t os).map Reread.cookie = os.map Rename.cookie := by
  induction os generalizing places t s with
  | nil => exact ⟨h.keyed ht, rfl, fun _ ↦ rfl, rfl⟩
  | cons o os ih =>
    obtain ⟨-, -, -, ⟨p, hp, hparent, hsees⟩, hrest⟩ := hobserved
    obtain ⟨hremovals, hhalves, src, dst, hreread⟩ := read_events hplaces hmet ht
    have htracked := h.read ht ((hplaces o.parent).trans hparent) hp hsees
    rw [← hremovals] at htracked
    have hplaces' : ∀ d, ((o.events t).foldl Reading.read s).removals.dirs.lookup d
        = places.meet o.walk d := by
      rw [hremovals]
      exact dirs_addTree hplaces
    obtain ⟨hkeyed, hlost, hhalves', hcookies⟩ := ih hplaces' (hmet.tail ht) ht.tail hrest htracked
    rw [renameEvents, rereads, List.foldl_append]
    refine ⟨hkeyed, ?_, fun side ↦ ?_, ?_⟩
    · rw [hlost, hremovals, lost_addTree]
    · rw [halves_append, hhalves, hhalves', List.map_append]
    · rw [List.map_append, hcookies, hreread]
      rfl

/-- The watcher between two drains: the map has every directory where it is, and what is recorded is
keyed by where it is. -/
structure Watching (ids : Identities) (t : Tree) (r : Removals) : Prop where
  proper : NamedTree.Proper t syncRoot
  named : t.Named
  dirs : ∀ d p, t.At d p → r.dirs.lookup d = some (RelPath.display p)
  keyed : Keyed ids t r

/-- Of different paths different identities are recorded. -/
theorem Keyed.single (h : Keyed ids t r) (ht : NamedTree.Proper t syncRoot) {key key' : String}
    {record record' : FolderRecord} (hrecord : r.recordAt key = some record)
    (hrecord' : r.recordAt key' = some record') (hid : record.cloudId = record'.cloudId) :
    key = key' := by
  obtain ⟨d, p, -, hd, rfl, hr⟩ := (h key record).mp hrecord
  obtain ⟨d', p', -, hd', rfl, hr'⟩ := (h key' record').mp hrecord'
  obtain ⟨id, hcarried, rfl⟩ := Option.map_eq_some_iff.mp hr
  obtain ⟨id', hcarried', rfl⟩ := Option.map_eq_some_iff.mp hr'
  obtain rfl : id = id' := hid
  obtain rfl := ids.distinct d d' id hcarried hcarried'
  rw [hd.unique ht hd']

theorem Watching.tracked (h : Watching ids t r) (ht : t.Sound os) :
    Tracked ids t os r.start.removals := by
  refine ⟨fun d p hd ↦ ?_, fun key record hrecord ↦ ?_, fun key key' record record' ↦
    h.keyed.single h.proper⟩
  · have hnow : t.At d p := hd _ NamedTree.mem_trees_self
    exact ⟨h.dirs d p hnow, fun hnil record hrecord ↦
      (h.keyed _ record).mpr ⟨d, p, hnil, hnow, rfl, hrecord⟩⟩
  · obtain ⟨d, p, hnil, hd, -, hr⟩ := (h.keyed key record).mp hrecord
    obtain ⟨id, hid, rfl⟩ := Option.map_eq_some_iff.mp hr
    obtain ⟨p', hp'⟩ :=
      NamedTree.exists_at_final ht.proper ht.movable _ NamedTree.mem_trees_self d p hd
    refine ⟨d, p', ?_, hp', hid⟩
    rintro rfl
    exact hnil (hd.unique ht.proper .root)

end Inotify

/-! ## Settling -/

namespace Removals

variable {r : Removals} {key id : String} {renamed : List Renamed} {item : Renamed}

theorem recordAt_reportMovedOut (out : Batch) (items : List MoveHalf) :
    (r.reportMovedOut out items).1.recordAt key
      = if ∃ v ∈ items, v.isDir = true ∧ v.path = key then none else r.recordAt key := by
  induction items generalizing r out with
  | nil => simp [reportMovedOut]
  | cons item items ih =>
    rw [reportMovedOut]
    simp only [List.exists_mem_cons_iff]
    split
    · rename_i hdir
      rw [ih, folderGone]
      by_cases hkey : item.path = key
      · simp [recordAt, hkey, hdir, AList.lookup_erase]
      · simp [recordAt, hkey, AList.lookup_erase_ne (Ne.symm hkey)]
    · rename_i hfile
      rw [ih]
      simp [hfile]

theorem moveRecords_cons :
    r.moveRecords (item :: renamed) = (r.moveRecords [item]).moveRecords renamed := rfl

theorem moveRecords_concat :
    r.moveRecords (renamed ++ [item]) = (r.moveRecords renamed).moveRecords [item] :=
  List.foldl_append

/-- A rename of what is not recorded, or to where it was, moves no record. -/
theorem recordAt_moveRecord_of_idle (hroot : r.recordAt "" = none)
    (hfilled : ∀ key record, r.recordAt key = some record → record.cloudId ≠ "")
    (hsingle : ∀ key key' record record', r.recordAt key = some record →
      r.recordAt key' = some record' → record.cloudId = record'.cloudId → key = key')
    (hidle : item.src ≠ item.dst → r.recordAt item.src = none) :
    (r.moveRecords [item]).recordAt key = r.recordAt key := by
  rw [moveRecords, List.foldl_cons, List.foldl_nil]
  split
  · cases hrecord : r.folderRecords.lookup item.src with
    | none => rfl
    | some record =>
      dsimp only
      have hsame : item.src = item.dst := by
        by_contra hne
        exact Option.some_ne_none _ (hrecord.symm.trans (hidle hne))
      have hdst : item.dst ≠ "" := by
        intro hempty
        rw [hsame, hempty] at hrecord
        exact Option.some_ne_none _ (hrecord.symm.trans hroot)
      rw [recordAt_rememberFolder hdst (hfilled _ _ hrecord), ← hsame]
      by_cases hkey : key = item.src
      · rw [if_pos hkey, hkey, recordAt, hrecord]
      · rw [if_neg hkey, recordAt, AList.lookup_erase_ne hkey]
        cases hold : r.folderRecords.lookup key with
        | none => rw [Option.filter_none, recordAt, hold]
        | some old =>
          rw [recordAt, hold, Option.filter_some_eq_some, decide_eq_true_eq]
          exact fun hid ↦ hkey (hsingle _ _ _ _ hold hrecord hid)
  · rfl

theorem recordAt_moveRecords_of_idle (hroot : r.recordAt "" = none)
    (hfilled : ∀ key record, r.recordAt key = some record → record.cloudId ≠ "")
    (hsingle : ∀ key key' record record', r.recordAt key = some record →
      r.recordAt key' = some record' → record.cloudId = record'.cloudId → key = key')
    (hidle : ∀ item ∈ renamed, item.src ≠ item.dst → r.recordAt item.src = none) :
    ∀ key, (r.moveRecords renamed).recordAt key = r.recordAt key := by
  induction renamed generalizing r with
  | nil => exact fun _ ↦ rfl
  | cons item renamed ih =>
    obtain ⟨hidle', hidle⟩ := List.forall_mem_cons.mp hidle
    have hone : ∀ key, (r.moveRecords [item]).recordAt key = r.recordAt key := fun _ ↦
      recordAt_moveRecord_of_idle hroot hfilled hsingle hidle'
    intro key
    rw [moveRecords_cons, ih, hone]
    · exact (hone "").trans hroot
    · exact fun key record hrecord ↦ hfilled key record (hone key ▸ hrecord)
    · exact fun key key' record record' hrecord hrecord' ↦
        hsingle key key' record record' (hone key ▸ hrecord) (hone key' ▸ hrecord')
    · exact fun item hitem hne ↦ (hone _).trans (hidle item hitem hne)

/-- After a rename nothing is recorded under its source. -/
theorem recordAt_moveRecord_src (hdir : item.isDir = true) (hne : item.src ≠ item.dst) :
    (r.moveRecords [item]).recordAt item.src = none := by
  rw [moveRecords, List.foldl_cons, List.foldl_nil, if_pos hdir]
  cases hrecord : r.folderRecords.lookup item.src with
  | none => exact hrecord
  | some record =>
    dsimp only
    have herased : recordAt { r with folderRecords := r.folderRecords.erase item.src } item.src
        = none := AList.lookup_erase _ _
    by_cases hnot : item.dst = "" ∨ record.cloudId = ""
    · rw [rememberFolder, if_pos hnot, herased]
    · rw [not_or] at hnot
      rw [recordAt_rememberFolder hnot.1 hnot.2, if_neg hne, herased, Option.filter_none]

/-- An identity that is not recorded is not found again. -/
theorem recordAt_moveRecords_of_lost
    (h : ∀ key record, r.recordAt key = some record → record.cloudId ≠ id) :
    ∀ key record, (r.moveRecords renamed).recordAt key = some record → record.cloudId ≠ id := by
  induction renamed generalizing r with
  | nil => exact h
  | cons item renamed ih =>
    rw [moveRecords_cons]
    refine ih fun key record hrecord ↦ ?_
    rw [moveRecords, List.foldl_cons, List.foldl_nil] at hrecord
    split at hrecord
    · cases hsrc : r.folderRecords.lookup item.src with
      | none =>
        rw [hsrc] at hrecord
        exact h key record hrecord
      | some old =>
        rw [hsrc] at hrecord
        dsimp only at hrecord
        have hkept : ∀ key record,
            recordAt { r with folderRecords := r.folderRecords.erase item.src } key = some record →
              record.cloudId ≠ id := by
          intro key record hrecord
          by_cases hkey : key = item.src
          · rw [hkey, recordAt, AList.lookup_erase] at hrecord
            cases hrecord
          · rw [recordAt, AList.lookup_erase_ne hkey] at hrecord
            exact h key record hrecord
        by_cases hnot : item.dst = "" ∨ old.cloudId = ""
        · rw [rememberFolder, if_pos hnot] at hrecord
          exact hkept key record hrecord
        · rw [not_or] at hnot
          rw [recordAt_rememberFolder hnot.1 hnot.2] at hrecord
          split at hrecord
          · rw [← Option.some_inj.mp hrecord]
            exact h _ old hsrc
          · exact hkept key record (Option.eq_some_of_filter_eq_some hrecord)
    · exact h key record hrecord

end Removals

namespace Inotify

/-- What is gone through last is what has this cookie. -/
def lastly (c : UInt32) : HashOrder where
  arrange l := l.filter (fun e ↦ ¬ e.1 = c) ++ l.filter fun e ↦ e.1 = c
  perm l := by
    have hperm := List.filter_append_perm (fun e : Sigma fun _ : UInt32 ↦ MoveHalf ↦ ¬ e.1 = c) l
    simpa using hperm

section

variable {previous current destinations : MoveHalves} {xs : List Reread} {x : Reread}
  {order : HashOrder}
  (hcurrent : current.halves.Perm (xs.map fun x ↦ x.half false))
  (hdestinations : destinations.halves.Perm (xs.map fun x ↦ x.half true))
  (hcookies : (xs.map Reread.cookie).Nodup) (hfresh : ∀ x ∈ xs, previous.lookup x.cookie = none)

include hcurrent hdestinations hcookies hfresh

/-- What is reported is the renames. -/
theorem mem_renamed {item : Renamed}
    (hitem : item ∈ (settleMoves order previous current destinations false).renamed) :
    ∃ x ∈ xs, item = ⟨x.src, x.dst, true⟩ := by
  have hunique : ((previous.halves ++ xs.map fun x ↦ x.half false).map Half.cookie).Nodup := by
    rw [List.map_append, List.map_map, List.nodup_append]
    refine ⟨nodup_cookies, hcookies, fun c hc c' hc' ↦ ?_⟩
    rintro rfl
    obtain ⟨h, hh, rfl⟩ := List.mem_map.mp hc
    obtain ⟨x, hx, heq⟩ := List.mem_map.mp hc'
    exact lookup_eq_none.mp (hfresh x hx) h hh heq.symm
  have hsettles : Settles previous.halves _ _
      (settleMoves order previous current destinations false) :=
    settles_settleMoves (List.Perm.refl previous.halves) hcurrent hdestinations hunique
  obtain ⟨⟨h, k⟩, hpair, hreport⟩ :=
    List.mem_map.mp (hsettles.renamed.mem_iff.mp (List.mem_map_of_mem hitem))
  obtain ⟨hh, hk, hcookie⟩ := mem_pairs.mp hpair
  obtain ⟨x, hx, rfl⟩ := List.mem_map.mp hk
  rcases List.mem_append.mp hh with hh | hh
  · exact absurd hcookie.symm (lookup_eq_none.mp (hfresh x hx) h hh)
  · obtain ⟨x', hx', rfl⟩ := List.mem_map.mp hh
    obtain rfl := List.inj_on_of_nodup_map hcookies hx hx' hcookie
    obtain ⟨src, dst, isDir⟩ := item
    obtain ⟨rfl, rfl, rfl⟩ : src = x.src ∧ dst = x.dst ∧ isDir = true := by
      simpa [report, Renamed.report, Reread.half, eq_comm] using hreport
    exact ⟨x, hx, rfl⟩

omit hcurrent hcookies in
/-- What the last drain has left over has no second half in this one. -/
theorem mem_movedOut_of_pending {c : UInt32} {v : MoveHalf} (hv : previous.lookup c = some v) :
    v ∈ (settleMoves order previous current destinations false).movedOut := by
  have hkept : ((order.arrange destinations.entries).foldl Pairing.pair
      ⟨previous, current, [], []⟩).previous.lookup c = some v := by
    refine Pairing.lookup_previous_foldl.mpr ⟨fun e he heq ↦ ?_, hv⟩
    have hmem := AList.mem_lookup_iff.mpr ((order.perm _).mem_iff.mp he)
    obtain ⟨x, hx, hhalf⟩ := List.mem_map.mp ((lookup_iff_of_perm hdestinations).mp hmem)
    have hcookie : x.cookie = e.1 := congrArg Half.cookie hhalf
    exact Option.some_ne_none v (hv.symm.trans (heq ▸ hcookie ▸ hfresh x hx))
  exact List.mem_map.mpr
    ⟨⟨c, v⟩, (order.perm _).mem_iff.mpr (AList.mem_lookup_iff.mp hkept), rfl⟩

omit hcookies in
/-- Any of them may be the last that is reported. -/
theorem renamed_lastly (hx : x ∈ xs) :
    ∃ l, (settleMoves (lastly x.cookie) previous current destinations false).renamed
      = l ++ [⟨x.src, x.dst, true⟩] := by
  have hdest : destinations.lookup x.cookie = some ⟨x.dst, true⟩ :=
    (lookup_iff_of_perm hdestinations).mpr (List.mem_map_of_mem hx)
  have hcur : current.lookup x.cookie = some ⟨x.src, true⟩ :=
    (lookup_iff_of_perm hcurrent).mpr (List.mem_map_of_mem hx)
  have hdisjoint : Pairing.Disjoint ⟨previous, current, [], []⟩ := by
    intro c
    cases hc : current.lookup c with
    | none => exact Or.inr rfl
    | some v =>
      obtain ⟨y, hy, hhalf⟩ := List.mem_map.mp ((lookup_iff_of_perm hcurrent).mp hc)
      have hcookie : y.cookie = c := congrArg Half.cookie hhalf
      exact Or.inl (hcookie ▸ hfresh y hy)
  -- the entry with the cookie, and what comes before it
  have hlast : destinations.entries.filter (fun e ↦ e.1 = x.cookie)
      = [⟨x.cookie, ⟨x.dst, true⟩⟩] := by
    refine List.perm_singleton.mp ((List.perm_ext_iff_of_nodup
      ((destinations.nodupKeys.of_map _).filter _) (List.nodup_singleton _)).mpr fun e ↦ ?_)
    rw [List.mem_filter, decide_eq_true_eq, List.mem_singleton]
    constructor
    · rintro ⟨he, hcookie⟩
      obtain ⟨c, v⟩ := e
      obtain rfl : c = x.cookie := hcookie
      rw [Option.some_inj.mp ((AList.mem_lookup_iff.mpr he).symm.trans hdest)]
    · rintro rfl
      exact ⟨AList.mem_lookup_iff.mp hdest, rfl⟩
  set before := destinations.entries.filter (fun e ↦ ¬ e.1 = x.cookie) with hbefore
  have hother : ∀ e ∈ before, x.cookie ≠ e.1 := fun e he heq ↦
    of_decide_eq_true (List.mem_filter.mp he).2 heq.symm
  have hnone : (before.foldl Pairing.pair ⟨previous, current, [], []⟩).previous.lookup x.cookie
      = none := by
    rw [Option.eq_none_iff_forall_ne_some]
    intro v hv
    exact Option.some_ne_none v ((Pairing.lookup_previous_foldl.mp hv).2.symm.trans (hfresh x hx))
  have hsome : (before.foldl Pairing.pair ⟨previous, current, [], []⟩).current.lookup x.cookie
      = some ⟨x.src, true⟩ := (Pairing.lookup_current_foldl hdisjoint).mpr ⟨hother, hcur⟩
  refine ⟨(before.foldl Pairing.pair ⟨previous, current, [], []⟩).renamed, ?_⟩
  have harranged : (lastly x.cookie).arrange destinations.entries
      = before ++ [⟨x.cookie, ⟨x.dst, true⟩⟩] := by
    rw [lastly, hbefore, ← hlast]
  have hsettled : (settleMoves (lastly x.cookie) previous current destinations false).renamed
      = (((lastly x.cookie).arrange destinations.entries).foldl Pairing.pair
        ⟨previous, current, [], []⟩).renamed := rfl
  rw [hsettled, harranged, List.foldl_append, List.foldl_cons, List.foldl_nil, Pairing.pair, hnone,
    hsome]
  rfl

end

theorem pending_of_mem_movedOut {previous current destinations : MoveHalves} {order : HashOrder}
    {v : MoveHalf} (hv : v ∈ (settleMoves order previous current destinations false).movedOut) :
    ∃ c, previous.lookup c = some v := by
  obtain ⟨e, he, rfl⟩ := List.mem_map.mp hv
  have hkept := AList.mem_lookup_iff.mpr ((order.perm _).mem_iff.mp he)
  exact ⟨e.1, (Pairing.lookup_previous_foldl.mp hkept).2⟩

/-- No directory that is at this path carries an identity. -/
def Free (ids : Identities) (t : Tree) (key : String) : Prop :=
  ∀ d (p : RelPath), p ≠ [] → t.At d p → p.display = key → ids.cloudId d = none

theorem Keyed.recordAt_eq_none (h : Keyed ids t r) {key : String} (hfree : Free ids t key) :
    r.recordAt key = none := by
  rw [Option.eq_none_iff_forall_ne_some]
  intro record hrecord
  obtain ⟨d, p, hnil, hd, hkey, hr⟩ := (h key record).mp hrecord
  rw [Identities.record, hfree d p hnil hd hkey] at hr
  cases hr

theorem Keyed.free (h : Keyed ids t r) {key : String} (hnone : r.recordAt key = none) :
    Free ids t key := by
  intro d p hnil hd hkey
  rw [Option.eq_none_iff_forall_ne_some]
  intro id hid
  have hrecord := (h key ⟨id, ids.etag d⟩).mpr ⟨d, p, hnil, hd, hkey, by
    rw [Identities.record, hid, Option.map_some]⟩
  exact Option.some_ne_none _ (hrecord.symm.trans hnone)

theorem Keyed.congr {r' : Removals} (h : Keyed ids t r)
    (heq : ∀ key, r'.recordAt key = r.recordAt key) : Keyed ids t r' := by
  intro key record
  rw [heq]
  exact h key record

/-- Where walks have met the directories last, as the watcher has it. -/
def placesOf (r : Removals) : Places := fun d ↦ r.dirs.lookup d

/-- What a drain of renames comes to: what has been read is where it is, the halves are in the maps,
and then what was left over is dropped and the renames are gone through. -/
theorem read_drain (hwatching : Watching ids t r)
    (hobserved : Observed ids (placesOf r) t os)
    (hcookies : (os.map Rename.cookie).Nodup) :
    ∃ s : Reading, Keyed ids (t.after os) s.removals
      ∧ s.movedFrom.halves.Perm ((rereads (placesOf r) t os).map fun x ↦ x.half false)
      ∧ s.movedTo.halves.Perm ((rereads (placesOf r) t os).map fun x ↦ x.half true)
      ∧ ((rereads (placesOf r) t os).map Reread.cookie) = os.map Rename.cookie
      ∧ ∀ order, (r.take ⟨renameEvents t os, order⟩).1
        = (({ s.removals with
            pendingMoves := (settleMoves order r.pendingMoves s.movedFrom s.movedTo false).pending
          }.reportMovedOut s.out
            (settleMoves order r.pendingMoves s.movedFrom s.movedTo false).movedOut).1).moveRecords
          (settleMoves order r.pendingMoves s.movedFrom s.movedTo false).renamed := by
  have ht : t.Sound os := hobserved.sound hwatching.proper hwatching.named
  have hmet : Met (placesOf r) t := fun d p hd ↦ by
    rw [placesOf, hwatching.dirs d p hd]
    exact Option.some_ne_none _
  obtain ⟨hkeyed, hlost, hhalves, hsame⟩ :=
    read_renames (show ∀ d, r.start.removals.dirs.lookup d = placesOf r d from fun _ ↦ rfl) hmet ht
      hobserved (hwatching.tracked ht)
  set s := (renameEvents t os).foldl Reading.read r.start with hs
  have hunique : ∀ dst,
      ((Reading.halves dst r.start (renameEvents t os)).map Half.cookie).Nodup := by
    intro dst
    rw [← hsame] at hcookies
    rw [hhalves, List.map_map]
    cases dst <;> exact hcookies
  have hpath : ∀ dst, ∀ h ∈ Reading.halves dst r.start (renameEvents t os), h.path ≠ none := by
    intro dst h hh
    rw [hhalves] at hh
    obtain ⟨x, -, rfl⟩ := List.mem_map.mp hh
    cases dst <;> exact Option.some_ne_none _
  refine ⟨s, hkeyed, ?_, ?_, hsame, fun order ↦ ?_⟩
  · rw [← hhalves false]
    exact Reading.part_foldl false (hpath false) (hunique false)
  · rw [← hhalves true]
    exact Reading.part_foldl true (hpath true) (hunique true)
  · have hreading : r.reading ⟨renameEvents t os, order⟩ = s := rfl
    have hlost : s.removals.lost = false := hlost
    rw [Removals.take]
    dsimp only
    rw [Removals.settled, hreading, hlost, if_neg Bool.false_ne_true]

/-- **Every record is under the path of its directory after the drain**, in whatever order the
renames are gone through, exactly if the source of every rename, as it is made up when the events
are read, is its destination or is left without an identity in the tree that the renames yield, and
so is what the drain before has left over. -/
theorem keyed_iff (ids : Identities) (t : Tree) (r : Removals) (os : List Rename)
    (hwatching : Watching ids t r) (hobserved : Observed ids (placesOf r) t os)
    (hcookies : (os.map Rename.cookie).Nodup)
    (hfresh : ∀ o ∈ os, r.pendingMoves.lookup o.cookie = none) :
    (∀ order, Keyed ids (t.after os) (r.take ⟨renameEvents t os, order⟩).1)
      ↔ (∀ x ∈ rereads (placesOf r) t os, x.src ≠ x.dst → Free ids (t.after os) x.src)
        ∧ ∀ c v, r.pendingMoves.lookup c = some v → v.isDir = true →
          Free ids (t.after os) v.path := by
  obtain ⟨s, hkeyed, hfrom, hto, hsame, htake⟩ := read_drain hwatching hobserved hcookies
  have hafter : (t.after os).Sound [] := (hobserved.sound hwatching.proper hwatching.named).after
  rw [← hsame] at hcookies
  have hfresh : ∀ x ∈ rereads (placesOf r) t os, r.pendingMoves.lookup x.cookie = none := by
    intro x hx
    obtain ⟨o, ho, heq⟩ := List.mem_map.mp (hsame ▸ List.mem_map_of_mem hx)
    exact heq ▸ hfresh o ho
  constructor
  · intro h
    refine ⟨fun x hx hne ↦ ?_, fun c v hv hdir ↦ ?_⟩
    · -- with this one last nothing is left under its source
      obtain ⟨l, hl⟩ := renamed_lastly hfrom hto hfresh hx
      refine (h (lastly x.cookie)).free ?_
      rw [htake, hl, Removals.moveRecords_concat]
      have hmoved : x.src ≠ x.dst := hne
      exact Removals.recordAt_moveRecord_src rfl hmoved
    · -- what is dropped is not found again
      intro d p hnil hd hpath
      rw [Option.eq_none_iff_forall_ne_some]
      intro id hid
      have hread := (hkeyed v.path ⟨id, ids.etag d⟩).mpr ⟨d, p, hnil, hd, hpath, by
        rw [Identities.record, hid, Option.map_some]⟩
      have hrecord := (h ⟨fun l ↦ l, List.Perm.refl⟩ v.path ⟨id, ids.etag d⟩).mpr
        ⟨d, p, hnil, hd, hpath, by rw [Identities.record, hid, Option.map_some]⟩
      rw [htake] at hrecord
      refine Removals.recordAt_moveRecords_of_lost (fun key record hkept ↦ ?_) _ _ hrecord rfl
      rw [Removals.recordAt_reportMovedOut] at hkept
      split at hkept
      · cases hkept
      · rename_i hnot
        intro hsameid
        refine hnot ⟨v, mem_movedOut_of_pending hto hfresh hv, hdir, ?_⟩
        exact hkeyed.single hafter.proper hread hkept hsameid.symm
  · rintro ⟨hsources, hpending⟩ order
    rw [htake]
    -- nothing is recorded under what is dropped
    have hdropped : ∀ key, (Removals.reportMovedOut { s.removals with
          pendingMoves := (settleMoves order r.pendingMoves s.movedFrom s.movedTo false).pending }
        s.out
        (settleMoves order r.pendingMoves s.movedFrom s.movedTo false).movedOut).1.recordAt key
          = s.removals.recordAt key := by
      intro key
      rw [Removals.recordAt_reportMovedOut]
      split
      · rename_i hout
        obtain ⟨v, hv, hdir, rfl⟩ := hout
        obtain ⟨c, hc⟩ := pending_of_mem_movedOut hv
        exact (hkeyed.recordAt_eq_none (hpending c v hc hdir)).symm
      · rfl
    have hthere := hkeyed.congr hdropped
    refine hthere.congr (Removals.recordAt_moveRecords_of_idle ?_ ?_ ?_ ?_)
    · refine hthere.recordAt_eq_none fun d p hnil hd hempty ↦ ?_
      exact absurd hempty ((hafter.named.at hd).display_ne hnil)
    · rintro key record hrecord hempty
      obtain ⟨d, -, -, -, -, hr⟩ := (hthere key record).mp hrecord
      obtain ⟨id, hid, rfl⟩ := Option.map_eq_some_iff.mp hr
      exact ids.filled d (hid.trans (congrArg some hempty))
    · exact fun key key' record record' ↦ hthere.single hafter.proper
    · intro item hitem hne
      obtain ⟨x, hx, rfl⟩ := mem_renamed hfrom hto hcookies hfresh hitem
      exact hthere.recordAt_eq_none (hsources x hx hne)

/-! ## Two directories -/

/-- Two directories in the sync root. -/
def twoDirs (a c : String) : Tree := fun d ↦
  if d = 2 then some (syncRoot, a) else if d = 3 then some (syncRoot, c) else none

variable {a b c : String}

theorem at_twoDirs (h : (twoDirs a c).At d p) :
    d = syncRoot ∧ p = [] ∨ d = 2 ∧ p = [a] ∨ d = 3 ∧ p = [c] := by
  have hroot : ∀ y q, NamedTree.At (twoDirs a c) syncRoot y q → y = syncRoot → q = [] := by
    rintro y q hy rfl
    rcases hy.inv with ⟨-, hq⟩ | ⟨y', n, q', hy', -⟩
    · exact hq
    · simp [twoDirs, syncRoot] at hy'
  rcases h.inv with ⟨rfl, rfl⟩ | ⟨y, n, q, hd, hy, rfl⟩
  · exact Or.inl ⟨rfl, rfl⟩
  · rw [twoDirs] at hd
    split at hd
    · obtain ⟨rfl, rfl⟩ := Prod.mk.inj (Option.some_inj.mp hd)
      exact Or.inr (Or.inl ⟨by assumption, by rw [hroot _ q hy rfl, List.nil_append]⟩)
    · split at hd
      · obtain ⟨rfl, rfl⟩ := Prod.mk.inj (Option.some_inj.mp hd)
        exact Or.inr (Or.inr ⟨by assumption, by rw [hroot _ q hy rfl, List.nil_append]⟩)
      · cases hd

theorem proper_twoDirs (hne : a ≠ c) : NamedTree.Proper (twoDirs a c) syncRoot where
  root := by simp [twoDirs, syncRoot]
  distinct x x' l hx hx' := by
    have hname : ∀ y, twoDirs a c y = some l →
        y = 2 ∧ l = (syncRoot, a) ∨ y = 3 ∧ l = (syncRoot, c) := by
      intro y hy
      rw [twoDirs] at hy
      split at hy
      · exact Or.inl ⟨by assumption, (Option.some_inj.mp hy).symm⟩
      · split at hy
        · exact Or.inr ⟨by assumption, (Option.some_inj.mp hy).symm⟩
        · cases hy
    rcases hname x hx with ⟨rfl, rfl⟩ | ⟨rfl, rfl⟩ <;>
      rcases hname x' hx' with ⟨rfl, heq⟩ | ⟨rfl, heq⟩
    · rfl
    · exact absurd (Prod.mk.inj heq).2 hne
    · exact absurd (Prod.mk.inj heq).2.symm hne
    · rfl

theorem twoDirs_at_first : (twoDirs a c).At 2 [a] := .sub rfl .root

theorem twoDirs_at_second : (twoDirs a c).At 3 [c] := .sub rfl .root

theorem move_first : NamedTree.move (twoDirs a c) 2 syncRoot b = twoDirs b c := by
  funext d
  by_cases hd : d = 2
  · rw [hd, NamedTree.move, Function.update_self]
    rfl
  · rw [NamedTree.move, Function.update_of_ne hd, twoDirs, twoDirs, if_neg hd, if_neg hd]

theorem move_second : NamedTree.move (twoDirs a c) 3 syncRoot b = twoDirs a b := by
  funext d
  by_cases hd : d = 3
  · rw [hd, NamedTree.move, Function.update_self]
    rfl
  · rw [NamedTree.move, Function.update_of_ne hd, twoDirs, twoDirs, if_neg hd, if_neg hd]

/-- One of the two directories has come to a name of its own. -/
theorem sees_twoDirs {later : List Tree} {d : Dir} {n : String} (hn : n ≠ "" ∧ '/' ∉ n.toList)
    (hlater : ∀ t ∈ later, t.At d [n]) (hfirst : twoDirs a c ∈ later) (hne : a ≠ c) :
    Sees ids later [n] [⟨some d, n, ids.record d⟩] where
  finds w hw := by
    obtain rfl := List.mem_singleton.mp hw
    have hread : (ids.record d).map FolderRecord.cloudId = ids.cloudId d := by
      rw [Identities.record]
      cases ids.cloudId d <;> rfl
    refine ⟨[n], List.prefix_refl _, ?_, ?_, List.cons_ne_nil _ _, ?_, ?_, ?_⟩
    · rw [RelPath.display, String.intercalate_singleton]
    · intro m hm
      rwa [List.mem_singleton.mp hm]
    · rintro d' ⟨⟩
      exact ⟨_, hfirst, hlater _ hfirst⟩
    · rw [hread]
      exact ⟨_, hfirst, .dir (hlater _ hfirst)⟩
    · intro record hrecord
      obtain ⟨id, -, rfl⟩ := Option.map_eq_some_iff.mp hrecord
      exact ⟨_, hfirst, .dir (hlater _ hfirst)⟩
  stable d' p hp hd' := by
    refine ⟨_, List.mem_singleton_self _, ?_⟩
    have hthere := hd' _ hfirst
    have hshort : p = [n] := by
      rcases at_twoDirs hthere with ⟨-, rfl⟩ | ⟨-, rfl⟩ | ⟨-, rfl⟩
      · exact absurd (List.prefix_nil.mp hp) (List.cons_ne_nil _ _)
      · exact (hp.eq_of_length rfl).symm
      · exact (hp.eq_of_length rfl).symm
    subst hshort
    rw [hthere.injective (proper_twoDirs hne) (hlater _ hfirst), RelPath.display,
      String.intercalate_singleton]
    exact ⟨rfl, rfl⟩

def twoIds : Identities where
  cloudId d := if d = 2 then some "A" else if d = 3 then some "C" else none
  etag _ := none
  filled d := by
    split
    · decide
    · split <;> decide
  distinct d d' id hd hd' := by
    split at hd <;> split at hd'
    · rename_i h h'
      rw [h, h']
    · split at hd'
      · exact absurd (Option.some_inj.mp (hd.trans hd'.symm)) (by decide)
      · cases hd'
    · split at hd
      · exact absurd (Option.some_inj.mp (hd'.trans hd.symm)) (by decide)
      · cases hd
    · split at hd <;> split at hd'
      · rename_i h h'
        rw [h, h']
      · cases hd'
      · cases hd
      · cases hd

/-- The directories `a` and `c`, and what is recorded of them. -/
def twoWatched : Removals where
  dirs := ((AList.singleton 1 "").insert 2 "a").insert 3 "c"
  lost := false
  pendingMoves := ∅
  folderRecords := (AList.singleton "a" ⟨"A", none⟩).insert "c" ⟨"C", none⟩

theorem watching_two : Watching twoIds (twoDirs "a" "c") twoWatched where
  proper := proper_twoDirs (by decide)
  named d l hd := by
    rw [twoDirs] at hd
    split at hd
    · rw [← Option.some_inj.mp hd]
      decide
    · split at hd
      · rw [← Option.some_inj.mp hd]
        decide
      · cases hd
  dirs d p hd := by
    rcases at_twoDirs hd with ⟨rfl, rfl⟩ | ⟨rfl, rfl⟩ | ⟨rfl, rfl⟩ <;> decide
  keyed key record := by
    constructor
    · intro hrecord
      by_cases hc : key = "c"
      · subst hc
        obtain rfl : FolderRecord.mk "C" none = record := Option.some_inj.mp hrecord
        exact ⟨3, ["c"], List.cons_ne_nil _ _, twoDirs_at_second, by decide, rfl⟩
      · rw [Removals.recordAt, twoWatched, AList.lookup_insert_ne hc] at hrecord
        by_cases ha : key = "a"
        · subst ha
          obtain rfl : FolderRecord.mk "A" none = record := Option.some_inj.mp hrecord
          exact ⟨2, ["a"], List.cons_ne_nil _ _, twoDirs_at_first, by decide, rfl⟩
        · have hmem := AList.mem_lookup_iff.mp hrecord
          exact absurd (congrArg Sigma.fst (List.mem_singleton.mp hmem)) ha
    · rintro ⟨d, p, hnil, hd, rfl, hrecord⟩
      rcases at_twoDirs hd with ⟨-, rfl⟩ | ⟨rfl, rfl⟩ | ⟨rfl, rfl⟩
      · exact absurd rfl hnil
      · rw [← hrecord]
        decide
      · rw [← hrecord]
        decide

/-- The directory `a` is renamed to `b`. -/
def renameFirst : Rename := ⟨⟨2, syncRoot, "b"⟩, 5, [⟨some 2, "b", some ⟨"A", none⟩⟩]⟩

/-- The directory `c` is renamed to `a`. -/
def renameSecond : Rename := ⟨⟨3, syncRoot, "a"⟩, 6, [⟨some 3, "a", some ⟨"C", none⟩⟩]⟩

/-- A name that neither has is free. -/
theorem free_twoDirs {first second n : String} (hfirst : first ≠ n) (hsecond : second ≠ n)
    (z : Dir) : twoDirs first second z ≠ some (syncRoot, n) := by
  intro hz
  rw [twoDirs] at hz
  split at hz
  · exact hfirst (Prod.mk.inj (Option.some_inj.mp hz)).2
  · split at hz
    · exact hsecond (Prod.mk.inj (Option.some_inj.mp hz)).2
    · cases hz

theorem movable_first : NamedTree.Movable (twoDirs "a" "c") syncRoot 2 syncRoot "b" ["a"] [] where
  member := twoDirs_at_first
  parent := .root
  inner := by decide
  outside := by decide
  free := free_twoDirs (by decide) (by decide)

theorem movable_second : NamedTree.Movable (twoDirs "b" "c") syncRoot 3 syncRoot "a" ["c"] [] where
  member := twoDirs_at_second
  parent := .root
  inner := by decide
  outside := by decide
  free := free_twoDirs (by decide) (by decide)

theorem apply_first : renameFirst.apply (twoDirs "a" "c") = twoDirs "b" "c" := move_first

theorem apply_second : renameSecond.apply (twoDirs "b" "c") = twoDirs "b" "a" := move_second

theorem during_first :
    Tree.during (renameFirst.apply (twoDirs "a" "c")) [] = [twoDirs "b" "c"] := by
  rw [apply_first]
  rfl

theorem during_both : Tree.during (renameFirst.apply (twoDirs "a" "c")) [renameSecond]
    = [twoDirs "b" "c", twoDirs "b" "a"] := by
  rw [apply_first, ← apply_second]
  rfl

theorem during_second :
    Tree.during (renameSecond.apply (renameFirst.apply (twoDirs "a" "c"))) []
      = [twoDirs "b" "a"] := by
  rw [apply_first, apply_second]
  rfl

/-- A directory that is renamed takes its record along. -/
theorem keyed_of_renamed : Keyed twoIds (Tree.after (twoDirs "a" "c") [renameFirst])
    (twoWatched.take ⟨renameEvents (twoDirs "a" "c") [renameFirst], lastly 5⟩).1 := by
  refine (keyed_iff twoIds (twoDirs "a" "c") twoWatched [renameFirst] watching_two ?_ (by decide)
    (by decide)).mpr ⟨fun x hx _ ↦ ?_, fun c v hv ↦ by cases hv⟩ (lastly 5)
  · refine ⟨⟨_, _, movable_first⟩, by decide, by decide,
      ⟨[], fun _ h ↦ absurd h List.not_mem_nil, by decide, ?_⟩, trivial⟩
    rw [during_first]
    exact sees_twoDirs (by decide) (List.forall_mem_singleton.mpr twoDirs_at_first)
      (List.mem_singleton_self _) (by decide)
  · obtain rfl : x = ⟨5, "a", "b"⟩ := List.mem_singleton.mp hx
    intro d p hnil hd hpath
    have hd : (renameFirst.apply (twoDirs "a" "c")) |> fun t ↦ Tree.At t d p := hd
    rw [apply_first] at hd
    rcases at_twoDirs hd with ⟨-, rfl⟩ | ⟨-, rfl⟩ | ⟨-, rfl⟩
    · exact absurd rfl hnil
    · exact absurd hpath (by decide)
    · exact absurd hpath (by decide)

/-- The directory `a` is renamed to `b`, and then `c` to `a`. The record of `c` goes on to `b`, and
that of the other is gone. -/
theorem record_follows_name : ∃ ids t r os order, Watching ids t r ∧ Observed ids (placesOf r) t os
    ∧ (os.map Rename.cookie).Nodup ∧ r.pendingMoves = ∅
    ∧ ¬ Keyed ids (t.after os) (r.take ⟨renameEvents t os, order⟩).1 := by
  have hobserved : Observed twoIds (placesOf twoWatched) (twoDirs "a" "c")
      [renameFirst, renameSecond] := by
    refine ⟨⟨_, _, movable_first⟩, by decide, by decide,
      ⟨[], fun _ h ↦ absurd h List.not_mem_nil, by decide, ?_⟩,
      ⟨_, _, apply_first ▸ movable_second⟩, by decide, by decide,
      ⟨[], fun _ h ↦ absurd h List.not_mem_nil, by decide, ?_⟩, trivial⟩
    · rw [during_both]
      refine sees_twoDirs (by decide) ?_ List.mem_cons_self (by decide)
      exact List.forall_mem_cons.mpr
        ⟨twoDirs_at_first, List.forall_mem_singleton.mpr twoDirs_at_first⟩
    · rw [during_second]
      exact sees_twoDirs (by decide) (List.forall_mem_singleton.mpr twoDirs_at_second)
        (List.mem_singleton_self _) (by decide)
  refine ⟨twoIds, _, twoWatched, _, ⟨fun l ↦ l, List.Perm.refl⟩, watching_two, hobserved,
    by decide, rfl, fun h ↦ ?_⟩
  have hafter : Tree.after (twoDirs "a" "c") [renameFirst, renameSecond] = twoDirs "b" "a" := by
    rw [← apply_second, ← apply_first]
    rfl
  rw [hafter] at h
  have hrecord := (h "a" ⟨"C", none⟩).mpr
    ⟨3, ["a"], List.cons_ne_nil _ _, twoDirs_at_second, by decide, rfl⟩
  exact absurd hrecord (by decide +kernel)

end Inotify

end HydrationAPI.Client
