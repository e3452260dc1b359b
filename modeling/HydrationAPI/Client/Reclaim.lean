import HydrationAPI.Client.EvictPolicy
import HydrationAPI.Client.Store
import HydrationAPI.Lib.Checks
import HydrationAPI.Lib.PathTree

/-!
# Giving the disk back

A file is turned back into a placeholder only if the cloud has its content and nobody asked to keep
it here. `reclaim` decides that for one path, and asks every directory above the file whether it is
pinned. The walk that looks for candidates asks each directory once and tells those beneath. It is
to list what `reclaim` would accept, and lists one kind of file more: an id that is not UTF-8 is an
id to the walk, and none to `reclaim`.

What is in the directory is a tree. A symbolic link is a leaf of it, which the walk passes over;
what one leads to is not here.
-/

namespace HydrationAPI.Client

open EvictPolicy (Candidate)
open Checks

namespace Attr

/-- Whether `get_xattr` finds a value. -/
def isPresent : Attr → Except String Bool
  | absent => .ok false
  | text _ | binary _ => .ok true
  | unreadable error => .error error

/-- Whether it finds one that is not empty. -/
def hasValue : Attr → Except String Bool
  | absent => .ok false
  | text value => .ok (value ≠ "")
  | binary value => .ok (value ≠ [])
  | unreadable error => .error error

/-- What it finds, if that is UTF-8. -/
def utf8 : Attr → Except String (Option String)
  | text value => .ok (some value)
  | absent | binary _ => .ok none
  | unreadable error => .error error

/-- `hydrated::at`, into a buffer of 32 bytes. -/
def hydratedAt : Attr → Except String (Option ℕ)
  | text value =>
    .ok (if value.utf8ByteSize ≤ 32 then Text.parseUnsigned u64Max value else none)
  | absent | binary _ => .ok none
  | unreadable error => .error error

/-- The attribute is absent or has a value. -/
def Readable (a : Attr) : Prop := ∀ error, a ≠ unreadable error

end Attr

/-- A regular file, with what eviction reads of it besides. -/
structure Resident where
  inode : Inode
  isFile : inode.isDir = false
  pinned : Attr
  hydratedAt : Attr
  /-- What it holds on disk, in units of 512 bytes. -/
  blocks : ℕ

/-- What is in a directory and is not a directory. -/
inductive Leaf where
  | file (n : Resident)
  /-- A symbolic link, a socket, a device. -/
  | other

/-- The sync directory, or what is at a path in it. Of a directory its pin is recorded. -/
abbrev DirEntry := PathTree String Leaf Attr

/-! ## The candidates -/

/-- The verdict of the directory above, or a pin of one's own. -/
def orPinned (ancestorPinned : Bool) (pinned : Attr) : Except String Bool :=
  if ancestorPinned then .ok true else pinned.isPresent

/-- What `collect_residents` does with a regular file. -/
def Resident.candidate (path : RelPath) (dirPinned : Bool) (n : Resident) :
    Except String (Option Candidate) := do
  if ← n.inode.dehydrated.isPresent then return none
  if ← orPinned dirPinned n.pinned then return none
  if !(← n.inode.id.hasValue) then return none
  if (← n.inode.stampState) ≠ .clean then return none
  if '\n' ∈ path.display.toList ∨ '\r' ∈ path.display.toList then return none
  let hydratedAt ← n.hydratedAt.hydratedAt
  return some {
    rel := path.display
    reclaimable := n.blocks * 512
    -- a file that was never fetched is as old as its content, and not as old as can be
    recency := hydratedAt.getD n.inode.stat.mtime.toNat }

mutual

/-- `collect_residents`, of a directory, and what it does with anything else. -/
def collectResidents (set : IgnoreSet) (path : RelPath) (ancestorPinned : Bool) :
    DirEntry → Except String (List Candidate)
  | .node pinned entries => do
    let dirPinned ← orPinned ancestorPinned pinned
    collectEntries set path dirPinned entries
  | .leaf (.file n) => do
    let candidate ← n.candidate path ancestorPinned
    return candidate.toList
  | .leaf .other => .ok []

/-- The entries of a directory, in the order in which they are read. -/
def collectEntries (set : IgnoreSet) (dir : RelPath) (dirPinned : Bool) :
    List (String × DirEntry) → Except String (List Candidate)
  | [] => .ok []
  | (name, entry) :: entries =>
    if Names.isInternal name ∨ set.ignores (dir ++ [name]) = true then
      collectEntries set dir dirPinned entries
    else do
      let found ← collectResidents set (dir ++ [name]) dirPinned entry
      let others ← collectEntries set dir dirPinned entries
      return found ++ others

end

/-- Every resident file the policy could dehydrate. -/
def evictableCandidates (set : IgnoreSet) : DirEntry → Except String (List Candidate)
  | .leaf _ => .error "Not a directory (os error 20)"
  | root => collectResidents set [] false root

/-! ## The eviction -/

/-- Why a file was left alone. -/
inductive Refused where
  /-- No content here to reclaim. -/
  | alreadyDehydrated
  /-- Nothing in the cloud has this file's content. -/
  | notUploaded
  /-- Edited since it was last sent. -/
  | changedSinceUpload
  /-- An edit is waiting out the debounce, or is being sent right now. -/
  | uploadPending
  /-- The user asked to keep this on device, here or through a directory above. -/
  | pinned (via : RelPath)
  | notEligible (why : String)
  deriving DecidableEq

/-- What putting the placeholder in the place of a file comes to. -/
structure Swap where
  /-- What was at the name, with a placeholder of this size, id and tag there now; nothing if the
  name was gone. -/
  displaced : ℕ → String → Option String → Except String (Option Stat)
  /-- What is at the name afterwards holds so many blocks. -/
  blocksAfter : Option ℕ

/-- `is_pinned`. Only files and directories have attributes of the user's. -/
def isPinned (root : DirEntry) (path : RelPath) : Except String Bool :=
  match root.get path with
  | some (.node pinned _) => pinned.isPresent
  | some (.leaf (.file n)) => n.pinned.isPresent
  | some (.leaf .other) => .ok false
  | none => .error "No such file or directory (os error 2)"

/-- The first of the paths that is pinned. -/
def firstPinned (root : DirEntry) : List RelPath → Except String (Option RelPath)
  | [] => .ok none
  | path :: ancestors => do
    if ← isPinned root path then return some path
    firstPinned root ancestors

/-- Is the path, or any directory above it, pinned? The root is the last that is asked. -/
def pinnedSelfOrAncestor (root : DirEntry) (path : RelPath) : Except String (Option RelPath) :=
  firstPinned root path.inits.reverse

/-- The checks of `reclaim` on a regular file, and the swap. -/
def Resident.reclaim (root : DirEntry) (path : RelPath) (n : Resident) (store : Store)
    (waiting sending : List FileId) (swap : Swap) :
    Except String (Except Refused (ℕ × Store)) := do
  if ← n.inode.dehydrated.isPresent then return .error .alreadyDehydrated
  if let some via ← pinnedSelfOrAncestor root path then return .error (.pinned via)
  if n.inode.stat.file ∈ waiting ∨ n.inode.stat.file ∈ sending then
    return .error .uploadPending
  let some cloudId := (← n.inode.id.utf8).filter (· ≠ "") | return .error .notUploaded
  if (← n.inode.stampState) ≠ .clean then return .error .changedSinceUpload
  let etag ← n.inode.etag.utf8
  -- the guard is all that is recorded in `Stat`
  if (← swap.displaced n.inode.stat.size cloudId etag) ≠ some n.inode.stat then
    return .error .changedSinceUpload
  return .ok (n.blocks * 512 - swap.blocksAfter.getD 0 * 512,
    { store with index := store.index.erase n.inode.stat.file })

/-- Turn a file with content back into a placeholder; the bytes that were reclaimed. -/
def reclaim (set : IgnoreSet) (root : DirEntry) (rel : String) (store : Store)
    (waiting sending : List FileId) (swap : Swap) :
    Except String (Except Refused (ℕ × Store)) :=
  match safeJoin rel with
  | none => .ok (.error (.notEligible s!"\"{rel}\" is not a path inside the sync directory"))
  | some path =>
    if set.isIgnored rel then
      .ok (.error (.notEligible s!"\"{rel}\" is sync-ignored and is kept as a real local file"))
    else match root.get path with
    | some (.leaf (.file n)) => n.reclaim root path store waiting sending swap
    | some _ => .ok (.error (.notEligible "not a regular file"))
    | none => .error "No such file or directory (os error 2)"

/-! ## What the walk comes to -/

/-- The verdict on pins with which the walk comes to what is at the end of a path. -/
def passedDown : Bool → DirEntry → RelPath → Except String Bool
  | ancestorPinned, _, [] => .ok ancestorPinned
  | _, .leaf _, _ :: _ => .error "Not a directory (os error 20)"
  | ancestorPinned, .node pinned entries, name :: path => do
    let dirPinned ← orPinned ancestorPinned pinned
    match entries.lookup name with
    | some entry => passedDown dirPinned entry path
    | none => .error "No such file or directory (os error 2)"

/-- The walk goes on to the end of the path, from what is at the path before it. -/
def Passable (set : IgnoreSet) (path q : RelPath) : Prop :=
  (∀ name ∈ q, Names.isInternal name = false) ∧ (q ≠ [] → set.ignores (path ++ q) = false)

section Walk

variable {set : IgnoreSet} {entry : DirEntry} {entries : List (String × DirEntry)}
  {path q : RelPath} {name : String} {ancestorPinned v : Bool} {n : Resident} {c : Candidate}
  {out : List Candidate}

theorem passable_nil : Passable set path [] := ⟨List.forall_mem_nil _, fun h ↦ absurd rfl h⟩

/-- One rule is enough for all that is beneath. -/
theorem passable_cons : Passable set path (name :: q)
    ↔ ¬ (Names.isInternal name = true ∨ set.ignores (path ++ [name]) = true)
      ∧ Passable set (path ++ [name]) q := by
  have happend : path ++ name :: q = path ++ [name] ++ q := by simp
  rw [Passable, Passable, List.forall_mem_cons, happend]
  constructor
  · rintro ⟨⟨hname, hnames⟩, hsynced⟩
    have hsynced := hsynced (List.cons_ne_nil name q)
    refine ⟨?_, hnames, fun _ ↦ hsynced⟩
    rintro (hinternal | hignored)
    · rw [hname] at hinternal
      cases hinternal
    · rw [IgnoreSet.ignores_append (by simp) hignored] at hsynced
      cases hsynced
  · rintro ⟨hrules, hnames, hsynced⟩
    rw [not_or, Bool.not_eq_true, Bool.not_eq_true] at hrules
    refine ⟨⟨hrules.1, hnames⟩, fun _ ↦ ?_⟩
    by_cases hq : q = []
    · rw [hq, List.append_nil]
      exact hrules.2
    · exact hsynced hq

theorem collectEntries_cons
    (h : collectEntries set path v ((name, entry) :: entries) = .ok out) :
    (Names.isInternal name = true ∨ set.ignores (path ++ [name]) = true)
        ∧ collectEntries set path v entries = .ok out
      ∨ ¬ (Names.isInternal name = true ∨ set.ignores (path ++ [name]) = true)
        ∧ ∃ found others, collectResidents set (path ++ [name]) v entry = .ok found
          ∧ collectEntries set path v entries = .ok others ∧ out = found ++ others := by
  rw [collectEntries] at h
  split at h
  · rename_i hskip
    exact Or.inl ⟨hskip, h⟩
  · rename_i hskip
    obtain ⟨found, hfound, h⟩ := bind_eq_ok_iff.mp h
    obtain ⟨others, hothers, h⟩ := bind_eq_ok_iff.mp h
    exact Or.inr ⟨hskip, found, others, hfound, hothers, (Except.ok.inj h).symm⟩

/-- What is found in a directory is found in one of its entries. -/
theorem exists_entry_of_mem (h : collectEntries set path v entries = .ok out) (hc : c ∈ out) :
    ∃ name entry found, (name, entry) ∈ entries
      ∧ ¬ (Names.isInternal name = true ∨ set.ignores (path ++ [name]) = true)
      ∧ collectResidents set (path ++ [name]) v entry = .ok found ∧ c ∈ found := by
  induction entries generalizing out with
  | nil =>
    rw [collectEntries, Except.ok.injEq] at h
    exact absurd (h ▸ hc) List.not_mem_nil
  | cons x entries ih =>
    obtain ⟨name, entry⟩ := x
    rcases collectEntries_cons h with ⟨-, h⟩ | ⟨hskip, found, others, hfound, hothers, rfl⟩
    · obtain ⟨name', entry', found, hmem, hrest⟩ := ih h hc
      exact ⟨name', entry', found, List.mem_cons_of_mem _ hmem, hrest⟩
    · rcases List.mem_append.mp hc with hc | hc
      · exact ⟨name, entry, found, List.mem_cons_self, hskip, hfound, hc⟩
      · obtain ⟨name', entry', found, hmem, hrest⟩ := ih hothers hc
        exact ⟨name', entry', found, List.mem_cons_of_mem _ hmem, hrest⟩

/-- Every entry is gone through that no rule excludes. -/
theorem exists_found_of_mem (h : collectEntries set path v entries = .ok out)
    (hmem : (name, entry) ∈ entries)
    (hskip : ¬ (Names.isInternal name = true ∨ set.ignores (path ++ [name]) = true)) :
    ∃ found, collectResidents set (path ++ [name]) v entry = .ok found ∧ found ⊆ out := by
  induction entries generalizing out with
  | nil => exact absurd hmem List.not_mem_nil
  | cons x entries ih =>
    rcases List.mem_cons.mp hmem with rfl | hmem
    · rcases collectEntries_cons h with ⟨hskip', -⟩ | ⟨-, found, others, hfound, -, rfl⟩
      · exact absurd hskip' hskip
      · exact ⟨found, hfound, List.subset_append_left found others⟩
    · rcases collectEntries_cons h with ⟨-, h⟩ | ⟨-, found, others, -, hothers, rfl⟩
      · exact ih h hmem
      · obtain ⟨found', hfound', hsub⟩ := ih hothers hmem
        exact ⟨found', hfound', List.Subset.trans hsub (List.subset_append_right found others)⟩

/-- **What the walk finds** are files to which it goes on, each with the verdict passed down to
it. -/
theorem exists_file_of_mem (h : collectResidents set path ancestorPinned entry = .ok out)
    (hnames : entry.Everywhere fun s ↦ s.names.Nodup) (hc : c ∈ out) :
    ∃ q n v, entry.get q = some (.leaf (.file n)) ∧ Passable set path q
      ∧ passedDown ancestorPinned entry q = .ok v ∧ n.candidate (path ++ q) v = .ok (some c) := by
  induction entry using PathTree.ind generalizing path ancestorPinned out with
  | leaf value =>
    cases value with
    | other =>
      rw [collectResidents, Except.ok.injEq] at h
      exact absurd (h ▸ hc) List.not_mem_nil
    | file n =>
      rw [collectResidents] at h
      obtain ⟨x, hx, h⟩ := bind_eq_ok_iff.mp h
      obtain rfl := Except.ok.inj h
      rw [Option.mem_toList] at hc
      refine ⟨[], n, ancestorPinned, PathTree.get_nil, passable_nil, rfl, ?_⟩
      rw [List.append_nil, hx, Option.mem_def.mp hc]
  | node pinned entries ih =>
    rw [collectResidents] at h
    obtain ⟨dirPinned, hpin, h⟩ := bind_eq_ok_iff.mp h
    obtain ⟨name, entry, found, hmem, hskip, hfound, hc⟩ := exists_entry_of_mem h hc
    obtain ⟨q, n, v, hget, hpass, hdown, hcand⟩ :=
      ih (name, entry) hmem hfound (hnames.child hnames.self hmem) hc
    refine ⟨name :: q, n, v, (PathTree.get_node_cons_eq_some hnames.self).mpr ⟨entry, hmem, hget⟩,
      passable_cons.mpr ⟨hskip, hpass⟩, ?_, ?_⟩
    · rw [passedDown, hpin, (PathTree.lookup_eq_some_iff hnames.self).mpr hmem]
      exact hdown
    · rwa [List.append_assoc, List.singleton_append] at hcand

/-- **Every file is decided on** to which the walk goes on. -/
theorem exists_candidate_of_get (h : collectResidents set path ancestorPinned entry = .ok out)
    (hget : entry.get q = some (.leaf (.file n))) (hpass : Passable set path q) :
    ∃ v x, passedDown ancestorPinned entry q = .ok v ∧ n.candidate (path ++ q) v = .ok x
      ∧ ∀ c ∈ x, c ∈ out := by
  induction q generalizing entry path ancestorPinned out with
  | nil =>
    rw [PathTree.get_nil, Option.some.injEq] at hget
    subst hget
    rw [collectResidents] at h
    obtain ⟨x, hx, h⟩ := bind_eq_ok_iff.mp h
    obtain rfl := Except.ok.inj h
    exact ⟨ancestorPinned, x, rfl, by rwa [List.append_nil], fun c hc ↦ Option.mem_toList.mpr hc⟩
  | cons name q ih =>
    cases entry with
    | leaf value => cases hget
    | node pinned entries =>
      rw [PathTree.get_node_cons, Option.bind_eq_some_iff] at hget
      obtain ⟨entry, hlookup, hget⟩ := hget
      obtain ⟨hskip, hpass⟩ := passable_cons.mp hpass
      rw [collectResidents] at h
      obtain ⟨dirPinned, hpin, h⟩ := bind_eq_ok_iff.mp h
      have hmem : (name, entry) ∈ entries := by
        obtain ⟨before, after, rfl, -⟩ := List.lookup_eq_some_iff.mp hlookup
        simp
      obtain ⟨found, hfound, hsub⟩ := exists_found_of_mem h hmem hskip
      obtain ⟨v, x, hdown, hx, hall⟩ := ih hfound hget hpass
      refine ⟨v, x, ?_, ?_, fun c hc ↦ hsub (hall c hc)⟩
      · rw [passedDown, hpin, hlookup]
        exact hdown
      · rwa [List.append_assoc, List.singleton_append] at hx

end Walk

/-! ## The pins -/

section Pins

variable {root entry : DirEntry} {entries : List (String × DirEntry)} {path p q : RelPath}
  {name : String} {ancestorPinned v w : Bool} {n : Resident} {pinned : Attr} {u : Option RelPath}

theorem orPinned_eq_false (h : orPinned ancestorPinned pinned = .ok v) :
    v = false ↔ ancestorPinned = false ∧ pinned.isPresent = .ok false := by
  cases ancestorPinned with
  | true =>
    obtain rfl := Except.ok.inj h
    simp
  | false =>
    have h : pinned.isPresent = .ok v := h
    simp [h]

theorem isPinned_cons (h : entries.lookup name = some entry) :
    isPinned (.node pinned entries) (name :: path) = isPinned entry path := by
  rw [isPinned, isPinned, PathTree.get_node_cons, h, Option.bind_some]

/-- **The verdict passed down** is that of the directories above, asked one by one. -/
theorem passedDown_eq_false (hget : entry.get q = some (.leaf (.file n)))
    (h : passedDown ancestorPinned entry q = .ok v) :
    v = false ↔ ancestorPinned = false ∧ ∀ r, r <+: q → r ≠ q → isPinned entry r = .ok false := by
  induction q generalizing entry ancestorPinned with
  | nil =>
    obtain rfl := Except.ok.inj h
    simp
  | cons name q ih =>
    cases entry with
    | leaf value => cases hget
    | node pinned entries =>
      rw [PathTree.get_node_cons, Option.bind_eq_some_iff] at hget
      obtain ⟨entry, hlookup, hget⟩ := hget
      rw [passedDown] at h
      obtain ⟨dirPinned, hpin, h⟩ := bind_eq_ok_iff.mp h
      rw [hlookup] at h
      rw [ih hget h, orPinned_eq_false hpin, and_assoc]
      refine and_congr_right fun _ ↦ ⟨?_, fun hall ↦ ⟨?_, fun r hr hne ↦ ?_⟩⟩
      · rintro ⟨hself, hall⟩ r hr hne
        rcases List.prefix_cons_iff.mp hr with rfl | ⟨r, rfl, hbelow⟩
        · exact hself
        · rw [isPinned_cons hlookup]
          exact hall r hbelow fun heq ↦ hne (congrArg _ heq)
      · exact hall [] List.nil_prefix (List.cons_ne_nil name q).symm
      · rw [← isPinned_cons hlookup]
        exact hall _ (List.cons_prefix_cons.mpr ⟨rfl, hr⟩) fun heq ↦ hne (List.cons.inj heq).2

/-- With the file's own pin. -/
theorem pin_eq_false (hget : root.get p = some (.leaf (.file n)))
    (hdown : passedDown false root p = .ok v) (h : orPinned v n.pinned = .ok w) :
    w = false ↔ ∀ r, r <+: p → isPinned root r = .ok false := by
  have hself : isPinned root p = n.pinned.isPresent := by rw [isPinned, hget]
  rw [orPinned_eq_false h, passedDown_eq_false hget hdown, ← hself]
  constructor
  · rintro ⟨⟨-, habove⟩, hself⟩ r hr
    by_cases hrp : r = p
    · rwa [hrp]
    · exact habove r hr hrp
  · exact fun hall ↦ ⟨⟨rfl, fun r hr _ ↦ hall r hr⟩, hall p List.prefix_rfl⟩

theorem firstPinned_eq_none {ps : List RelPath} (h : firstPinned root ps = .ok u) :
    u = none ↔ ∀ r ∈ ps, isPinned root r = .ok false := by
  induction ps with
  | nil =>
    obtain rfl := Except.ok.inj h
    simp
  | cons path ps ih =>
    rw [firstPinned] at h
    obtain ⟨b, hb, h⟩ := bind_eq_ok_iff.mp h
    rw [List.forall_mem_cons, hb]
    cases b with
    | true =>
      obtain rfl := Except.ok.inj h
      simp
    | false => simpa using ih h

theorem pinnedSelfOrAncestor_eq_none (h : pinnedSelfOrAncestor root p = .ok u) :
    u = none ↔ ∀ r, r <+: p → isPinned root r = .ok false := by
  rw [firstPinned_eq_none h]
  simp

end Pins

section Checks

variable {set : IgnoreSet} {root : DirEntry} {path p : RelPath} {v : Bool} {n : Resident}
  {x : Option Candidate}

theorem Resident.candidate_isSome (h : n.candidate path v = .ok x) :
    x.isSome = true ↔ n.inode.dehydrated.isPresent = .ok false ∧ orPinned v n.pinned = .ok false
      ∧ n.inode.id.hasValue = .ok true ∧ n.inode.stampState = .ok .clean
      ∧ ¬ ('\n' ∈ path.display.toList ∨ '\r' ∈ path.display.toList) := by
  rw [candidate] at h
  obtain ⟨dehydrated, hd, ⟨rfl, rfl⟩ | ⟨hresident, h⟩⟩ := check_eq_ok h
  · simp [hd]
  obtain ⟨pinned, hp, ⟨rfl, rfl⟩ | ⟨hunpinned, h⟩⟩ := check_eq_ok h
  · simp [hp]
  obtain ⟨filled, hid, ⟨hempty, rfl⟩ | ⟨hfilled, h⟩⟩ := check_eq_ok h
  · simp_all
  obtain ⟨stamp, hs, ⟨hdirty, rfl⟩ | ⟨hclean, h⟩⟩ := check_eq_ok h
  · simp [hs, hdirty]
  rw [Bool.not_eq_true] at hresident hunpinned
  rw [Bool.not_eq_true, Bool.not_eq_false'] at hfilled
  rw [hd, hp, hid, hs, hresident, hunpinned, hfilled, not_not.mp hclean]
  split at h
  · obtain rfl := Except.ok.inj h
    simp [*]
  · obtain ⟨t, -, h⟩ := bind_eq_ok_iff.mp h
    obtain rfl := Except.ok.inj h
    simp [*]

theorem Resident.rel_of_candidate {c : Candidate} (h : n.candidate path v = .ok (some c)) :
    c.rel = path.display := by
  rw [candidate] at h
  obtain ⟨_, -, ⟨-, ⟨⟩⟩ | ⟨-, h⟩⟩ := check_eq_ok h
  obtain ⟨_, -, ⟨-, ⟨⟩⟩ | ⟨-, h⟩⟩ := check_eq_ok h
  obtain ⟨_, -, ⟨-, ⟨⟩⟩ | ⟨-, h⟩⟩ := check_eq_ok h
  obtain ⟨_, -, ⟨-, ⟨⟩⟩ | ⟨-, h⟩⟩ := check_eq_ok h
  split at h
  · cases h
  · obtain ⟨t, -, h⟩ := bind_eq_ok_iff.mp h
    rw [← Option.some.inj (Except.ok.inj h)]

/-- An id that the cloud could have given. -/
theorem utf8_filter_eq_some {a : Attr} {u : Option String} (h : a.utf8 = .ok u) (cloudId : String) :
    u.filter (· ≠ "") = some cloudId ↔ a = .text cloudId ∧ cloudId ≠ "" := by
  rw [Option.filter_eq_some_iff, decide_eq_true_eq]
  refine and_congr_left' ?_
  cases a <;> cases h <;> simp [eq_comm]

theorem not_isOk_error {ε α : Type} (e : ε) : ¬ (Except.error e : Except ε α).isOk = true :=
  Bool.false_ne_true

/-- The exchange finds the file that was looked at. -/
def Swap.Finds (swap : Swap) (n : Resident) : Prop :=
  ∀ size cloudId etag st, swap.displaced size cloudId etag = .ok st → st = some n.inode.stat

theorem Resident.reclaim_isOk {store : Store} {waiting sending : List FileId} {swap : Swap}
    {answer : Except Refused (ℕ × Store)} (hsame : swap.Finds n)
    (h : n.reclaim root path store waiting sending swap = .ok answer) :
    answer.isOk = true ↔ n.inode.dehydrated.isPresent = .ok false
      ∧ (∀ r, r <+: path → isPinned root r = .ok false)
      ∧ ¬ (n.inode.stat.file ∈ waiting ∨ n.inode.stat.file ∈ sending)
      ∧ (∃ cloudId, n.inode.id = .text cloudId ∧ cloudId ≠ "")
      ∧ n.inode.stampState = .ok .clean := by
  rw [Resident.reclaim] at h
  obtain ⟨dehydrated, hd, ⟨rfl, rfl⟩ | ⟨hresident, h⟩⟩ := check_eq_ok h
  · simp [hd, not_isOk_error]
  rw [hd, (Bool.not_eq_true _).mp hresident]
  obtain ⟨via, hpin, h⟩ := bind_eq_ok_iff.mp h
  rw [← pinnedSelfOrAncestor_eq_none hpin]
  cases via with
  | some via =>
    obtain rfl := Except.ok.inj h
    simp [not_isOk_error]
  | none =>
    dsimp only at h
    split at h
    · rename_i hqueued
      obtain rfl := Except.ok.inj h
      simp [hqueued, not_isOk_error]
    · rename_i hqueued
      obtain ⟨id, hid, h⟩ := bind_eq_ok_iff.mp h
      have hname := fun cloudId ↦ utf8_filter_eq_some hid cloudId
      split at h
      · rename_i cloudId hcloudId
        obtain ⟨stamp, hs, ⟨hdirty, rfl⟩ | ⟨hclean, h⟩⟩ := check_eq_ok h
        · simp [hs, hdirty, not_isOk_error]
        obtain ⟨etag, -, h⟩ := bind_eq_ok_iff.mp h
        obtain ⟨st, hst, ⟨hchanged, rfl⟩ | ⟨-, h⟩⟩ := check_eq_ok h
        · exact absurd (hsame _ _ _ _ hst) hchanged
        obtain rfl := Except.ok.inj h
        have hid := (hname cloudId).mp hcloudId
        rw [hs, not_not.mp hclean]
        exact iff_of_true rfl ⟨rfl, rfl, hqueued, ⟨cloudId, hid⟩, rfl⟩
      · rename_i hnone
        obtain rfl := Except.ok.inj h
        refine iff_of_false (not_isOk_error _) ?_
        rintro ⟨-, -, -, ⟨cloudId, hcloudId⟩, -⟩
        exact hnone cloudId ((hname cloudId).mpr hcloudId)

end Checks

/-! ## The two checks -/

/-- A name that a directory gives, without a line break. -/
structure IsName (name : String) : Prop where
  filled : name ≠ ""
  inner : '/' ∉ name.toList
  notSelf : name ≠ "."
  notParent : name ≠ ".."
  oneLine : '\n' ∉ name.toList ∧ '\r' ∉ name.toList

/-- The sync directory. No two entries of a directory have one name. -/
structure SyncTree where
  pinned : Attr
  entries : List (String × DirEntry)
  named : PathTree.Everywhere (fun s : DirEntry ↦ s.names.Nodup ∧ ∀ name ∈ s.names, IsName name)
    (.node pinned entries)

def SyncTree.root (t : SyncTree) : DirEntry := .node t.pinned t.entries

/-- A file that no check stops, but for the one of its id. -/
structure Evictable (set : IgnoreSet) (root : DirEntry) (p : RelPath) (n : Resident) : Prop where
  unclaimed : ∀ name ∈ p, Names.isInternal name = false
  synced : set.ignores p = false
  resident : n.inode.dehydrated.isPresent = .ok false
  unpinned : ∀ r, r <+: p → isPinned root r = .ok false
  clean : n.inode.stampState = .ok .clean

section Agreement

variable {set : IgnoreSet} {t : SyncTree} {entry : DirEntry} {p : RelPath} {n : Resident}
  {out : List Candidate} {store : Store} {waiting sending : List FileId} {swap : Swap}
  {answer : Except Refused (ℕ × Store)}

theorem isName_of_get {s : DirEntry}
    (h : entry.Everywhere fun s ↦ s.names.Nodup ∧ ∀ name ∈ s.names, IsName name)
    (hget : entry.get p = some s) : ∀ name ∈ p, IsName name := by
  induction p generalizing entry with
  | nil => exact List.forall_mem_nil _
  | cons name p ih =>
    cases entry with
    | leaf value => cases hget
    | node pinned entries =>
      obtain ⟨entry, hmem, hget⟩ := (PathTree.get_node_cons_eq_some h.self.1).mp hget
      refine List.forall_mem_cons.mpr ⟨h.self.2 name ?_, ih (h.child h.self.1 hmem) hget⟩
      exact List.mem_map.mpr ⟨(name, entry), hmem, rfl⟩

namespace SyncTree

theorem ne_nil_of_get (h : t.root.get p = some (.leaf (.file n))) : p ≠ [] := by
  rintro rfl
  rw [PathTree.get_nil, root] at h
  cases h

theorem named_of_get {s : DirEntry} (h : t.root.get p = some s) : p.Named := fun name hname ↦
  have hname := isName_of_get t.named h name hname
  ⟨hname.filled, hname.inner⟩

theorem safeJoin_display (h : t.root.get p = some (.leaf (.file n))) :
    safeJoin p.display = if p.any Names.isInternal then none else some p :=
  (t.named_of_get h).safeJoin_display (t.ne_nil_of_get h) fun name hname ↦
    have hname := isName_of_get t.named h name hname
    ⟨hname.notSelf, hname.notParent⟩

theorem oneLine_display {s : DirEntry} (h : t.root.get p = some s) :
    ¬ ('\n' ∈ p.display.toList ∨ '\r' ∈ p.display.toList) := by
  have hname := isName_of_get t.named h
  rintro (hbreak | hbreak)
  · rcases RelPath.mem_display hbreak with ⟨⟨⟩⟩ | ⟨name, hmem, hbreak⟩
    exact (hname name hmem).oneLine.1 hbreak
  · rcases RelPath.mem_display hbreak with ⟨⟨⟩⟩ | ⟨name, hmem, hbreak⟩
    exact (hname name hmem).oneLine.2 hbreak

/-- **What the walk lists.** -/
theorem listed_iff (hwalk : evictableCandidates set t.root = .ok out)
    (hget : t.root.get p = some (.leaf (.file n))) :
    p.display ∈ out.map Candidate.rel
      ↔ Evictable set t.root p n ∧ n.inode.id.hasValue = .ok true := by
  have hwalk : collectResidents set [] false t.root = .ok out := hwalk
  have hnames := t.named.mono fun _ h ↦ h.1
  constructor
  · intro hlisted
    obtain ⟨c, hc, hrel⟩ := List.mem_map.mp hlisted
    obtain ⟨q, n', v, hget', hpass, hdown, hcand⟩ := exists_file_of_mem hwalk hnames hc
    rw [List.nil_append] at hcand
    obtain rfl : q = p := (t.named_of_get hget').display_inj (t.named_of_get hget)
      ((Resident.rel_of_candidate hcand).symm.trans hrel)
    obtain rfl : n' = n := by
      rw [hget', Option.some.injEq, PathTree.leaf.injEq, Leaf.file.injEq] at hget
      exact hget
    obtain ⟨hresident, hpin, hid, hclean, -⟩ := (Resident.candidate_isSome hcand).mp rfl
    exact ⟨⟨hpass.1, hpass.2 (t.ne_nil_of_get hget), hresident,
      (pin_eq_false hget hdown hpin).mp rfl, hclean⟩, hid⟩
  · rintro ⟨h, hid⟩
    obtain ⟨v, x, hdown, hx, hall⟩ :=
      exists_candidate_of_get hwalk hget ⟨h.unclaimed, fun _ ↦ h.synced⟩
    rw [List.nil_append] at hx
    have hv : v = false := (passedDown_eq_false hget hdown).mpr
      ⟨rfl, fun r hr _ ↦ h.unpinned r hr⟩
    have hpin : orPinned v n.pinned = .ok false := by
      rw [hv]
      have hself := h.unpinned p List.prefix_rfl
      rwa [isPinned, hget] at hself
    obtain ⟨c, rfl⟩ := Option.isSome_iff_exists.mp ((Resident.candidate_isSome hx).mpr
      ⟨h.resident, hpin, hid, h.clean, t.oneLine_display hget⟩)
    exact List.mem_map.mpr ⟨c, hall c rfl, Resident.rel_of_candidate hx⟩

/-- **What is evicted.** -/
theorem reclaimed_iff (hget : t.root.get p = some (.leaf (.file n))) (hsame : swap.Finds n)
    (h : reclaim set t.root p.display store waiting sending swap = .ok answer) :
    answer.isOk = true ↔ Evictable set t.root p n
      ∧ ¬ (n.inode.stat.file ∈ waiting ∨ n.inode.stat.file ∈ sending)
      ∧ ∃ cloudId, n.inode.id = .text cloudId ∧ cloudId ≠ "" := by
  rw [reclaim, t.safeJoin_display hget] at h
  by_cases hinternal : p.any Names.isInternal = true
  · rw [if_pos hinternal] at h
    obtain rfl := Except.ok.inj h
    obtain ⟨name, hmem, hname⟩ := List.any_eq_true.mp hinternal
    refine iff_of_false (not_isOk_error _) fun hall ↦ ?_
    rw [hall.1.unclaimed name hmem] at hname
    cases hname
  · rw [if_neg hinternal] at h
    dsimp only at h
    by_cases hignored : set.isIgnored p.display = true
    · rw [if_pos hignored] at h
      obtain rfl := Except.ok.inj h
      refine iff_of_false (not_isOk_error _) fun hall ↦ ?_
      have hsynced : set.isIgnored p.display = false := hall.1.synced
      rw [hignored] at hsynced
      cases hsynced
    · rw [if_neg hignored, hget] at h
      rw [Resident.reclaim_isOk hsame h]
      have hunclaimed : ∀ name ∈ p, Names.isInternal name = false := by simpa using hinternal
      constructor
      · rintro ⟨hresident, hunpinned, hqueued, hid, hclean⟩
        exact ⟨⟨hunclaimed, by simpa [IgnoreSet.ignores] using hignored, hresident, hunpinned,
          hclean⟩, hqueued, hid⟩
      · rintro ⟨hall, hqueued, hid⟩
        exact ⟨hall.resident, hall.unpinned, hqueued, hid, hall.clean⟩

end SyncTree

/-! ### When no attribute fails to be read -/

/-- The attributes of what is here are absent or have values. -/
def ReadableHere : DirEntry → Prop
  | .node pinned _ => pinned.Readable
  | .leaf (.file n) => n.inode.dehydrated.Readable ∧ n.pinned.Readable ∧ n.inode.id.Readable
    ∧ n.inode.stamp.Readable ∧ n.inode.etag.Readable ∧ n.hydratedAt.Readable
  | .leaf .other => True

theorem Attr.Readable.returns {a : Attr} (h : a.Readable) :
    (∃ b, a.isPresent = .ok b) ∧ (∃ b, a.hasValue = .ok b) ∧ (∃ value, a.utf8 = .ok value)
      ∧ (∃ t, a.hydratedAt = .ok t) ∧ ∃ value, a.recorded = .ok value := by
  cases a with
  | unreadable error => exact absurd rfl (h error)
  | _ => exact ⟨⟨_, rfl⟩, ⟨_, rfl⟩, ⟨_, rfl⟩, ⟨_, rfl⟩, ⟨_, rfl⟩⟩

theorem Attr.Readable.orPinned {a : Attr} (h : a.Readable) (b : Bool) :
    ∃ v, orPinned b a = .ok v := by
  cases b with
  | true => exact ⟨true, rfl⟩
  | false => exact h.returns.1

theorem Attr.Readable.stampState {i : Inode} (h : i.stamp.Readable) :
    ∃ state, i.stampState = .ok state := by
  obtain ⟨-, -, -, -, value, hvalue⟩ := h.returns
  rw [Inode.stampState, hvalue]
  cases value with
  | none => exact ⟨_, rfl⟩
  | some recorded => exact ⟨_, rfl⟩

theorem Resident.candidate_ok (h : ReadableHere (.leaf (.file n))) (path : RelPath) (v : Bool) :
    ∃ x, n.candidate path v = .ok x := by
  obtain ⟨hd, hp, hid, hs, -, ht⟩ := h
  refine check_ok hd.returns.1 (check_ok (hp.orPinned v) (check_ok hid.returns.2.1
    (check_ok (Attr.Readable.stampState hs) ?_)))
  split
  · exact ⟨none, rfl⟩
  · obtain ⟨-, -, -, ⟨t, ht⟩, -⟩ := ht.returns
    rw [ht]
    exact ⟨_, rfl⟩

theorem collectEntries_ok {entries : List (String × DirEntry)}
    (h : ∀ x ∈ entries, ∀ path v, ∃ out, collectResidents set path v x.2 = .ok out)
    (path : RelPath) (v : Bool) : ∃ out, collectEntries set path v entries = .ok out := by
  induction entries with
  | nil => exact ⟨[], rfl⟩
  | cons x entries ih =>
    obtain ⟨others, hothers⟩ := ih (List.forall_mem_cons.mp h).2
    obtain ⟨found, hfound⟩ := (List.forall_mem_cons.mp h).1 (path ++ [x.1]) v
    rw [collectEntries]
    split
    · exact ⟨others, hothers⟩
    · rw [hfound, hothers]
      exact ⟨found ++ others, rfl⟩

theorem collectResidents_ok (h : entry.Everywhere ReadableHere)
    (hnames : entry.Everywhere fun s ↦ s.names.Nodup) (path : RelPath) (v : Bool) :
    ∃ out, collectResidents set path v entry = .ok out := by
  induction entry using PathTree.ind generalizing path v with
  | leaf value =>
    cases value with
    | other => exact ⟨[], rfl⟩
    | file n =>
      obtain ⟨x, hx⟩ := n.candidate_ok h.self path v
      rw [collectResidents, hx]
      exact ⟨x.toList, rfl⟩
  | node pinned entries ih =>
    obtain ⟨dirPinned, hpin⟩ := Attr.Readable.orPinned h.self v
    rw [collectResidents, hpin]
    exact collectEntries_ok (fun x hx path v ↦
      ih x hx (h.child hnames.self hx) (hnames.child hnames.self hx) path v) path dirPinned

theorem isPinned_ok (h : entry.Everywhere ReadableHere) {s : DirEntry}
    (hget : entry.get p = some s) : ∃ b, isPinned entry p = .ok b := by
  have hs := h p s hget
  rw [isPinned, hget]
  match s, hs with
  | .node pinned _, hs => exact hs.returns.1
  | .leaf (.file n), hs => exact hs.2.1.returns.1
  | .leaf .other, _ => exact ⟨false, rfl⟩

theorem firstPinned_ok {root : DirEntry} {ps : List RelPath}
    (h : ∀ r ∈ ps, ∃ b, isPinned root r = .ok b) : ∃ u, firstPinned root ps = .ok u := by
  induction ps with
  | nil => exact ⟨none, rfl⟩
  | cons path ps ih =>
    obtain ⟨hpath, hps⟩ := List.forall_mem_cons.mp h
    exact check_ok hpath (ih hps)

theorem pinnedSelfOrAncestor_ok (h : entry.Everywhere ReadableHere) {s : DirEntry}
    (hget : entry.get p = some s) : ∃ u, pinnedSelfOrAncestor entry p = .ok u := by
  refine firstPinned_ok fun r hr ↦ ?_
  obtain ⟨q, rfl⟩ := (List.mem_inits r p).mp (List.mem_reverse.mp hr)
  rw [PathTree.get_append, Option.bind_eq_some_iff] at hget
  obtain ⟨s', hget, -⟩ := hget
  exact isPinned_ok h hget

theorem passedDown_ok (h : entry.Everywhere ReadableHere) {s : DirEntry}
    (hnames : entry.Everywhere fun s ↦ s.names.Nodup) (hget : entry.get p = some s) (v : Bool) :
    ∃ w, passedDown v entry p = .ok w := by
  induction p generalizing entry v with
  | nil => exact ⟨v, rfl⟩
  | cons name p ih =>
    cases entry with
    | leaf value => cases hget
    | node pinned entries =>
      obtain ⟨entry, hmem, hget⟩ := (PathTree.get_node_cons_eq_some hnames.self).mp hget
      obtain ⟨dirPinned, hpin⟩ := Attr.Readable.orPinned h.self v
      rw [passedDown, hpin, (PathTree.lookup_eq_some_iff hnames.self).mpr hmem]
      exact ih (h.child hnames.self hmem) (hnames.child hnames.self hmem) hget dirPinned

theorem Resident.reclaim_ok (h : ReadableHere (.leaf (.file n))) {root : DirEntry}
    (hpins : ∃ u, pinnedSelfOrAncestor root p = .ok u)
    (hswap : ∀ size cloudId etag, ∃ st, swap.displaced size cloudId etag = .ok st) :
    ∃ answer, n.reclaim root p store waiting sending swap = .ok answer := by
  obtain ⟨hd, -, hid, hs, he, -⟩ := h
  refine check_ok hd.returns.1 (bind_ok hpins fun u ↦ ?_)
  cases u with
  | some via => exact ⟨_, rfl⟩
  | none =>
    dsimp only
    split
    · exact ⟨_, rfl⟩
    · refine bind_ok hid.returns.2.2.1 fun value ↦ ?_
      split
      · rename_i cloudId _
        refine check_ok (Attr.Readable.stampState hs) (bind_ok he.returns.2.2.1 fun etag ↦ ?_)
        exact check_ok (hswap _ cloudId etag) ⟨_, rfl⟩
      · exact ⟨_, rfl⟩

theorem SyncTree.reclaim_ok (hget : t.root.get p = some (.leaf (.file n)))
    (h : t.root.Everywhere ReadableHere)
    (hswap : ∀ size cloudId etag, ∃ st, swap.displaced size cloudId etag = .ok st) :
    ∃ answer, reclaim set t.root p.display store waiting sending swap = .ok answer := by
  rw [reclaim, t.safeJoin_display hget]
  by_cases hinternal : p.any Names.isInternal = true
  · rw [if_pos hinternal]
    exact ⟨_, rfl⟩
  · rw [if_neg hinternal]
    dsimp only
    split
    · exact ⟨_, rfl⟩
    · rw [hget]
      exact n.reclaim_ok (h p _ hget) (pinnedSelfOrAncestor_ok h hget) hswap

/-- The verdict on a file's pins that the walk comes to. -/
def pinVerdict (root : DirEntry) (p : RelPath) (n : Resident) : Except String Bool := do
  let dirPinned ← passedDown false root p
  orPinned dirPinned n.pinned

/-- **What the walk lists is what `reclaim` accepts**, wherever both come to an answer, and but for
an id that is not UTF-8: the walk takes a file for uploaded that `reclaim` refuses as not uploaded.
Both come to an answer where every attribute can be read and the placeholder can be swapped in. The
verdict passed down is the one that the directories give when they are asked one by one. -/
theorem listed_iff_reclaimed (set : IgnoreSet) (t : SyncTree) {p : RelPath} {n : Resident}
    (hget : t.root.get p = some (.leaf (.file n))) (store : Store) (swap : Swap)
    (hsame : swap.Finds n) :
    (t.root.Everywhere ReadableHere →
      (∀ size cloudId etag, ∃ st, swap.displaced size cloudId etag = .ok st) →
      ∃ out answer v u, evictableCandidates set t.root = .ok out
        ∧ reclaim set t.root p.display store [] [] swap = .ok answer
        ∧ pinVerdict t.root p n = .ok v ∧ pinnedSelfOrAncestor t.root p = .ok u)
    ∧ (∀ v u, pinVerdict t.root p n = .ok v → pinnedSelfOrAncestor t.root p = .ok u →
      v = u.isSome)
    ∧ ∀ out answer, evictableCandidates set t.root = .ok out →
      reclaim set t.root p.display store [] [] swap = .ok answer →
      ((p.display ∈ out.map Candidate.rel ↔ answer.isOk = true)
        ↔ (Evictable set t.root p n → ∀ bytes, n.inode.id = .binary bytes → bytes = [])) := by
  have hnames := t.named.mono fun _ h ↦ h.1
  refine ⟨fun hread hswap ↦ ?_, fun v u hv hu ↦ ?_, fun out answer hwalk hanswer ↦ ?_⟩
  · obtain ⟨out, hout⟩ : ∃ out, evictableCandidates set t.root = .ok out :=
      collectResidents_ok hread hnames [] false
    obtain ⟨answer, hanswer⟩ := t.reclaim_ok hget hread hswap
    obtain ⟨v, hv⟩ := bind_ok (passedDown_ok hread hnames hget false)
      fun v ↦ (hread p _ hget).2.1.orPinned v
    obtain ⟨u, hu⟩ := pinnedSelfOrAncestor_ok hread hget
    exact ⟨out, answer, v, u, hout, hanswer, hv, hu⟩
  · obtain ⟨dirPinned, hdown, hv⟩ := bind_eq_ok_iff.mp hv
    have hiff := (pin_eq_false hget hdown hv).trans (pinnedSelfOrAncestor_eq_none hu).symm
    cases u <;> simpa using hiff
  · rw [t.listed_iff hwalk hget, t.reclaimed_iff hget hsame hanswer]
    simp only [List.not_mem_nil, or_self, not_false_eq_true, true_and]
    cases hid : n.inode.id with
    | absent => simp [Attr.hasValue]
    | text value => simp [Attr.hasValue]
    | binary bytes => simp [Attr.hasValue]
    | unreadable error => simp [Attr.hasValue]

end Agreement

/-! ## A file with an id that is not UTF-8 -/

def soleStat : Stat := ⟨⟨1, 2⟩, 5, 7, 0⟩

/-- A clean file with this id. -/
def soleFile (id : Attr) : Resident where
  inode := ⟨soleStat, false, id, .absent, .text soleStat.stamp, .absent, true⟩
  isFile := rfl
  pinned := .absent
  hydratedAt := .absent
  blocks := 8

theorem isName_sole : IsName "f" :=
  ⟨by decide, by decide, by decide, by decide, by decide⟩

def soleTree (id : Attr) : SyncTree where
  pinned := .absent
  entries := [("f", .leaf (.file (soleFile id)))]
  named := by
    have hnodup : ([("f", .leaf (.file (soleFile id)))].map
        (Prod.fst : String × DirEntry → String)).Nodup := List.nodup_singleton "f"
    refine (PathTree.everywhere_node hnodup).mpr ⟨⟨hnodup, ?_⟩, List.forall_mem_singleton.mpr ?_⟩
    · exact List.forall_mem_singleton.mpr isName_sole
    · exact PathTree.everywhere_leaf.mpr ⟨List.nodup_nil, List.forall_mem_nil _⟩

def soleStore : Store := ⟨AList.singleton ⟨1, 2⟩ ["f"], true, none, ⟨[".git"], []⟩⟩

/-- The swap finds the file, and leaves nothing on disk. -/
def soleSwap : Swap := ⟨fun _ _ _ ↦ .ok (some soleStat), some 0⟩

/-- A file whose id is one byte that is not UTF-8 is listed, and `reclaim` refuses it. -/
theorem foreign_id_listed :
    evictableCandidates ⟨[".git"], []⟩ (soleTree (.binary [255])).root = .ok [⟨"f", 4096, 7⟩]
      ∧ reclaim ⟨[".git"], []⟩ (soleTree (.binary [255])).root "f" soleStore [] [] soleSwap
        = .ok (.error .notUploaded) := by
  exact ⟨rfl, rfl⟩

/-- With an id that is UTF-8 it is listed and evicted. -/
theorem listed_iff_reclaimed_sole :
    "f" ∈ ([⟨"f", 4096, 7⟩] : List Candidate).map Candidate.rel
      ↔ (Except.ok (4096, { soleStore with index := soleStore.index.erase ⟨1, 2⟩ }) :
        Except Refused (ℕ × Store)).isOk = true :=
  have hget : (soleTree (.text "a")).root.get ["f"] = some (.leaf (.file (soleFile (.text "a")))) :=
    rfl
  have hsame : soleSwap.Finds (soleFile (.text "a")) := fun _ _ _ _ h ↦ (Except.ok.inj h).symm
  ((listed_iff_reclaimed ⟨[".git"], []⟩ (soleTree (.text "a")) hget soleStore soleSwap hsame).2.2
    _ _ rfl rfl).mpr fun _ _ h ↦ nomatch h

end HydrationAPI.Client
