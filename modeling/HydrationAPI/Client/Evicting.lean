import HydrationAPI.Client.Reclaim
import HydrationAPI.Client.Upserted

/-!
# Giving files back while they are used

An eviction looks at a file by its name, one attribute after another, decides, and swaps a
placeholder in; a sweep does so for every file of its plan, and the user's own way in for one that
is named. Applications write files and save over them all the while, and uploads, delta passes and
the helper go on.

What a look has seen is kept beside the world, and what of a file the cloud has: a stamp that fits
is found only on a file that has nothing in it but that. A file is given back for what one look has
found, so that it has to be the same file, and as it was, when it is unlinked.
-/

namespace HydrationAPI.Client.Evicting

open Dialogue Errand
open EvictPolicy (Candidate EvictionConfig)

/-! ## The program -/

/-- What `std::fs::metadata` says of a path. -/
structure Metadata where
  stat : Stat
  isFile : Bool
  /-- What it holds on disk, in units of 512 bytes. -/
  blocks : ℕ

/-- Where a path leads once no name in it is a link. -/
inductive Resolved where
  | inside (path : RelPath)
  | outside
  | failed

/-- What an eviction asks. -/
inductive Ask where
  | loadIgnore
  | metadata (p : RelPath)
  /-- `canonicalize`, of a path and of the root. -/
  | resolve (p : RelPath)
  | isPinned (p : RelPath)
  /-- `TmpfilePlacer::new`. -/
  | openRoot
  | fs (q : Syscall)
  /-- `symlink_metadata`, for what is held on disk. -/
  | blocks (p : RelPath)
  /-- What has been opened for one file is closed. -/
  | close
  /-- `evictable_candidates`. -/
  | candidates
  /-- `Store::scan`; the store is what the walk made of it. -/
  | scan

@[reducible] def Ask.Answer : Ask → Type
  | loadIgnore => IgnoreSet
  | metadata _ => Except IoError Metadata
  | resolve _ => Resolved
  | isPinned _ => Except IoError Bool
  | openRoot => Except IoError Unit
  | fs q => q.Answer
  | blocks _ => Except IoError ℕ
  | close => Unit
  | candidates => Except IoError (List Candidate)
  | scan => Store

/-- A program that gives files back, with the store. -/
abbrev Evictor := Errand Ask Ask.Answer Store IoError

namespace Evictor

abbrev call (q : Ask) : Evictor q.Answer := ask q

/-- A placer of its own, which counts from one. -/
def placing {α : Type} (m : Placer α) : Evictor α := fun store ↦
  ((m 0).via Ask.fs fun _ a ↦ a).bind fun r ↦ .done (r.1, store)

/-- `get_xattr`. -/
def attr {α : Type} (p : RelPath) (name : XattrName) (f : Attr → Except String α) : Evictor α := do
  match f (← placing (Placer.sys (.getxattr p name))) with
  | .ok a => pure a
  | .error e => throw ⟨.other, none, e⟩

def firstPinned : List RelPath → Evictor (Option RelPath)
  | [] => pure none
  | p :: ancestors => do
    match ← call (.isPinned p) with
    | .error e => throw e
    | .ok true => pure (some p)
    | .ok false => firstPinned ancestors

/-- Is the path, or any directory above it, pinned? -/
def pinnedSelfOrAncestor (path : RelPath) : Evictor (Option RelPath) :=
  firstPinned path.inits.reverse

/-- Whether a file may go: the object that has its content, and the tag. -/
def check (path : RelPath) (md : Metadata) (waiting sending : List FileId) :
    Evictor (Except Refused (String × Option String)) := do
  if ← attr path .dehydrated Attr.isPresent then pure (.error .alreadyDehydrated)
  else
    match ← pinnedSelfOrAncestor path with
    | some via => pure (.error (.pinned via))
    | none =>
      if md.stat.file ∈ waiting ∨ md.stat.file ∈ sending then pure (.error .uploadPending)
      else
        match (← attr path .id Attr.utf8).filter (· ≠ "") with
        | none => pure (.error .notUploaded)
        | some cloudId =>
          match ← placing (Placer.stampStateAt path) with
          | .clean =>
            let etag ← attr path .etag Attr.utf8
            pure (.ok (cloudId, etag))
          | .dirty | .unstamped => pure (.error .changedSinceUpload)

/-- Swap a placeholder in for a file that may go; the bytes that were reclaimed. While it looks for
a scratch name that is free nothing is answered. -/
def swap (tries : ℕ) (path : RelPath) (md : Metadata) (cloudId : String) (etag : Option String) :
    Evictor (Option (Except Refused ℕ)) := do
  match ← call .openRoot with
  | .error e => throw e
  | .ok _ =>
    match ← placing (Placer.placeIfUnchanged tries path md.stat.size cloudId etag md.stat) with
    | none => pure none
    | some .targetChanged => pure (some (.error .changedSinceUpload))
    | some .placed =>
      let after ← call (.blocks path)
      modify fun store ↦ { store with index := store.index.erase md.stat.file }
      pure (some (.ok (md.blocks * 512 - after.toOption.getD 0 * 512)))

/-- What becomes of a path that is one. -/
def reclaimAt (tries : ℕ) (joined : RelPath) (waiting sending : List FileId) :
    Evictor (Option (Except Refused ℕ)) := do
  match ← call (.metadata joined) with
  | .error e => throw e
  | .ok md =>
    if md.isFile = false then pure (some (.error (.notEligible "not a regular file")))
    else
      match ← call (.resolve joined) with
      | .failed => pure (some (.error (.notEligible "could not resolve the path")))
      | .outside => pure (some (.error (.notEligible "resolves outside the sync directory")))
      | .inside path =>
        match ← check path md waiting sending with
        | .error why => pure (some (.error why))
        | .ok (cloudId, etag) => swap tries path md cloudId etag

/-- Turn a file with content back into a placeholder. -/
def reclaim (tries : ℕ) (rel : String) (waiting sending : List FileId) :
    Evictor (Option (Except Refused ℕ)) := do
  match safeJoin rel with
  | none =>
    pure (some (.error (.notEligible s!"\"{rel}\" is not a path inside the sync directory")))
  | some joined =>
    let set ← call .loadIgnore
    if set.isIgnored rel then
      pure (some (.error
        (.notEligible s!"\"{rel}\" is sync-ignored and is kept as a real local file")))
    else do
      let done : Except IoError (Option (Except Refused ℕ)) ←
        attempt (reclaimAt tries joined waiting sending)
      call .close
      lift done

/-- A refusal is a skip, not a failure. -/
def sweep (tries : ℕ) (waiting sending : List FileId) : List String → ℕ → Evictor (Option ℕ)
  | [], freed => pure (some freed)
  | rel :: plan, freed => do
    match ← attempt (reclaim tries rel waiting sending) with
    | .ok none => pure none
    | .ok (some (.ok bytes)) => sweep tries waiting sending plan (min (freed + bytes) u64Max)
    | .ok (some (.error _)) | .error _ => sweep tries waiting sending plan freed

/-- One auto-eviction sweep. -/
def planAndReclaim (tries : ℕ) (cfg : EvictionConfig) (available total now : ℕ)
    (waiting sending : List FileId) : Evictor (Option ℕ) := do
  if (cfg.marks total).1 ≤ available then pure (some 0)
  else
    match ← call .candidates with
    | .error e => throw e
    | .ok candidates =>
      let store ← call .scan
      modify fun _ ↦ store
      sweep tries waiting sending (EvictPolicy.plan candidates available total cfg now) 0

end Evictor

/-- What makes the daemon give files back, with what is queued at the time. -/
inductive Request where
  /-- `evict`, on the control socket. -/
  | evict (rel : String) (waiting sending : List FileId)
  /-- The thread that watches the disk. -/
  | pressure (cfg : EvictionConfig) (available total now : ℕ) (waiting sending : List FileId)

/-- One is served after the other; what became of each is told and forgotten. -/
def serve (tries : ℕ) : List Request → Evictor Unit
  | [] => pure ()
  | .evict rel waiting sending :: requests => do
    let store ← Evictor.call .scan
    modify fun _ ↦ store
    let _ ← attempt (Evictor.reclaim tries rel waiting sending)
    serve tries requests
  | .pressure cfg available total now waiting sending :: requests => do
    let _ ← attempt (Evictor.planAndReclaim tries cfg available total now waiting sending)
    serve tries requests

/-! ## The world it is in -/

/-- What is below the root, and what is kept beside it. -/
structure World where
  fs : Vfs
  /-- Nothing is in the inode that the cloud does not have. -/
  covered : FileId → Prop
  /-- The states that the inode has been in. -/
  past : FileId → Stat → Prop
  /-- There has been a time when the path was not pinned. -/
  unpinned : RelPath → Prop
  /-- The path that is being given back. -/
  target : Option RelPath
  /-- What each look at a path has seen since: the file, and its state. -/
  looks : List (RelPath × FileId × Stat)
  /-- A call has taken the last name of a file that has more in it than the cloud. -/
  discarded : Prop
  /-- A call has displaced what has been pinned all along. -/
  defied : Prop

/-- What a call sees by name. -/
def sees : (q : Syscall) → q.Answer → Vfs → List (RelPath × FileId × Stat)
  | .fstatat p, .ok _, w | .getxattr p _, .ok _, w =>
    ((w.names p).map fun i ↦ (p, i, w.stat i)).toList
  | _, _, _ => []

/-- A file that is not the program's own loses its last name, and has more in it than the cloud. -/
def Discards (w : World) (w' : Vfs) : Prop :=
  ∃ i, ¬ w.fs.held i ∧ w.fs.Named i ∧ ¬ w.covered i ∧ ¬ w'.Named i

/-- What is displaced is pinned, itself or through a directory above, and has been all along. -/
def Defies : (q : Syscall) → q.Answer → World → Prop
  | .exchange _ b, .ok _, w => ∃ p, p <+: b ∧ ¬ w.unpinned p
  | _, _, _ => False

/-- A stamp that fits is found only on what the cloud has. -/
def World.Vouched (w : World) : Prop :=
  ∀ i, (w.fs.inodes i).stamp = .text (w.fs.stat i).stamp → w.covered i

/-- How a system call is answered. What the program makes holds nothing. -/
structure Answers (q : Syscall) (w : World) (a : q.Answer) (w' : World) : Prop where
  acts : Vfs.Acts q w.fs a w'.fs
  covered : ∀ i, w'.covered i ↔ w.covered i ∨ w.fs.Fresh i ∧ ¬ w'.fs.Fresh i
  past : ∀ i st, w'.past i st ↔ w.past i st ∨ st = w'.fs.stat i
  unpinned : w'.unpinned = w.unpinned
  target : w'.target = w.target
  looks : w'.looks = w.looks ++ sees q a w.fs
  discarded : w'.discarded ↔ w.discarded ∨ Discards w w'.fs
  defied : w'.defied ↔ w.defied ∨ Defies q a w

/-- What others do. They leave alone the scratch names of the path, and what has no name yet; a
write, or a new file, gives an inode a state that it has not been in; and they stamp nothing that
the cloud does not have. Anybody may set a pin, or take it off. -/
structure Others (w w' : World) : Prop where
  foreign : Foreign (fun p ↦ ∀ rel, w.target = some rel → Reaches rel p) w.fs w'.fs
  building : ∀ i, w.fs.held i → ¬ w.fs.Named i →
    w'.fs.inodes i = w.fs.inodes i ∧ (w.covered i → w'.covered i)
  written : ∀ i, w'.fs.stat i = w.fs.stat i ∧ (w.covered i → w'.covered i)
    ∨ ¬ w.past i (w'.fs.stat i)
  vouched : w'.Vouched
  past : ∀ i st, w'.past i st ↔ w.past i st ∨ st = w'.fs.stat i
  unpinned : ∀ p, w.unpinned p → w'.unpinned p
  target : w'.target = w.target
  looks : w'.looks = w.looks
  discarded : w'.discarded ↔ w.discarded
  defied : w'.defied ↔ w.defied

/-- How everything else is answered. -/
def Told : (q : Ask) → World → q.Answer → World → Prop
  | .fs q, w, a, w' => Answers q w a w'
  | .metadata _, w, a, w' => w' = w ∧ ∀ md, a = .ok md → ∃ i, md.stat = w.fs.stat i
  | .resolve _, w, a, w' => match a with
    | .inside path => w' = { w with target := some path, looks := [] }
    | .outside | .failed => w' = w
  | .isPinned p, w, a, w' => w' = w ∧ (a = .ok false → w.unpinned p)
  | .close, w, _, w' =>
    w' = { w with fs := { w.fs with held := fun _ ↦ False }, target := none, looks := [] }
  | .loadIgnore, w, _, w' | .openRoot, w, _, w' | .blocks _, w, _, w' | .candidates, w, _, w'
  | .scan, w, _, w' => w' = w

/-- What is unlinked, unless it is the program's own, is the file that every look at the path has
seen, and it has not been written since it was looked at under its scratch name. -/
def Timely : (q : Syscall) → World → q.Answer → World → Prop
  | .unlinkat s, w, .ok _, _ => ∀ i, w.fs.names s = some i → ¬ w.fs.held i → ∀ l ∈ w.looks,
      (w.target = some l.1 → l.2.1 = i) ∧ (l.1 = s → l.2.2 = w.fs.stat i)
  | _, _, _, _ => True

/-- The same, of everything that is asked. -/
def TimelyAsk : (q : Ask) → World → q.Answer → World → Prop
  | .fs q, w, a, w' => Timely q w a w'
  | _, _, _, _ => True

/-- An eviction among others. -/
def evictEnv : Env Ask Ask.Answer World := ⟨Told, Others⟩

/-- The system calls of one. -/
abbrev callEnv : Env Syscall Syscall.Answer World := (⟨Answers, Others⟩ : Env _ _ _).under Timely

/-! ## What a call changes -/

/-- What an inode has in it, or on it, is changed by the call. -/
def Writes (i : FileId) : Syscall → Prop
  | .fsetxattr fd _ _ | .ftruncate fd _ | .stamp fd => fd = i
  | _ => False

section

variable {q : Syscall} {a : q.Answer} {i : FileId}

/-- An inode that is not new is as it was, unless it is written. -/
theorem inode_eq {w w' : Vfs} (h : Vfs.Acts q w a w') (hwrites : ¬ Writes i q)
    (hold : w.Fresh i → w'.Fresh i) : w'.inodes i = w.inodes i := by
  match a with
  | .error e => rw [h.1]
  | .ok r =>
    match q with
    | .mkdirat p =>
      obtain ⟨-, j, node, hfresh, -, rfl⟩ := h
      refine Function.update_of_ne (fun heq ↦ ?_) _ _
      subst heq
      exact (hold hfresh).1 ⟨p, Vfs.names_link⟩
    | .tmpfile =>
      obtain ⟨hfresh, node, -, rfl⟩ := h
      refine Function.update_of_ne (fun heq ↦ ?_) _ _
      subst heq
      exact (hold hfresh).2 (Or.inl rfl)
    | .fsetxattr .. =>
      obtain rfl : w' = _ := h
      exact Function.update_of_ne (fun heq ↦ hwrites heq.symm) _ _
    | .ftruncate .. =>
      obtain ⟨st, -, rfl⟩ := h
      exact Function.update_of_ne (fun heq ↦ hwrites heq.symm) _ _
    | .stamp .. =>
      obtain rfl : w' = _ := h
      exact Function.update_of_ne (fun heq ↦ hwrites heq.symm) _ _
    | .fstat .. | .fstatat .. | .readDir .. | .isMarked .. | .getxattr .. => rw [h.2]
    | .linkat .. =>
      obtain ⟨-, rfl⟩ := h
      rfl
    | .exchange .. =>
      obtain ⟨-, -, -, rfl⟩ := h
      rfl
    | .unlinkat .. =>
      obtain ⟨j, -, -, rfl⟩ := h
      rfl
    | .renameat x y =>
      obtain ⟨-, j, -, -, rfl⟩ := h
      split <;> rfl

/-- What others give a name had one, or is new. -/
theorem named_of_foreign {reaches : RelPath → Prop} {w w' : Vfs} (h : Foreign reaches w w')
    (hi : w'.Named i) : w.Named i ∨ w.Fresh i := by
  obtain ⟨p, hp⟩ := hi
  have hupdate : ∀ {x : RelPath} {o : Option FileId}, Function.update w.names x o p = some i →
      o = some i ∨ w.Named i := by
    intro x o hx
    by_cases heq : p = x
    · rw [heq, Function.update_self] at hx
      exact Or.inl hx
    · rw [Function.update_of_ne heq] at hx
      exact Or.inr ⟨p, hx⟩
  cases h with
  | created j node x _ _ hfresh =>
    exact (hupdate hp).elim (fun h ↦ Or.inr (Option.some_inj.mp h ▸ hfresh)) Or.inl
  | unlinked x _ => exact (hupdate hp).elim (fun h ↦ by cases h) Or.inl
  | linked b x j _ hj _ =>
    exact (hupdate hp).elim (fun h ↦ Or.inl ⟨b, hj.trans h⟩) Or.inl
  | renamed b c _ _ _ =>
    change (if c <+: p then w.names (b ++ p.drop c.length) else if b <+: p then none
      else w.names p) = some i at hp
    split at hp
    · exact Or.inl ⟨_, hp⟩
    · split at hp
      · cases hp
      · exact Or.inl ⟨_, hp⟩
  | written j node _ => exact Or.inl ⟨p, hp⟩

end

/-! ## What is known of a file -/

/-- Nothing has been lost, a stamp that fits is on what the cloud has, and the states that inodes
are in are among those they have been in. -/
structure Sound (w : World) : Prop where
  kept : ¬ w.discarded
  obeyed : ¬ w.defied
  vouched : w.Vouched
  past : ∀ i, w.past i (w.fs.stat i)

variable {w w' : World} {q : Syscall} {a : q.Answer} {i fd : FileId} {rel s : RelPath} {n : ℕ}

theorem Sound.others (h : Sound w) (hothers : Others w w') : Sound w' where
  kept hw := h.kept (hothers.discarded.mp hw)
  obeyed hw := h.obeyed (hothers.defied.mp hw)
  vouched := hothers.vouched
  past j := (hothers.past j _).mpr (Or.inr rfl)

/-- An inode that is not new and is not the program's own is as it was. -/
theorem Answers.same (h : Answers q w a w') (hwrites : ∀ j, Writes j q → w.fs.held j)
    (hi : ¬ w.fs.held i) (hold : ¬ (w.fs.Fresh i ∧ ¬ w'.fs.Fresh i)) :
    w'.fs.inodes i = w.fs.inodes i :=
  inode_eq h.acts (fun hw ↦ hi (hwrites i hw)) fun hfresh ↦ by_contra fun hnot ↦ hold ⟨hfresh, hnot⟩

/-- A call that discards nothing, and displaces nothing that is pinned. -/
theorem Sound.answered (h : Sound w) (ha : Answers q w a w')
    (hwrites : ∀ j, Writes j q → w.covered j) (hkeeps : ¬ Discards w w'.fs)
    (hobeys : ¬ Defies q a w) : Sound w' where
  kept hw := (ha.discarded.mp hw).elim h.kept hkeeps
  obeyed hw := (ha.defied.mp hw).elim h.obeyed hobeys
  vouched j hstamp := by
    rw [ha.covered]
    by_cases hnew : w.fs.Fresh j ∧ ¬ w'.fs.Fresh j
    · exact Or.inr hnew
    by_cases hj : Writes j q
    · exact Or.inl (hwrites j hj)
    · have hsame := inode_eq ha.acts hj fun hfresh ↦ by_contra fun hnot ↦ hnew ⟨hfresh, hnot⟩
      rw [Vfs.stat, hsame] at hstamp
      exact Or.inl (h.vouched j hstamp)
  past j := (ha.past j _).mpr (Or.inr rfl)

theorem not_discards (hq : Vfs.Harmless q) (ha : Answers q w a w') : ¬ Discards w w'.fs :=
  fun ⟨_, _, hnamed, _, hgone⟩ ↦ hgone (ha.acts.named hq hnamed)

/-- A file has been looked at in a state, as what is to be given back at a path. As long as it is in
that state, and every look at the path has seen it, the cloud has what is in it, once that is
`certain`; and for each of the `free` paths there has been a time when it was not pinned. -/
structure Tells (md : Stat) (rel : RelPath) (free : RelPath → Prop) (certain : Prop) (w : World) :
    Prop where
  sound : Sound w
  target : w.target = some rel
  seen : w.past md.file md
  unpinned : ∀ p, free p → w.unpinned p
  covered : w.fs.held md.file ∨ (w.fs.stat md.file = md →
    (∀ l ∈ w.looks, l.1 = rel → l.2.1 = md.file) → certain → w.covered md.file)

variable {md : Stat} {free : RelPath → Prop} {certain : Prop}

theorem Tells.others (h : Tells md rel free certain w) (hothers : Others w w') :
    Tells md rel free certain w' where
  sound := h.sound.others hothers
  target := hothers.target.trans h.target
  seen := (hothers.past _ _).mpr (Or.inl h.seen)
  unpinned p hp := hothers.unpinned p (h.unpinned p hp)
  covered := by
    rw [hothers.foreign.held_eq, hothers.looks]
    refine h.covered.imp_right fun hcovered hstat hlooks hcertain ↦ ?_
    rcases hothers.written md.file with ⟨hsame, hkeeps⟩ | hnew
    · exact hkeeps (hcovered (hsame.symm.trans hstat) hlooks hcertain)
    -- it was in that state when it was looked at, and has not come back to it
    · rw [hstat] at hnew
      exact absurd h.seen hnew

theorem stable_tells : Stable callEnv (Tells md rel free certain) :=
  fun _ _ hothers h ↦ h.others hothers

theorem Tells.answered (h : Tells md rel free certain w) (ha : Answers q w a w')
    (hwrites : ∀ j, Writes j q → w.fs.held j) (hsound : Sound w') :
    Tells md rel free certain w' where
  sound := hsound
  target := ha.target.trans h.target
  seen := (ha.past _ _).mpr (Or.inl h.seen)
  unpinned p hp := ha.unpinned ▸ h.unpinned p hp
  covered := by
    refine h.covered.elim (fun hheld ↦ Or.inl (ha.acts.held hheld)) fun hcovered ↦ ?_
    by_cases hheld : w.fs.held md.file
    · exact Or.inl (ha.acts.held hheld)
    refine Or.inr fun hstat hlooks hcertain ↦ (ha.covered _).mpr ?_
    by_cases hnew : w.fs.Fresh md.file ∧ ¬ w'.fs.Fresh md.file
    · exact Or.inr hnew
    · rw [Vfs.stat, ha.same hwrites hheld hnew] at hstat
      rw [ha.looks] at hlooks
      exact Or.inl (hcovered hstat (fun l hl ↦ hlooks l (List.mem_append_left _ hl)) hcertain)

/-- A call that writes nothing, takes no name and displaces nothing. -/
def Quiet : Syscall → Prop
  | .fsetxattr _ _ _ | .ftruncate _ _ | .stamp _ => False
  | .exchange _ _ | .unlinkat _ | .renameat _ _ => False
  | _ => True

theorem Quiet.harmless (hq : Quiet q) : Vfs.Harmless q := by
  match q with
  | .mkdirat _ | .tmpfile | .fstat _ | .linkat _ _ | .fstatat _ | .readDir _ | .isMarked _
  | .getxattr _ _ => trivial

theorem Quiet.not_writes (hq : Quiet q) (j : FileId) : ¬ Writes j q := by
  match q with
  | .mkdirat _ | .tmpfile | .fstat _ | .linkat _ _ | .fstatat _ | .readDir _ | .isMarked _
  | .getxattr _ _ => exact id

theorem Quiet.not_defies (hq : Quiet q) : ¬ Defies q a w := by
  match q with
  | .mkdirat _ | .tmpfile | .fstat _ | .linkat _ _ | .fstatat _ | .readDir _ | .isMarked _
  | .getxattr _ _ => exact id

theorem Sound.quiet (h : Sound w) (ha : Answers q w a w') (hq : Quiet q) : Sound w' :=
  h.answered ha (fun j hj ↦ (hq.not_writes j hj).elim) (not_discards hq.harmless ha) hq.not_defies

theorem Tells.quiet (h : Tells md rel free certain w) (ha : Answers q w a w') (hq : Quiet q) :
    Tells md rel free certain w' :=
  h.answered ha (fun j hj ↦ (hq.not_writes j hj).elim) (h.sound.quiet ha hq)

theorem Tells.refused {e : IoError} (h : Tells md rel free certain w)
    (ha : Answers q w (.error e) w') : Tells md rel free certain w' := by
  have hsame : w'.fs = w.fs := ha.acts.1
  refine ⟨⟨fun hw ↦ ?_, fun hw ↦ ?_, fun j hstamp ↦ ?_, fun j ↦ (ha.past j _).mpr (Or.inr rfl)⟩,
    ha.target.trans h.target, (ha.past _ _).mpr (Or.inl h.seen),
    fun p hp ↦ ha.unpinned ▸ h.unpinned p hp, ?_⟩
  · refine (ha.discarded.mp hw).elim h.sound.kept fun ⟨j, _, hnamed, _, hgone⟩ ↦ hgone ?_
    exact hsame ▸ hnamed
  · refine (ha.defied.mp hw).elim h.sound.obeyed fun hdefies ↦ ?_
    cases q <;> exact hdefies
  · rw [hsame] at hstamp
    exact (ha.covered j).mpr (Or.inl (h.sound.vouched j hstamp))
  · rw [hsame, ha.looks]
    refine h.covered.imp_right fun hcovered hstat hlooks hcertain ↦ (ha.covered _).mpr (Or.inl ?_)
    exact hcovered hstat (fun l hl ↦ hlooks l (List.mem_append_left _ hl)) hcertain

end HydrationAPI.Client.Evicting
