import HydrationAPI.Client.Upload
import HydrationAPI.Client.Vfs

/-!
# Folders that are new here

A new directory is created in the cloud when the directory above it has a cloud identity, and the
identity that comes back is then written to it. The two are steps of their own: what has been
created is remembered under the path of the directory until its identity is written, or until it is
withdrawn because another directory has come to the path.

What is remembered is let go of, too, when the path is found to be ignored, to be gone or to be no
directory, or when what is there has an identity of its own. Beside the directory it is kept which
folders have been created and neither recorded nor withdrawn since.
-/

namespace HydrationAPI.Client.FolderCreates

open Dialogue Errand
open Upload (Known Uploaded)

/-! ## The program -/

/-- What is asked of the operating system and of the sink. -/
inductive Ask where
  | loadIgnore
  | symlinkMetadata (rel : String)
  /-- The cloud id. -/
  | idAt (p : RelPath)
  /-- The directory is the one that has been looked at; the request says nothing of it. -/
  | createFolder (rel : String) (dir : FileId)
  | setxattr (rel : String) (name : XattrName) (value : String)
  | removeKnown (known : Known)

@[reducible] def Ask.Answer : Ask → Type
  | loadIgnore => IgnoreSet
  -- the inode and whether it is a directory
  | symlinkMetadata _ => Except String (FileId × Bool)
  | idAt _ => Attr
  | createFolder _ _ => Except String Uploaded
  | setxattr _ _ _ | removeKnown _ => Except String Unit

structure CommittedFolder where
  uploaded : Uploaded
  dir : FileId
  deriving DecidableEq, Repr

structure Folders where
  pending : List String
  committed : AList fun _ : String ↦ CommittedFolder
  recorded : List (String × Uploaded)

/-- No step of it ends it with an error. -/
abbrev Creator := Errand Ask Ask.Answer Folders Empty

/-- The components of a path as it is written. -/
abbrev parts (rel : String) : RelPath := Text.split '/' rel

namespace Creator

/-- Drop a path, and what is remembered of it. -/
def forget (rel : String) : Creator Unit :=
  modify fun s ↦ { s with
    pending := s.pending.filter (· ≠ rel)
    committed := s.committed.erase rel }

def hasCloudIdentity (p : RelPath) : Creator Bool := do
  let id : Attr ← ask (Ask.idAt p)
  pure id.isFilled

/-- `adopt_cloud_id`. -/
def adoptCloudId (rel : String) (u : Uploaded) : Creator (Except String Unit) := do
  let written : Except String Unit ← ask (Ask.setxattr rel .id u.cloudId)
  match written with
  | .error e => pure (.error e)
  | .ok _ =>
    match u.etag with
    | some e => ask (Ask.setxattr rel .etag e)
    | none => pure (.ok ())

/-- Write the identity that came back, and let go of it once it is written. -/
def record (rel : String) (made : CommittedFolder) : Creator Unit := do
  match ← adoptCloudId rel made.uploaded with
  | .error _ => pure ()
  | .ok _ =>
    modify fun s ↦ { s with recorded := s.recorded ++ [(rel, made.uploaded)] }
    forget rel

/-- What has been created is withdrawn, as another directory has come to the path. -/
def withdraw (rel : String) (made : CommittedFolder) : Creator Unit := do
  let removed : Except String Unit ←
    ask (Ask.removeKnown ⟨made.uploaded.cloudId, made.uploaded.etag⟩)
  match removed with
  | .error _ => pure ()
  | .ok _ => modify fun s ↦ { s with committed := s.committed.erase rel }

/-- Create a directory in the cloud. -/
def create (rel : String) (dir : FileId) : Creator Unit := do
  if ← hasCloudIdentity (parts rel).dropLast then
    let created : Except String Uploaded ← ask (Ask.createFolder rel dir)
    match created with
    | .error _ => pure ()
    | .ok uploaded =>
      modify fun s ↦ { s with committed := s.committed.insert rel ⟨uploaded, dir⟩ }
      record rel ⟨uploaded, dir⟩
  else pure ()

/-- One pending path. -/
def settle (ignore : IgnoreSet) (rel : String) : Creator Unit := do
  if ignore.isIgnored rel then forget rel
  else
    let metadata : Except String (FileId × Bool) ← ask (Ask.symlinkMetadata rel)
    match metadata with
    | .error _ => forget rel
    | .ok (dir, isDir) =>
      if ¬ isDir then forget rel
      else if ← hasCloudIdentity (parts rel) then forget rel
      else
        let s ← state
        match s.committed.lookup rel with
        | some made => if dir ≠ made.dir then withdraw rel made else record rel made
        | none => create rel dir

def settleAll (ignore : IgnoreSet) : List String → Creator Unit
  | [] => pure ()
  | rel :: rels => do
    settle ignore rel
    settleAll ignore rels

/-- Shallowest first. -/
def inOrder (paths : List String) : List String :=
  paths.mergeSort fun a b ↦ (parts a).length < (parts b).length
    ∨ (parts a).length = (parts b).length ∧ a ≤ b

def applyFolderCreates : Creator Unit := do
  let ignore : IgnoreSet ← ask Ask.loadIgnore
  let s ← state
  settleAll ignore (inOrder s.pending)

end Creator

/-! ## The directory and the cloud -/

/-- A folder that has been created. -/
structure Creation where
  rel : String
  dir : FileId
  cloudId : String

/-- The directory has been given the identity of its folder. -/
def Creation.recorded (c : Creation) (w : Vfs) : Bool := (w.inodes c.dir).id = .text c.cloudId

/-- The directory, what has been created and neither recorded nor withdrawn, and what has been seen
of the driver. -/
structure World where
  vfs : Vfs
  outstanding : List Creation
  /-- The path at which an identity was found by the last question. -/
  identified : Option RelPath
  /-- Of the folders whose identity could not be written, or which could not be withdrawn. -/
  failed : List String
  /-- A folder has been created whose parent had not just been found to have an identity. -/
  early : Prop
  /-- A folder has been created for a directory that had an outstanding one. -/
  twice : Prop

namespace World

/-- What is recorded by now is no longer outstanding. -/
def settled (w : World) (vfs : Vfs) : World :=
  { w with vfs := vfs, outstanding := w.outstanding.filter fun c ↦ ¬ c.recorded vfs }

/-- A folder is asked for. -/
def asked (w : World) (rel : String) (dir : FileId) : World :=
  { w with
    identified := none
    early := w.early ∨ w.identified ≠ some (parts rel).dropLast
    twice := w.twice ∨ ∃ c ∈ w.outstanding, c.dir = dir }

/-- A folder has been created. -/
def created (w : World) (c : Creation) : World :=
  ({ w with outstanding := w.outstanding ++ [c] } : World).settled w.vfs

/-- A folder has been withdrawn. -/
def withdrawn (w : World) (cloudId : String) : World :=
  { w with outstanding := w.outstanding.filter (·.cloudId ≠ cloudId) }

end World

/-- What is answered: what is found at a path is there, and a call that fails has done nothing. -/
def Answers : (q : Ask) → World → q.Answer → World → Prop
  | .loadIgnore, w, _, w' => w' = { w with identified := none }
  | .symlinkMetadata rel, w, a, w' => w' = { w with identified := none }
      ∧ ∀ dir isDir, a = .ok (dir, isDir) →
        w.vfs.names (parts rel) = some dir ∧ (w.vfs.inodes dir).isDir = isDir
  | .idAt p, w, a, w' => w' = { w with identified := if a.isFilled then some p else none }
      ∧ (a.isFilled = true → ∃ i, w.vfs.names p = some i ∧ (w.vfs.inodes i).id = a)
  | .createFolder rel dir, w, a, w' => match a with
    | .ok u => w' = (w.asked rel dir).created ⟨rel, dir, u.cloudId⟩
    | .error _ => w' = w.asked rel dir
  | .setxattr rel name value, w, a, w' => match a with
    | .ok _ => ∃ i, w.vfs.names (parts rel) = some i
      ∧ w' = { w.settled (w.vfs.setInode i ((w.vfs.inodes i).setXattr value name)) with
        identified := none }
    | .error _ => w' = { w with
        identified := none
        failed := if name = .id then value :: w.failed else w.failed }
  | .removeKnown known, w, a, w' => match a with
    | .ok _ => w' = { w.withdrawn known.cloudId with identified := none }
    | .error _ => w' = { w with identified := none, failed := known.cloudId :: w.failed }

/-- The others do to the directory what they like. -/
def Others (w w' : World) : Prop := ∃ vfs, w' = w.settled vfs

def creatorEnv : Env Ask Ask.Answer World := ⟨Answers, Others⟩

/-- What is found at the path of an outstanding folder: a directory without an identity, at no other
path and not ignored; and an identity that is written there reaches the directory that the folder
was created for. -/
def Undisturbed : (q : Ask) → World → q.Answer → World → Prop
  | .loadIgnore, w, a, _ => ∀ c ∈ w.outstanding, a.isIgnored c.rel = false
  | .symlinkMetadata rel, w, a, _ =>
    (∀ c ∈ w.outstanding, c.rel = rel → ∃ dir, a = .ok (dir, true))
      ∧ ∀ dir isDir, a = .ok (dir, isDir) → ∀ c ∈ w.outstanding, c.dir = dir → c.rel = rel
  | .idAt p, w, a, _ => ∀ c ∈ w.outstanding, parts c.rel = p → a.isFilled = false
  | .setxattr rel .id _, w, a, _ => a.isOk = true → ∀ c ∈ w.outstanding, c.rel = rel →
      w.vfs.names (parts rel) = some c.dir
  | _, _, _, _ => True

/-! ## What a pass keeps -/

/-- Every folder that is outstanding is remembered, and its path is pending. -/
def Kept (s : Folders) (w : World) : Prop :=
  ∀ c ∈ w.outstanding, c.rel ∈ s.pending ∧ ∃ made, s.committed.lookup c.rel = some made
    ∧ made.dir = c.dir ∧ made.uploaded.cloudId = c.cloudId

/-- Folders have been created one for a directory, below directories that had their own. -/
structure Calm (w : World) : Prop where
  early : ¬ w.early
  twice : ¬ w.twice

/-- Nothing is outstanding that was not before. -/
structure World.Later (w w' : World) : Prop where
  outstanding : w'.outstanding ⊆ w.outstanding
  failed : w.failed ⊆ w'.failed
  early : w'.early = w.early
  twice : w'.twice = w.twice

/-- What holds in the middle of a pass, of which the paths are left. -/
structure Amid (ignore : IgnoreSet) (rels : List String) (s : Folders) (w : World) : Prop where
  calm : Calm w
  kept : Kept s w
  /-- A path is pending once, and is to come once. -/
  pending : s.pending.Nodup
  once : rels.Nodup
  due : rels ⊆ s.pending
  /-- What is outstanding is still to come, or was tried. -/
  left : ∀ c ∈ w.outstanding, c.rel ∈ rels ∨ c.cloudId ∈ w.failed
  synced : ∀ c ∈ w.outstanding, ignore.isIgnored c.rel = false

/-- No folder is outstanding at the path. -/
def Free (rel : String) (w : World) : Prop := ∀ c ∈ w.outstanding, c.rel ≠ rel

variable {ignore : IgnoreSet} {rel : String} {rels : List String} {s : Folders} {w w' : World}
  {dir : FileId} {made : CommittedFolder}

theorem World.later_settled (w : World) (vfs : Vfs) : w.Later (w.settled vfs) :=
  ⟨List.filter_subset_self _, List.Subset.refl _, rfl, rfl⟩

theorem Others.later (h : Others w w') : w.Later w' := by
  obtain ⟨vfs, rfl⟩ := h
  exact w.later_settled vfs

theorem Calm.later (h : Calm w) (hlater : w.Later w') : Calm w' :=
  ⟨hlater.early ▸ h.early, hlater.twice ▸ h.twice⟩

theorem Kept.later (h : Kept s w) (hlater : w.Later w') : Kept s w' :=
  fun c hc ↦ h c (hlater.outstanding hc)

theorem Free.later (h : Free rel w) (hlater : w.Later w') : Free rel w' :=
  fun c hc ↦ h c (hlater.outstanding hc)

theorem Amid.later (h : Amid ignore rels s w) (hlater : w.Later w') : Amid ignore rels s w' where
  calm := h.calm.later hlater
  kept := h.kept.later hlater
  pending := h.pending
  once := h.once
  due := h.due
  left c hc := (h.left c (hlater.outstanding hc)).imp_right fun hfailed ↦ hlater.failed hfailed
  synced c hc := h.synced c (hlater.outstanding hc)

/-- A path at which nothing is outstanding is done with. -/
theorem Amid.pass (h : Amid ignore (rel :: rels) s w) (hfree : Free rel w) :
    Amid ignore rels s w where
  calm := h.calm
  kept := h.kept
  pending := h.pending
  once := (List.nodup_cons.mp h.once).2
  due := (List.cons_subset.mp h.due).2
  left c hc := (h.left c hc).imp_left fun hrel ↦
    (List.mem_cons.mp hrel).resolve_left (hfree c hc)
  synced := h.synced

/-- So is a path whose folder was tried in vain. -/
theorem Amid.tried (h : Amid ignore (rel :: rels) s w)
    (hfailed : ∀ c ∈ w.outstanding, c.rel = rel → c.cloudId ∈ w.failed) : Amid ignore rels s w where
  calm := h.calm
  kept := h.kept
  pending := h.pending
  once := (List.nodup_cons.mp h.once).2
  due := (List.cons_subset.mp h.due).2
  left c hc := (h.left c hc).elim (fun hrel ↦ (List.mem_cons.mp hrel).elim
    (fun heq ↦ Or.inr (hfailed c hc heq)) Or.inl) Or.inr
  synced := h.synced

/-- What is said of other paths is not touched. -/
theorem Amid.of_lookup {s' : Folders} (h : Amid ignore rels s w) (hfree : Free rel w)
    (hpending : s'.pending = s.pending)
    (hcommitted : ∀ other, other ≠ rel → s'.committed.lookup other = s.committed.lookup other) :
    Amid ignore rels s' w where
  calm := h.calm
  kept c hc := by
    obtain ⟨hmem, made, hlookup, hmade⟩ := h.kept c hc
    exact ⟨hpending ▸ hmem, made, (hcommitted _ (hfree c hc)).trans hlookup, hmade⟩
  pending := hpending ▸ h.pending
  once := h.once
  due := hpending ▸ h.due
  left := h.left
  synced := h.synced

/-! ## A pass -/

/-- The runs in which nothing happens to what is outstanding. -/
abbrev quietEnv : Env Ask Ask.Answer World := creatorEnv.under Undisturbed

/-- Whatever is answered, and whatever the others do, no more than the paths is left. -/
abbrev Leaves {α : Type} (ignore : IgnoreSet) (rels : List String) (m : Creator α) (s : Folders)
    (w : World) : Prop :=
  Meets quietEnv Calm (fun _ s w ↦ Amid ignore rels s w) m s w

theorem lasting_amid {α : Type} : Lasting quietEnv Calm
    fun (_ : Except Empty α) s w ↦ Amid ignore rels s w :=
  ⟨fun _ _ _ _ hothers h ↦ h.later (Others.later hothers), fun _ _ _ h ↦ h.calm⟩

theorem leaves_pure {α : Type} {a : α} (h : Amid ignore rels s w) :
    Leaves ignore rels (pure a) s w := meets_pure lasting_amid h

namespace Creator

theorem leaves_forget (h : Amid ignore (rel :: rels) s w) (hfree : Free rel w) :
    Leaves ignore rels (forget rel) s w := by
  have hpass := h.pass hfree
  refine meets_lift lasting_amid ⟨hpass.calm, fun c hc ↦ ?_, hpass.pending.filter _, hpass.once,
    fun other hother ↦ ?_, hpass.left, hpass.synced⟩
  · obtain ⟨hmem, made, hlookup, hmade⟩ := h.kept c hc
    refine ⟨List.mem_filter.mpr ⟨hmem, decide_eq_true (hfree c hc)⟩, made, ?_, hmade⟩
    exact (AList.lookup_erase_ne (hfree c hc)).trans hlookup
  · refine List.mem_filter.mpr ⟨hpass.due hother, decide_eq_true fun heq ↦ ?_⟩
    exact (List.nodup_cons.mp h.once).1 (heq ▸ hother)

theorem later_setxattr {name : XattrName} {value : String} {a : Except String Unit}
    (h : Answers (.setxattr rel name value) w a w') : w.Later w' := by
  match a with
  | .ok _ =>
    obtain ⟨i, -, rfl⟩ := h
    exact ⟨List.filter_subset_self _, List.Subset.refl _, rfl, rfl⟩
  | .error _ =>
    obtain rfl : w' = _ := h
    refine ⟨List.Subset.refl _, ?_, rfl, rfl⟩
    dsimp only
    split
    · exact List.subset_cons_self _ _
    · exact List.Subset.refl _

theorem later_removeKnown {known : Known} {a : Except String Unit}
    (h : Answers (.removeKnown known) w a w') : w.Later w' := by
  match a with
  | .ok _ =>
    obtain rfl : w' = _ := h
    exact ⟨List.filter_subset_self _, List.Subset.refl _, rfl, rfl⟩
  | .error _ =>
    obtain rfl : w' = _ := h
    exact ⟨List.Subset.refl _, List.subset_cons_self _ _, rfl, rfl⟩

/-- Once its identity is written, a folder is no longer outstanding. -/
theorem free_of_setxattr {u : Unit} (hkept : Kept s w) (hmade : s.committed.lookup rel = some made)
    (hanswer : Answers (.setxattr rel .id made.uploaded.cloudId) w (.ok u) w')
    (hundisturbed : Undisturbed (.setxattr rel .id made.uploaded.cloudId) w (.ok u) w') :
    Free rel w' := by
  obtain ⟨i, hi, rfl⟩ := hanswer
  intro c hc hrel
  obtain ⟨hc, hnot⟩ := List.mem_filter.mp hc
  have hdir : i = c.dir := Option.some_inj.mp (hi.symm.trans (hundisturbed rfl c hc hrel))
  obtain ⟨-, made', hmade', -, hid⟩ := hkept c hc
  rw [hrel] at hmade'
  cases hmade.symm.trans hmade'
  have hrecorded : c.recorded (w.vfs.setInode i
      ((w.vfs.inodes i).setXattr made.uploaded.cloudId .id)) = true := by
    rw [Creation.recorded, Vfs.setInode, ← hdir, decide_eq_true_eq, ← hid]
    dsimp only
    rw [Function.update_self]
    rfl
  exact absurd hnot (by simp [hrecorded])

/-- What writing an identity has come to: either it is written, or that was tried in vain. -/
def Adopts (rel : String) (r : Except String Unit) (w : World) : Prop :=
  (∀ c ∈ w.outstanding, c.rel = rel → c.cloudId ∈ w.failed) ∧ (r.isOk = true → Free rel w)

theorem Adopts.later {r : Except String Unit} (h : Adopts rel r w) (hlater : w.Later w') :
    Adopts rel r w' :=
  ⟨fun c hc hrel ↦ hlater.failed (h.1 c (hlater.outstanding hc) hrel),
    fun hr ↦ (h.2 hr).later hlater⟩

theorem Free.adopts {r : Except String Unit} (h : Free rel w) : Adopts rel r w :=
  ⟨fun c hc hrel ↦ absurd hrel (h c hc), fun _ ↦ h⟩

theorem meets_adoptCloudId (h : Amid ignore (rel :: rels) s w)
    (hmade : s.committed.lookup rel = some made) :
    Meets quietEnv Calm (fun (r : Except Empty (Except String Unit)) s' w ↦
      s' = s ∧ Amid ignore (rel :: rels) s w ∧ ∀ a, r = .ok a → Adopts rel a w)
      (adoptCloudId rel made.uploaded) s w := by
  have hlasts : Lasting quietEnv Calm fun (r : Except Empty (Except String Unit)) s' w ↦
      s' = s ∧ Amid ignore (rel :: rels) s w ∧ ∀ a, r = .ok a → Adopts rel a w :=
    ⟨fun r _ v v' hothers ⟨hs, hv, ha⟩ ↦ ⟨hs, hv.later (Others.later hothers),
      fun a hr ↦ (ha a hr).later (Others.later hothers)⟩, fun _ _ _ ⟨_, hv, _⟩ ↦ hv.calm⟩
  have hstable : Stable quietEnv (Amid ignore (rel :: rels) s) :=
    fun v v' hothers hv ↦ hv.later (Others.later hothers)
  refine meets_ask hstable h (fun v hv ↦ hv.calm) fun v a v' hv ⟨ha, hundisturbed⟩ ↦ ?_
  have hv' := hv.later (later_setxattr ha)
  match a with
  | .error e =>
    refine meets_pure hlasts ⟨rfl, hv', fun a hr ↦ ?_⟩
    cases hr
    refine ⟨fun c hc hrel ↦ ?_, Bool.noConfusion⟩
    obtain rfl : v' = _ := ha
    obtain ⟨-, made', hmade', -, hid⟩ := hv.kept c hc
    rw [hrel] at hmade'
    cases hmade.symm.trans hmade'
    exact hid ▸ List.mem_cons_self
  | .ok u =>
    have hfree := free_of_setxattr hv.kept hmade ha hundisturbed
    dsimp only
    match made.uploaded.etag with
    | none => exact meets_pure hlasts ⟨rfl, hv', fun a _ ↦ Free.adopts hfree⟩
    | some e =>
      have hstable : Stable quietEnv fun w ↦ Amid ignore (rel :: rels) s w ∧ Free rel w :=
        fun v v' hothers hv ↦ ⟨hv.1.later (Others.later hothers), hv.2.later (Others.later hothers)⟩
      refine safe_ask hstable ⟨hv', hfree⟩ (fun v hv ↦ hv.1.calm) fun v a v' hv ha ↦ ?_
      have hlater := later_setxattr ha.1
      exact meets_pure (E := quietEnv) hlasts
        ⟨rfl, hv.1.later hlater, fun a _ ↦ Free.adopts (Free.later hv.2 hlater)⟩

/-- **What has been created is recorded**, or stays as it is until the next pass. -/
theorem leaves_record (h : Amid ignore (rel :: rels) s w)
    (hmade : s.committed.lookup rel = some made) :
    Leaves ignore rels (record rel made) s w := by
  refine meets_bind lasting_amid (meets_adoptCloudId h hmade) ?_ fun e ↦ nomatch e
  rintro a s' v - ⟨rfl, hv, hadopts⟩
  obtain ⟨hfailed, hfree⟩ := hadopts a rfl
  match a with
  | .error _ => exact leaves_pure (hv.tried hfailed)
  | .ok _ =>
    have hrecorded : Amid ignore (rel :: rels)
        { s' with recorded := s'.recorded ++ [(rel, made.uploaded)] } v :=
      hv.of_lookup (hfree rfl) rfl fun _ _ ↦ rfl
    exact meets_modify (leaves_forget hrecorded (hfree rfl))

/-- **What has been created is withdrawn**, or stays as it is until the next pass. -/
theorem leaves_withdraw (h : Amid ignore (rel :: rels) s w)
    (hmade : s.committed.lookup rel = some made) :
    Leaves ignore rels (withdraw rel made) s w := by
  have hstable : Stable quietEnv (Amid ignore (rel :: rels) s) :=
    fun v v' hothers hv ↦ hv.later (Others.later hothers)
  refine meets_ask hstable h (fun v hv ↦ hv.calm) fun v a v' hv ⟨ha, _⟩ ↦ ?_
  have hv' := hv.later (later_removeKnown ha)
  have hid : ∀ c ∈ v.outstanding, c.rel = rel → made.uploaded.cloudId = c.cloudId := by
    intro c hc hrel
    obtain ⟨-, made', hmade', -, hid⟩ := hv.kept c hc
    rw [hrel] at hmade'
    cases hmade.symm.trans hmade'
    exact hid
  match a with
  | .error _ =>
    obtain rfl : v' = _ := ha
    exact leaves_pure (hv'.tried fun c hc hrel ↦ hid c hc hrel ▸ List.mem_cons_self)
  | .ok _ =>
    obtain rfl : v' = _ := ha
    have hfree : Free rel { v.withdrawn made.uploaded.cloudId with identified := none } := by
      intro c hc hrel
      obtain ⟨hc, hne⟩ := List.mem_filter.mp hc
      exact of_decide_eq_true hne (hid c hc hrel).symm
    exact meets_lift lasting_amid ((hv'.pass hfree).of_lookup hfree rfl
      fun other hne ↦ AList.lookup_erase_ne hne)

/-- What is remembered of a folder that has just been created. -/
theorem amid_created {u : Uploaded} (h : Amid ignore (rel :: rels) s w) (hfree : Free rel w)
    (hignore : ignore.isIgnored rel = false)
    (hidentified : w.identified = some (parts rel).dropLast)
    (hnew : ∀ c ∈ w.outstanding, c.dir ≠ dir) :
    Amid ignore (rel :: rels) { s with committed := s.committed.insert rel ⟨u, dir⟩ }
      ((w.asked rel dir).created ⟨rel, dir, u.cloudId⟩) := by
  have hmem : ∀ c ∈ ((w.asked rel dir).created ⟨rel, dir, u.cloudId⟩).outstanding,
      c ∈ w.outstanding ∨ c = ⟨rel, dir, u.cloudId⟩ := by
    intro c hc
    exact (List.mem_append.mp (List.mem_filter.mp hc).1).imp_right List.mem_singleton.mp
  refine ⟨⟨?_, ?_⟩, fun c hc ↦ ?_, h.pending, h.once, h.due, fun c hc ↦ ?_, fun c hc ↦ ?_⟩
  · rintro (hearly | hearly)
    · exact h.calm.early hearly
    · exact hearly hidentified
  · rintro (htwice | ⟨c, hc, hdir⟩)
    · exact h.calm.twice htwice
    · exact hnew c hc hdir
  · rcases hmem c hc with hc | rfl
    · obtain ⟨hin, made, hmade, hrest⟩ := h.kept c hc
      exact ⟨hin, made, (AList.lookup_insert_ne (hfree c hc)).trans hmade, hrest⟩
    · exact ⟨h.due List.mem_cons_self, ⟨u, dir⟩, AList.lookup_insert _, rfl, rfl⟩
  · rcases hmem c hc with hc | rfl
    · exact h.left c hc
    · exact Or.inl List.mem_cons_self
  · rcases hmem c hc with hc | rfl
    · exact h.synced c hc
    · exact hignore

/-- A folder is asked for when its parent has just been found to have an identity. -/
theorem amid_asked (h : Amid ignore (rel :: rels) s w)
    (hidentified : w.identified = some (parts rel).dropLast)
    (hnew : ∀ c ∈ w.outstanding, c.dir ≠ dir) : Amid ignore (rel :: rels) s (w.asked rel dir) := by
  refine ⟨⟨?_, ?_⟩, h.kept, h.pending, h.once, h.due, h.left, h.synced⟩
  · rintro (hearly | hearly)
    · exact h.calm.early hearly
    · exact hearly hidentified
  · rintro (htwice | ⟨c, hc, hdir⟩)
    · exact h.calm.twice htwice
    · exact hnew c hc hdir

/-- **A folder is created for a directory that has none outstanding**, after its parent. -/
theorem leaves_create (h : Amid ignore (rel :: rels) s w) (hfree : Free rel w)
    (hignore : ignore.isIgnored rel = false)
    (hnew : ∀ c ∈ w.outstanding, c.dir ≠ dir) : Leaves ignore rels (create rel dir) s w := by
  let Ready : World → Prop := fun w ↦ Amid ignore (rel :: rels) s w ∧ Free rel w
    ∧ ∀ c ∈ w.outstanding, c.dir ≠ dir
  have hready : ∀ v v', v.Later v' → Ready v → Ready v' := fun v v' hlater hv ↦
    ⟨hv.1.later hlater, hv.2.1.later hlater, fun c hc ↦ hv.2.2 c (hlater.outstanding hc)⟩
  have hstable : Stable quietEnv Ready := fun v v' hothers ↦ hready v v' (Others.later hothers)
  have hstable' : Stable quietEnv fun w ↦ Ready w ∧ w.identified = some (parts rel).dropLast := by
    rintro v v' ⟨vfs, rfl⟩ ⟨hv, hidentified⟩
    exact ⟨hready v _ (v.later_settled vfs) hv, hidentified⟩
  refine meets_ask hstable ⟨h, hfree, hnew⟩ (fun v hv ↦ hv.1.calm) fun v id v' hv ⟨⟨ha, _⟩, _⟩ ↦ ?_
  have hv' : Ready v' := hready v v' (ha ▸ ⟨List.Subset.refl _, List.Subset.refl _, rfl, rfl⟩) hv
  by_cases hid : id.isFilled = true
  · rw [if_pos hid] at ha ⊢
    have hidentified : v'.identified = some (parts rel).dropLast := by rw [ha]
    refine meets_ask hstable' ⟨hv', hidentified⟩ (fun v hv ↦ hv.1.1.calm)
      fun u created u' ⟨⟨hu, hufree, hunew⟩, hidentified⟩ ⟨ha, _⟩ ↦ ?_
    match created with
    | .error _ =>
      obtain rfl : u' = _ := ha
      exact leaves_pure ((amid_asked hu hidentified hunew).pass hufree)
    | .ok uploaded =>
      obtain rfl : u' = _ := ha
      have hcreated := amid_created (u := uploaded) hu hufree hignore hidentified hunew
      exact meets_modify (leaves_record hcreated (AList.lookup_insert _))
  · rw [if_neg hid]
    exact leaves_pure (hv'.1.pass hv'.2.1)

/-- **One path.** -/
theorem leaves_settle (h : Amid ignore (rel :: rels) s w) :
    Leaves ignore rels (settle ignore rel) s w := by
  rw [settle]
  by_cases hignore : ignore.isIgnored rel = true
  · rw [if_pos hignore]
    refine leaves_forget h fun c hc hrel ↦ ?_
    exact Bool.false_ne_true ((h.synced c hc).symm.trans (hrel ▸ hignore))
  rw [if_neg hignore]
  have hstable : Stable quietEnv (Amid ignore (rel :: rels) s) :=
    fun v v' hothers hv ↦ hv.later (Others.later hothers)
  have hlater : ∀ v : World, v.Later { v with identified := none } := fun v ↦
    ⟨List.Subset.refl _, List.Subset.refl _, rfl, rfl⟩
  refine meets_ask hstable h (fun v hv ↦ hv.calm) fun v found v' hv ⟨⟨ha, _⟩, hthere, hone⟩ ↦ ?_
  obtain rfl : v' = _ := ha
  have hv' := hv.later (hlater v)
  match found with
  | .error _ =>
    refine leaves_forget hv' fun c hc hrel ↦ ?_
    obtain ⟨dir, hdir⟩ := hthere c hc hrel
    cases hdir
  | .ok (dir, false) =>
    refine leaves_forget hv' fun c hc hrel ↦ ?_
    obtain ⟨dir, hdir⟩ := hthere c hc hrel
    cases hdir
  | .ok (dir, true) =>
    have hstable' : Stable quietEnv fun w ↦ Amid ignore (rel :: rels) s w
        ∧ ∀ c ∈ w.outstanding, c.dir = dir → c.rel = rel := fun u u' hothers hu ↦
      ⟨hu.1.later (Others.later hothers), fun c hc ↦ hu.2 c ((Others.later hothers).outstanding hc)⟩
    refine meets_ask hstable' ⟨hv', hone dir true rfl⟩ (fun v hv ↦ hv.1.calm)
      fun u id u' ⟨hu, hone⟩ ⟨⟨ha, _⟩, hown⟩ ↦ ?_
    have hu' : Amid ignore (rel :: rels) s u' := by
      rw [ha]
      exact hu.later ⟨List.Subset.refl _, List.Subset.refl _, rfl, rfl⟩
    have hsame : u'.outstanding = u.outstanding := by rw [ha]
    by_cases hid : id.isFilled = true
    · rw [if_pos hid]
      refine leaves_forget hu' fun c hc hrel ↦ ?_
      have hempty := hown c (hsame ▸ hc) (congrArg parts hrel)
      exact Bool.false_ne_true (hempty.symm.trans hid)
    · rw [if_neg hid]
      refine meets_state ?_
      match hmade : s.committed.lookup rel with
      | some made =>
        dsimp only
        split
        · exact leaves_withdraw hu' hmade
        · exact leaves_record hu' hmade
      | none =>
        have hfree : Free rel u' := by
          intro c hc hrel
          obtain ⟨-, made, hmade', -⟩ := hu'.kept c hc
          rw [hrel, hmade] at hmade'
          cases hmade'
        refine leaves_create hu' hfree (Bool.eq_false_iff.mpr hignore) fun c hc hdir ↦ ?_
        exact hfree c hc (hone c (hsame ▸ hc) hdir)

/-- All of them, by induction on what is left. -/
theorem leaves_settleAll (h : Amid ignore rels s w) :
    Leaves ignore [] (settleAll ignore rels) s w := by
  induction rels generalizing s w with
  | nil => exact leaves_pure h
  | cons rel rels ih =>
    exact meets_bind lasting_amid (leaves_settle h) (fun _ _ _ _ hleft ↦ ih hleft) fun e ↦ nomatch e

/-- What holds between passes. -/
structure Rests (s : Folders) (w : World) : Prop where
  calm : Calm w
  kept : Kept s w
  pending : s.pending.Nodup

theorem Rests.later (h : Rests s w) (hlater : w.Later w') : Rests s w' :=
  ⟨h.calm.later hlater, h.kept.later hlater, h.pending⟩

/-- What holds when a pass is over: of what is outstanding, every folder was tried in vain. -/
def Ends (s : Folders) (w : World) : Prop :=
  Rests s w ∧ ∀ c ∈ w.outstanding, c.cloudId ∈ w.failed

/-- **A whole pass.** -/
theorem meets_applyFolderCreates (h : Rests s w) :
    Meets quietEnv Calm (fun _ s w ↦ Ends s w) applyFolderCreates s w := by
  have hstable : Stable quietEnv (Rests s) := fun v v' hothers hv ↦ hv.later (Others.later hothers)
  refine meets_ask hstable h (fun v hv ↦ hv.calm) fun v ignore v' hv ⟨ha, hsynced⟩ ↦ ?_
  obtain rfl : v' = _ := ha
  refine meets_state ?_
  have hmem : ∀ rel, rel ∈ inOrder s.pending ↔ rel ∈ s.pending := fun rel ↦ List.mem_mergeSort
  have hbegins : Amid ignore (inOrder s.pending) s { v with identified := none } :=
    ⟨⟨hv.calm.early, hv.calm.twice⟩, hv.kept, hv.pending,
      (List.mergeSort_perm _ _).nodup_iff.mpr hv.pending, fun rel hrel ↦ (hmem rel).mp hrel,
      fun c hc ↦ Or.inl ((hmem c.rel).mpr (hv.kept c hc).1), hsynced⟩
  refine (leaves_settleAll hbegins).mono fun _ s w _ hamid ↦ ?_
  refine ⟨⟨hamid.calm, hamid.kept, hamid.pending⟩, fun c hc ↦ ?_⟩
  exact (hamid.left c hc).resolve_left List.not_mem_nil

end Creator

/-! ## Pass after pass -/

/-- The thread between two passes, or in one. -/
inductive Phase where
  | idle (s : Folders)
  | calling (p : Dialogue Ask Ask.Answer (Except Empty Unit × Folders))

/-- What happens in the thread, and beside it. -/
inductive Turn (E : Env Ask Ask.Answer World) : Phase × World → Phase × World → Prop
  | others {s : Folders} {w w' : World} : E.others w w' → Turn E (.idle s, w) (.idle s, w')
  /-- Directories that are new here are found, by a walk or by the watch. -/
  | found (rels : List String) {s : Folders} {w : World} :
      Turn E (.idle s, w) (.idle { s with pending := rels ∪ s.pending }, w)
  | called {s : Folders} {w : World} :
      Turn E (.idle s, w)
        (.calling (Creator.applyFolderCreates { s with recorded := [] }), { w with failed := [] })
  | pass {p p' : Dialogue Ask Ask.Answer (Except Empty Unit × Folders)} {w w' : World} :
      Step E (p, w) (p', w') → Turn E (.calling p, w) (.calling p', w')
  | returned {r : Except Empty Unit} {s : Folders} {w : World} :
      Turn E (.calling (.done (r, s)), w) (.idle s, w)

/-- At its start the thread remembers nothing. -/
def Folders.none : Folders := ⟨[], ∅, []⟩

/-- What holds at any moment of the thread. -/
def Sound : Phase × World → Prop
  | (.idle s, w) => Creator.Rests s w
  | (.calling p, w) => Safe quietEnv Calm (fun r w ↦ Creator.Ends r.2 w) p w

/-- One turn. -/
theorem Sound.turn {m m' : Phase × World} (h : Sound m) (hturn : Turn quietEnv m m') :
    Sound m' := by
  cases hturn with
  | others hothers => exact h.later (Others.later hothers)
  | @found rels s w =>
    refine ⟨h.calm, fun c hc ↦ ?_, List.Nodup.union rels h.pending⟩
    exact (h.kept c hc).imp_left fun hmem ↦ List.mem_union_right rels hmem
  | @called s w =>
    exact Creator.meets_applyFolderCreates ⟨⟨h.calm.early, h.calm.twice⟩, h.kept, h.pending⟩
  | pass hstep => exact Safe.step (s := (_, _)) h hstep
  | returned => exact (Safe.ends h).1

theorem Sound.run {m m' : Phase × World} (h : Sound m)
    (hrun : Relation.ReflTransGen (Turn quietEnv) m m') : Sound m' := by
  induction hrun with
  | refl => exact h
  | tail _ hturn ih => exact ih.turn hturn

/-- **Folders are created in order and once, and none is forgotten**, where nothing happens to what
is outstanding: at every moment of the thread, whatever fails; and when a pass ends, what is left
are folders of which it has tried in vain to write the identity or to withdraw them. -/
theorem created_once_and_kept (w : World) (hcalm : Calm w) (hnone : w.outstanding = [])
    (phase : Phase) (v : World)
    (hrun : Relation.ReflTransGen (Turn quietEnv) (.idle Folders.none, w) (phase, v)) :
    ¬ v.early ∧ ¬ v.twice ∧ (∀ s, phase = .idle s → Kept s v)
      ∧ ∀ r s, phase = .calling (.done (r, s)) →
        Kept s v ∧ ∀ c ∈ v.outstanding, c.cloudId ∈ v.failed := by
  have hstart : Sound (.idle Folders.none, w) :=
    ⟨hcalm, fun c hc ↦ absurd (hnone ▸ hc) List.not_mem_nil, List.nodup_nil⟩
  have hsound := hstart.run hrun
  have hv : Calm v := by
    match phase with
    | .idle s => exact Creator.Rests.calm hsound
    | .calling p => exact Safe.inv hsound
  refine ⟨hv.early, hv.twice, fun s hs ↦ ?_, fun r s hs ↦ ?_⟩
  · subst hs
    exact Creator.Rests.kept hsound
  · subst hs
    have hends := Safe.ends hsound
    exact ⟨hends.1.kept, hends.2⟩

/-! ### A directory that goes away before its identity is written -/

private def newFolder (ino : ℕ) (id : Attr) : Inode :=
  ⟨⟨⟨1, ino⟩, 0, 0, 0⟩, true, id, .absent, .absent, .absent, false⟩

/-- The root and a new directory. -/
def newFolderVfs : Vfs where
  names p := if p = [] then some ⟨1, 1⟩ else if p = ["a"] then some ⟨1, 2⟩ else none
  inodes i := if i = ⟨1, 1⟩ then newFolder 1 (.text "root") else newFolder 2 .absent
  held _ := False

def newFolderWorld : World := ⟨newFolderVfs, [], none, [], False, False⟩

def newFolderMade : CommittedFolder := ⟨⟨"A", none⟩, ⟨1, 2⟩⟩

/-- Once the folder has been created, and its identity could not be written. -/
def newFolderCreated : World :=
  { ({ newFolderWorld with identified := some [] }.asked "a" ⟨1, 2⟩).created ⟨"a", ⟨1, 2⟩, "A"⟩ with
    failed := ["A"] }

def newFolderKept : Folders :=
  ⟨["a"], AList.insert "a" newFolderMade ∅, []⟩

/-- A pass over one path. -/
theorem applyFolderCreates_singleton (rel : String) (committed : AList fun _ ↦ CommittedFolder)
    (recorded : List (String × Uploaded)) :
    Creator.applyFolderCreates ⟨[rel], committed, recorded⟩
      = .ask .loadIgnore fun ignore ↦
        Creator.settleAll ignore [rel] ⟨[rel], committed, recorded⟩ := by
  have horder : Creator.inOrder [rel] = [rel] := List.mergeSort_singleton rel
  change Dialogue.ask Ask.loadIgnore (fun ignore ↦
    Creator.settleAll ignore (Creator.inOrder [rel]) ⟨[rel], committed, recorded⟩) = _
  rw [horder]

/-- Nothing is disturbed where nothing is outstanding. -/
theorem undisturbed_of_none {q : Ask} {a : q.Answer} (h : w.outstanding = []) :
    Undisturbed q w a w' := by
  match q with
  | .loadIgnore | .idAt _ => simp [Undisturbed, h]
  | .symlinkMetadata _ => simp [Undisturbed, h]
  | .setxattr _ .id _ => simp [Undisturbed, h]
  | .setxattr _ .dehydrated _ | .setxattr _ .etag _ | .setxattr _ .stamp _ => trivial
  | .createFolder _ _ | .removeKnown _ => trivial

theorem newFolder_created : Relation.ReflTransGen (Turn quietEnv)
    (.idle Folders.none, newFolderWorld)
    (.calling (.done (.ok (), newFolderKept)), newFolderCreated) := by
  refine .head (.found ["a"]) ?_
  refine .head .called ?_
  change Relation.ReflTransGen (Turn quietEnv)
    (.calling (Creator.applyFolderCreates ⟨["a"], ∅, []⟩), newFolderWorld) _
  rw [applyFolderCreates_singleton]
  have hcalm : ∀ {q : Ask} {a : q.Answer} {w : World}, Answers q newFolderWorld a w →
      quietEnv.answers q newFolderWorld a w := fun h ↦ ⟨h, undisturbed_of_none rfl⟩
  refine .head (.pass (.answered (a := ⟨[], []⟩) (hcalm rfl))) ?_
  have hfound : Answers (.symlinkMetadata "a") newFolderWorld (.ok (⟨1, 2⟩, true))
      newFolderWorld := by
    refine ⟨rfl, ?_⟩
    rintro dir isDir ⟨⟩
    exact ⟨by decide, by decide⟩
  refine .head (.pass (.answered (hcalm hfound))) ?_
  have hown : Answers (.idAt (parts "a")) newFolderWorld .absent newFolderWorld :=
    ⟨rfl, fun h ↦ nomatch h⟩
  refine .head (.pass (.answered (hcalm hown))) ?_
  have hparent : Answers (.idAt []) newFolderWorld (.text "root")
      { newFolderWorld with identified := some [] } := ⟨rfl, fun _ ↦ ⟨⟨1, 1⟩, rfl, rfl⟩⟩
  refine .head (.pass (.answered (hcalm hparent))) ?_
  have hcreated : quietEnv.answers (.createFolder "a" ⟨1, 2⟩)
      { newFolderWorld with identified := some [] } (.ok ⟨"A", none⟩)
      { newFolderCreated with failed := [] } := by
    exact ⟨rfl, trivial⟩
  refine .head (.pass (.answered hcreated)) ?_
  have hfailed : quietEnv.answers (.setxattr "a" .id "A") { newFolderCreated with failed := [] }
      (.error "no space") newFolderCreated := ⟨rfl, nofun⟩
  exact .head (.pass (.answered hfailed)) .refl

theorem created_once_and_kept_newFolder : ¬ newFolderCreated.early ∧ ¬ newFolderCreated.twice
    ∧ Kept newFolderKept newFolderCreated ∧ ∀ c ∈ newFolderCreated.outstanding, c.cloudId ∈ ["A"] :=
  have h := created_once_and_kept newFolderWorld ⟨id, id⟩ rfl _ _ newFolder_created
  ⟨h.1, h.2.1, (h.2.2.2 _ _ rfl).1, (h.2.2.2 _ _ rfl).2⟩

/-- What holds of a turn under a condition holds of it. -/
theorem Turn.of_under {E : Env Ask Ask.Answer World}
    {C : (q : Ask) → World → q.Answer → World → Prop} {m m' : Phase × World}
    (h : Turn (E.under C) m m') : Turn E m m' := by
  cases h with
  | others hothers => exact .others hothers
  | found rels => exact .found rels
  | called => exact .called
  | pass hstep =>
    cases hstep with
    | others hothers => exact .pass (.others hothers)
    | answered hanswer => exact .pass (.answered hanswer.1)
  | returned => exact .returned

/-- The directory is gone by the next pass, and what has been created is forgotten. -/
theorem newFolder_vanishes : Relation.ReflTransGen (Turn creatorEnv)
    (.idle Folders.none, newFolderWorld)
    (.idle ⟨[], ∅, []⟩, { newFolderCreated with failed := [] }) := by
  have hcreated := Relation.ReflTransGen.mono (fun _ _ ↦ Turn.of_under) _ _ newFolder_created
  refine (hcreated.tail .returned).trans (.head .called ?_)
  change Relation.ReflTransGen (Turn creatorEnv) (.calling (Creator.applyFolderCreates
    ⟨["a"], newFolderKept.committed, []⟩), { newFolderCreated with failed := [] }) _
  rw [applyFolderCreates_singleton]
  have hignore : creatorEnv.answers .loadIgnore { newFolderCreated with failed := [] } ⟨[], []⟩
      { newFolderCreated with failed := [] } := rfl
  refine .head (.pass (.answered hignore)) ?_
  have hgone : creatorEnv.answers (.symlinkMetadata "a") { newFolderCreated with failed := [] }
      (.error "No such file or directory") { newFolderCreated with failed := [] } :=
    ⟨rfl, nofun⟩
  refine .head (.pass (.answered hgone)) ?_
  exact .head .returned .refl

theorem created_forgotten : ¬ ∀ w, Calm w → w.outstanding = [] → ∀ s v,
    Relation.ReflTransGen (Turn creatorEnv) (.idle Folders.none, w) (.idle s, v) → Kept s v := by
  intro hkept
  have hforgotten := hkept newFolderWorld ⟨id, id⟩ rfl _ _ newFolder_vanishes
  exact List.not_mem_nil (hforgotten ⟨"a", ⟨1, 2⟩, "A"⟩ List.mem_cons_self).1

end HydrationAPI.Client.FolderCreates
