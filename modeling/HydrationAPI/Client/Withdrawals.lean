import HydrationAPI.Client.DeltaStep
import HydrationAPI.Client.OfflineRemovals
import HydrationAPI.Client.Removals
import HydrationAPI.Client.Upload

/-!
# Withdrawing what was deleted here

Of a deletion the watch on the sync root reports a name. Which object it was is told by what was
recorded under that name: when the upload driver last sent a file from there, and in the two
registers, which are written by a walk from time to time. A file carries its identity with it when
it is renamed, and the records stay where they are.

Besides the tree it is kept which objects have lost their file, and under which name.
-/

namespace HydrationAPI.Client.Withdrawals

open Delta

/-! ## The records -/

/-- What the framework knows about the object that used to be at a path: the lineage of the files
that hold content, and the manifest of those that do not. -/
structure Registers where
  lineage : Lineage
  manifest : PathMap String Record

def Registers.record (r : Registers) (rel : RelPath) : Option Record :=
  (r.lineage.get rel).or (r.manifest.get rel)

/-- `RECENT_SENDS`. -/
def recentSends : ℕ := 4096

/-- What the upload driver has just created, by path. -/
abbrev Recent := AList fun _ : RelPath ↦ String

def Recent.remember (recent : Recent) (rel : RelPath) (cloudId : String) : Recent :=
  (if recentSends ≤ recent.entries.length then ∅ else recent).insert rel cloudId

/-- A withdrawal that is asked of the sink. -/
inductive Withdrawal where
  | remove (cloudId : String)
  | removeKnown (known : Upload.Known)
  deriving DecidableEq, Repr

def Withdrawal.cloudId : Withdrawal → String
  | remove cloudId => cloudId
  | removeKnown known => known.cloudId

/-- The path that a report is about. -/
def rel (g : Gone) : RelPath := Text.split '/' g.path

/-- What `apply_removals` asks for a name that went away. -/
def withdrawal (recent : Recent) (registers : Registers) (ignore : IgnoreSet) (g : Gone) :
    Option Withdrawal :=
  if ignore.isIgnored g.path then none
  else match recent.lookup (rel g) with
    | some cloudId => some (.remove cloudId)
    | none => (registers.record (rel g)).map fun known ↦ .removeKnown ⟨known.cloudId, known.tag⟩

/-! ## The tree -/

/-- What happens to the synced tree, whoever does it. -/
inductive Deed where
  /-- A file is created or placed, or comes in from elsewhere. -/
  | appeared (p : RelPath) (node : Inode)
  /-- The content or the attributes of what is at a path change. -/
  | rewritten (p : RelPath) (node : Inode)
  | unlinked (p : RelPath)
  /-- Of a file or a directory; what was at the new name is gone. -/
  | renamed (a b : RelPath)
  | movedOut (p : RelPath)

namespace Deed

def Possible (d : Disk) : Deed → Prop
  | appeared p _ => d.get p = none
  | rewritten p node => ∃ i, d.get p = some i ∧ node.isDir = i.isDir
  | unlinked p | movedOut p => d.get p ≠ none
  | renamed a b => (¬ a <+: b ∧ ¬ b <+: a) ∧ d.get a ≠ none

def apply (d : Disk) : Deed → Disk
  | appeared p node | rewritten p node => d.set p node
  | unlinked p => d.erase p
  | renamed a b => d.move a b
  | movedOut p => d.prune p

/-- The file at the path is deleted, moved out, or replaced. -/
def Strikes (p : RelPath) : Deed → Prop
  | unlinked q => q = p
  | movedOut q | renamed _ q => q <+: p
  | appeared _ _ | rewritten _ _ => False

/-- A file gets the cloud id. -/
def Gives (cloudId : String) : Deed → Prop
  | appeared _ node | rewritten _ node => node.id = .text cloudId
  | unlinked _ | renamed _ _ | movedOut _ => False

end Deed

/-- Which objects have lost their file, and under which name: the only file with the id was struck
there, and no file has got the id since. -/
def lostAfter (d : Disk) (lost : RelPath → String → Prop) (x : Deed) (p : RelPath)
    (cloudId : String) : Prop :=
  (Carries d cloudId p ∧ (∀ q, Carries d cloudId q → q = p) ∧ x.Strikes p)
    ∨ lost p cloudId ∧ ¬ x.Gives cloudId

/-! ## The driver -/

/-- Where the upload driver is in its loop. -/
inductive Phase where
  | idle
  /-- A file is sent; its path was looked up before. -/
  | sending (sentPath : Option RelPath)
  /-- The upload has recorded the id on the file. -/
  | sent (sentPath : Option RelPath) (cloudId : String)
  /-- In `apply_removals`. -/
  | removing (gone : List Gone) (lineage : Lineage) (ignore : IgnoreSet)

/-- The driver, the tree and the records, with the withdrawals so far, each with the tree as it was
then. -/
structure Session where
  disk : Disk
  lineage : Lineage
  manifest : PathMap String Record
  ignore : IgnoreSet
  watch : Removals
  recent : Recent
  phase : Phase
  calls : List (Withdrawal × Disk)
  lost : RelPath → String → Prop

/-- The driver starts; an object that no file carries then has lost its file before. -/
def Session.start (disk : Disk) (lineage : Lineage) (manifest : PathMap String Record)
    (ignore : IgnoreSet) (watch : Removals) : Session :=
  ⟨disk, lineage, manifest, ignore, watch, ∅, .idle, [],
    fun _ cloudId ↦ ∀ p, ¬ Carries disk cloudId p⟩

/-- A deed of any process, or a step of the driver. What it withdraws it withdraws under the
condition `C`. -/
inductive Step (C : Session → RelPath → String → Prop) : Session → Session → Prop
  | deed {s : Session} (x : Deed) : x.Possible s.disk →
      Step C s { s with disk := x.apply s.disk, lost := lostAfter s.disk s.lost x }
  /-- A delta pass writes the registers. -/
  | recorded {s : Session} (lineage : Lineage) (manifest : PathMap String Record)
      (ignore : IgnoreSet) :
      Step C s { s with lineage := lineage, manifest := manifest, ignore := ignore }
  /-- An upload begins. -/
  | begun {s : Session} (store : Store) (file : FileId) : s.phase = .idle →
      Step C s { s with phase := .sending ((store.lookup s.disk file).map StoreEntry.path) }
  | failed {s : Session} (sentPath : Option RelPath) : s.phase = .sending sentPath →
      Step C s { s with phase := .idle }
  /-- At the end of an upload the file gets its id. -/
  | adopted {s : Session} (env : Upload.Env) (path : RelPath) (sentState : Option Stat)
      (uploaded : Upload.Uploaded) (what : String) (d : Disk) (sentPath : Option RelPath) :
      s.phase = .sending sentPath →
      Upload.adopt env s.disk path sentState uploaded what = (.sent uploaded.cloudId, d) →
      Step C s { s with
        disk := d, phase := .sent sentPath uploaded.cloudId
        lost := fun p cloudId ↦ s.lost p cloudId ∧ cloudId ≠ uploaded.cloudId }
  | remembered {s : Session} (sentPath : Option RelPath) (cloudId : String) :
      s.phase = .sent sentPath cloudId →
      Step C s { s with
        recent := sentPath.elim s.recent fun p ↦ s.recent.remember p cloudId, phase := .idle }
  /-- `apply_removals` is called with what the watch has seen. -/
  | taken {s : Session} (drain : Drain) (known : ℕ) : s.phase = .idle →
      Step C s { s with
        watch := (s.watch.take drain).1
        phase := .removing
          (if removalCeiling known < (s.watch.take drain).2.gone.length then []
            else (s.watch.take drain).2.gone) s.lineage s.ignore }
  | withdrawn {s : Session} (g : Gone) (gone : List Gone) (lineage : Lineage) (ignore : IgnoreSet) :
      s.phase = .removing (g :: gone) lineage ignore →
      (∀ w ∈ withdrawal s.recent ⟨lineage, s.manifest⟩ ignore g, C s (rel g) w.cloudId) →
      Step C s { s with
        phase := .removing gone lineage ignore
        calls := s.calls
          ++ (withdrawal s.recent ⟨lineage, s.manifest⟩ ignore g).toList.map (·, s.disk) }
  | ended {s : Session} (lineage : Lineage) (ignore : IgnoreSet) :
      s.phase = .removing [] lineage ignore → Step C s { s with phase := .idle }

/-! ## What is withdrawn -/

section

variable {d d' : Disk} {lost : RelPath → String → Prop} {x : Deed} {p q : RelPath}
  {cloudId : String}

theorem not_carries_apply_of_strikes (hx : x.Possible d) (hstrikes : x.Strikes p)
    (honly : ∀ q, Carries d cloudId q → q = p) : ¬ Carries (x.apply d) cloudId q := by
  intro hq
  match x with
  | .appeared _ _ | .rewritten _ _ => exact hstrikes.elim
  | .unlinked a =>
    obtain rfl : a = p := hstrikes
    obtain ⟨hne, hq⟩ := PathMap.holds_erase.mp hq
    exact hne (honly q hq)
  | .movedOut a =>
    obtain ⟨hne, hq⟩ := PathMap.holds_prune.mp hq
    exact hne (honly q hq ▸ hstrikes)
  | .renamed a b =>
    rcases PathMap.holds_move.mp hq with ⟨r, -, hr⟩ | ⟨hne, -, hq⟩
    -- what is moved has the id only if it is at the path that is struck
    · have hbelow : b <+: a ++ r := honly _ hr ▸ hstrikes
      exact (List.prefix_or_prefix_of_prefix hbelow (List.prefix_append a r)).elim hx.1.2 hx.1.1
    · exact hne (honly q hq ▸ hstrikes)

theorem not_carries_apply (hgives : ¬ x.Gives cloudId) (hnone : ∀ q, ¬ Carries d cloudId q) :
    ¬ Carries (x.apply d) cloudId q := by
  intro hq
  match x with
  | .appeared a node | .rewritten a node =>
    rcases PathMap.holds_set.mp hq with ⟨-, -, hid⟩ | ⟨-, hq⟩
    · exact hgives hid
    · exact hnone q hq
  | .unlinked a => exact hnone q (PathMap.holds_erase.mp hq).2
  | .movedOut a => exact hnone q (PathMap.holds_prune.mp hq).2
  | .renamed a b =>
    rcases PathMap.holds_move.mp hq with ⟨r, -, hr⟩ | ⟨-, -, hq⟩
    · exact hnone _ hr
    · exact hnone q hq

/-- What has lost its file has none. -/
def Bereft (d : Disk) (lost : RelPath → String → Prop) : Prop :=
  ∀ p cloudId, lost p cloudId → ∀ q, ¬ Carries d cloudId q

theorem Bereft.after (h : Bereft d lost) (hx : x.Possible d) :
    Bereft (x.apply d) (lostAfter d lost x) := by
  rintro p cloudId (⟨-, honly, hstrikes⟩ | ⟨hlost, hgives⟩) q
  · exact not_carries_apply_of_strikes hx hstrikes honly
  · exact not_carries_apply hgives (h p cloudId hlost)

theorem adopt_sent {env : Upload.Env} {path : RelPath} {sentState : Option Stat}
    {uploaded : Upload.Uploaded} {what : String}
    (h : Upload.adopt env d path sentState uploaded what = (.sent uploaded.cloudId, d')) :
    ∃ node : Inode, node.id = .text uploaded.cloudId ∧ d' = d.set path node := by
  rw [Upload.adopt] at h
  split at h
  · cases h
  · cases h
  · exact ⟨_, rfl, (Prod.mk.inj h).2.symm⟩

/-- What is kept of a run: what has lost its file has none, and nothing has been withdrawn that had
one. -/
structure Justified (s : Session) : Prop where
  bereft : Bereft s.disk s.lost
  calls : ∀ c ∈ s.calls, ∀ p, ¬ Carries c.2 c.1.cloudId p

theorem Justified.step {s s' : Session} (h : Justified s)
    (hstep : Step (fun s p cloudId ↦ s.lost p cloudId) s s') : Justified s' := by
  match hstep with
  | .deed x hx => exact ⟨h.bereft.after hx, h.calls⟩
  | .adopted _ _ _ uploaded _ _ _ _ hadopt =>
    obtain ⟨node, hid, rfl⟩ := adopt_sent hadopt
    refine ⟨fun p cloudId ⟨hlost, hne⟩ q ↦ ?_, h.calls⟩
    refine not_carries_apply (x := .rewritten _ node) (fun hgives ↦ hne ?_)
      (h.bereft p cloudId hlost)
    exact Attr.text.inj ((Eq.symm hgives).trans hid)
  | .withdrawn g _ lineage ignore _ hlost =>
    refine ⟨h.bereft, fun c hc ↦ ?_⟩
    rcases List.mem_append.mp hc with hc | hc
    · exact h.calls c hc
    · obtain ⟨w, hw, rfl⟩ := List.mem_map.mp hc
      exact h.bereft _ _ (hlost w (Option.mem_toList.mp hw))
  | .recorded _ _ _ | .begun _ _ _ | .failed _ _ | .remembered _ _ _ | .taken _ _ _
  | .ended _ _ _ =>
    exact ⟨h.bereft, h.calls⟩

end

private def fileOf (ino : ℕ) (id : Attr) : Inode :=
  ⟨⟨⟨1, ino⟩, 3, 10, 0⟩, false, id, .absent, .absent, .absent, true⟩

/-- The sync root has one file, of the object `A`. -/
private def synced : Session :=
  .start ⟨[(["f"], fileOf 7 (.text "A"))]⟩ ⟨[(["f"], ⟨"A", some "v1"⟩)]⟩ ⟨[]⟩ ⟨[".git"], []⟩
    ⟨AList.singleton 1 "", false, ∅, ∅⟩

private def drained (events : List Event) : Drain := ⟨events, .asListed⟩

end HydrationAPI.Client.Withdrawals
