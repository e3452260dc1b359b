import HydrationAPI.Graph.Batch

/-!
# The position in the feed

A round derives a tree and a token, and writes neither. A provider is never told that a batch was
applied: what it sees is the cursor it is asked with next. The cursor it was asked with last means
that the batch could not be applied, and is answered from memory; any other means that the caller
has moved on, and then the tree is written, and the token after it.

The caller begins with no cursor whenever the process starts, moves to the one it was given when it
has applied a batch, and stays where it is otherwise. A crash may come between any two writes, and a
write may fail after it has landed.

Batches are numbered here from 1 on, over all processes, and so are the tree and the token on the
disk, by the batch they were derived with. No code keeps these numbers.
-/

namespace HydrationAPI.Graph

open HydrationAPI.Client (Change KindTag Namespace)
open HydrationAPI.Client.Namespace (Farewell)
open GraphDiscover

/-- Where a feed was left off, as the caller keeps it. -/
abbrev Cursor := Option String

/-- A completed round's two writes, held back until the caller moves on. -/
structure Uncommitted where
  serial : ℕ
  /-- Nothing if the round changed nothing, and the tree on disk is still the one the token was
  derived after. -/
  tree : Option TreeBlob
  token : TokenBlob

/-- The tree and the token on disk. -/
structure Disk where
  tree : Option (ℕ × TreeBlob)
  token : Option (ℕ × TokenBlob)

namespace Disk

/-- What is read of it. -/
def state (disk : Disk) : PersistedState := ⟨disk.tree.map Prod.snd, disk.token.map Prod.snd⟩

/-- The number of the tree, or 0. -/
def treeSerial (disk : Disk) : ℕ := (disk.tree.map Prod.fst).getD 0

def saveTree (disk : Disk) (serial : ℕ) (tree : TreeBlob) : Disk :=
  { disk with tree := some (serial, tree) }

def saveToken (disk : Disk) (serial : ℕ) (token : TokenBlob) : Disk :=
  { disk with token := some (serial, token) }

end Disk

/-- What a write comes to. One that fails may have landed. -/
inductive Save where
  | saved
  | failed (landed : Bool) (e : IoError)

def Save.run : Save → Disk → Disk → Disk × Except IoError Unit
  | .saved, _, after => (after, .ok ())
  | .failed landed e, before, after => (if landed then after else before, .error e)

/-- What the store does in the course of one call. -/
structure StateStore where
  load : Option IoError
  saveTree : Save
  saveToken : Save

/-- What the provider keeps in memory. -/
structure GraphDiscover where
  /-- The cursor of the last call that returned, and what it was answered with. -/
  lastInput : Option Cursor
  served : Option (List Change × Cursor)
  repeats : ℕ
  /-- The tree and the token of the last round, derived and not yet on disk. -/
  pending : Option Uncommitted
  /-- Makes every cursor this provider mints unique. -/
  rounds : ℕ
  escalation : Option Escalation

/-- A batch, with what it was derived from. -/
structure Delivered where
  /-- What the round read of the disk, and the number of the tree that lay there. -/
  stored : StoredView
  base : ℕ
  /-- The items its pages came to. -/
  items : List Client.Item
  done : Attempt
  held : Uncommitted
  cursor : Cursor

/-- The removals first: they free the paths the others may claim. -/
def Delivered.batch (d : Delivered) : List Change := d.done.removals ++ d.done.listing

/-- The number of the tree the token of the batch belongs to. -/
def Delivered.treeSerial (d : Delivered) : ℕ := if d.held.tree.isSome then d.held.serial else d.base

inductive Answer where
  | repeated (served : List Change × Cursor)
  | completed (d : Delivered)

def Answer.value : Answer → List Change × Cursor
  | .repeated served => served
  | .completed d => (d.batch, d.cursor)

namespace GraphDiscover

/-- How many times the same cursor may be handed back before it is reported. -/
def stallLimit : ℕ := 3

def new : GraphDiscover := ⟨none, none, 0, none, 0, none⟩

variable (text : Serde.Text) (scope : DriveScope) (source : PageSource) (store : StateStore)
  (g : GraphDiscover) (disk : Disk) (cursor : Cursor)

/-- The cursor of the last call, answered from memory. -/
def «repeat» : GraphDiscover × Option (List Change × Cursor) :=
  if g.lastInput ≠ some cursor then (g, none)
  else match g.served with
    | none => (g, none)
    | some served =>
      let g := { g with repeats := g.repeats + 1 }
      if stallLimit ≤ g.repeats then
        ({ g with escalation := some (.stalledRetryable g.repeats
            ((served.1.filter isRemoval).map Change.id)) }, some served)
      else (g, some served)

/-- Land the previous round's writes, the tree first. A failure discards the pair. -/
def commit : GraphDiscover × Disk × Except IoError Unit :=
  match g.pending with
  | none => (g, disk, .ok ())
  | some pending =>
    let g := { g with pending := none }
    let (disk, saved) : Disk × Except IoError Unit := match pending.tree with
      | none => (disk, .ok ())
      | some tree => store.saveTree.run disk (disk.saveTree pending.serial tree)
    match saved with
    | .error e => (g, disk, .error e)
    | .ok () =>
      let (disk, saved) := store.saveToken.run disk (disk.saveToken pending.serial pending.token)
      (g, disk, saved)

/-- An escalation is kept, to be read by whoever asks for it. -/
def fail (fault : Fault) : GraphDiscover :=
  match fault with
  | .escalated e => { g with escalation := some e }
  | _ => g

/-- The items the pages of a round came to. -/
def attemptedItems (stored : StoredView) (done : Attempt) : List Client.Item :=
  match attempt source scope stored false [] with
  | (.error .resync, log) => itemsFed source scope stored true log done
  | _ => itemsFed source scope stored false [] done

/-- The tree and the token a round derives. -/
def derived (serial : ℕ) (stored : StoredView) (done : Attempt) : Uncommitted :=
  -- nothing was applied, so the tree on disk is still the tree
  let unchanged : Bool := ¬ done.enumerated ∧ done.applied = 0 ∧ done.removals = []
    ∧ done.mounts = stored.mounts ∧ stored.tags = some done.tags
  -- a token may never be newer than its tree: equal is allowed
  let generation := if unchanged then stored.generation else stored.generation + 1
  ⟨serial, if unchanged then none
    else some (encodeTree text scope.drive done.tags done.items done.mounts generation),
    { done.tokens with generation := generation }⟩

/-- One round, from what is on disk. -/
def runRound (serial : ℕ) : GraphDiscover × Except Fault Delivered :=
  match store.load with
  | some e => (g, .error (.io e))
  | none =>
    let stored := StoredView.read text scope (some disk.state)
    match (attempted source scope stored).1 with
    | .error fault => (g.fail fault, .error fault)
    | .ok done =>
      let held := derived text scope serial stored done
      match held.token.get scope.drive with
      | none =>
        (g, .error (.io (invalidData "the round derived no token for the drive it was syncing")))
      | some link =>
        let g := { g with pending := some held, rounds := g.rounds + 1 }
        (g, .ok ⟨stored, disk.treeSerial, attemptedItems scope source stored done, done, held,
          some s!"r{g.rounds}:{link}"⟩)

/-- What the caller asks for. -/
def changes (serial : ℕ) : GraphDiscover × Disk × Except Fault Answer :=
  match g.repeat cursor with
  | (g, some served) => (g, disk, .ok (.repeated served))
  | (g, none) =>
    match g.commit store disk with
    | (g, disk, .error e) => (g, disk, .error (.io e))
    | (g, disk, .ok ()) =>
      match g.runRound text scope source store disk serial with
      | (g, .error fault) => (g, disk, .error fault)
      | (g, .ok d) =>
        ({ g with lastInput := some cursor, served := some (d.batch, d.cursor), repeats := 0,
                  escalation := none }, disk, .ok (.completed d))

/-- The disks a commit passes through. -/
def stages : List Disk :=
  match g.pending with
  | none => [disk]
  | some pending =>
    match pending.tree with
    | none => [disk, disk.saveToken pending.serial pending.token]
    | some tree => [disk, disk.saveTree pending.serial tree,
        (disk.saveTree pending.serial tree).saveToken pending.serial pending.token]

end GraphDiscover

/-! ## The caller, and what may happen -/

/-- A provider and its caller, and what is on disk. -/
structure World where
  disk : Disk
  graph : GraphDiscover
  /-- Where the caller is. -/
  cursor : Cursor
  /-- What has been delivered, the latest first. -/
  ledger : List Delivered
  /-- The numbers of the batches whose cursors the caller has asked with. -/
  acknowledged : List ℕ

namespace World

def start : World := ⟨⟨none, none⟩, .new, none, [], []⟩

/-- The caller asks. With the cursor of the latest batch it acknowledges that batch. -/
def asking (w : World) : World :=
  { w with acknowledged := match w.ledger with
    | [] => w.acknowledged
    | d :: _ => if w.cursor = d.cursor then d.held.serial :: w.acknowledged else w.acknowledged }

/-- A call that returns. The caller moves on if it could apply what it was given. -/
def ask (text : Serde.Text) (scope : DriveScope) (source : PageSource) (store : StateStore)
    (applied : Bool) (w : World) : World :=
  let w := w.asking
  match w.graph.changes text scope source store w.disk w.cursor (w.ledger.length + 1) with
  | (g, disk, .error _) => { w with graph := g, disk := disk }
  | (g, disk, .ok answer) =>
    { w with
      graph := g
      disk := disk
      cursor := if applied then answer.value.2 else w.cursor
      ledger := match answer with
        | .repeated _ => w.ledger
        | .completed d => d :: w.ledger }

/-- The process starts again, with what is on disk. -/
def restart (w : World) (disk : Disk) : World :=
  { w with disk := disk, graph := .new, cursor := none }

/-- A call, a crash between two calls, or a crash in the course of a call, before or after any of
the writes that the call makes. -/
inductive Step (text : Serde.Text) (scope : DriveScope) (w : World) : World → Prop
  | ask (source : PageSource) (store : StateStore) (applied : Bool) :
    Step text scope w (w.ask text scope source store applied)
  | crash : Step text scope w (w.restart w.disk)
  | crashDuring (disk : Disk) (hcall : (w.graph.repeat w.cursor).2 = none)
      (hdisk : disk ∈ w.graph.stages w.disk) : Step text scope w (w.asking.restart disk)

/-- What a process has come to, from an empty disk. -/
def Reachable (text : Serde.Text) (scope : DriveScope) : World → Prop :=
  Relation.ReflTransGen (Step text scope) start

end World

/-! ## What holds throughout -/

/-- A batch is what a round has come to that was fed its items. -/
def Delivered.Derived (scope : DriveScope) (d : Delivered) : Prop :=
  ∃ source force log, (GraphDiscover.attempt source scope d.stored force log).1 = .ok d.done
    ∧ d.items = itemsFed source scope d.stored force log d.done

/-- What is on disk was derived with a batch the caller has acknowledged, and no token with a tree
that is newer than the one on disk. -/
structure Disk.Safe (disk : Disk) (ledger : List Delivered) (acknowledged : List ℕ) : Prop where
  tree : ∀ n tree, disk.tree = some (n, tree) →
    ∃ d ∈ ledger, d.held.serial = n ∧ d.held.tree = some tree ∧ n ∈ acknowledged
  token : ∀ n token, disk.token = some (n, token) →
    ∃ d ∈ ledger, d.held.serial = n ∧ d.held.token = token ∧ n ∈ acknowledged
      ∧ d.treeSerial ≤ disk.treeSerial

/-- What is held back was derived with the latest batch, which is what the caller has been given
last, for the cursor it was at. -/
structure World.Holds (w : World) (p : Uncommitted) (d : Delivered) : Prop where
  held : d.held = p
  latest : ∃ rest, w.ledger = d :: rest
  number : p.serial = w.ledger.length
  served : w.graph.served = some (d.batch, d.cursor)
  cursor : w.graph.lastInput = some w.cursor ∨ w.cursor = d.cursor
  base : d.base ≤ w.disk.treeSerial

structure World.Safe (scope : DriveScope) (w : World) : Prop where
  derived : ∀ d ∈ w.ledger, d.Derived scope
  numbers : ∀ d ∈ w.ledger, d.held.serial ≤ w.ledger.length
  distinct : (w.ledger.map fun d ↦ d.held.serial).Nodup
  disk : w.disk.Safe w.ledger w.acknowledged
  pending : ∀ p, w.graph.pending = some p → ∃ d, w.Holds p d

section Steps

variable {text : Serde.Text} {scope : DriveScope} {source : PageSource} {store : StateStore}
  {g : GraphDiscover} {disk disk' : Disk} {cursor : Cursor} {w : World}
  {ledger ledger' : List Delivered} {acknowledged acknowledged' : List ℕ} {p : Uncommitted}
  {d : Delivered}

theorem Disk.Safe.mono (h : disk.Safe ledger acknowledged) (hledger : ledger ⊆ ledger')
    (hacknowledged : acknowledged ⊆ acknowledged') : disk.Safe ledger' acknowledged' := by
  constructor
  · intro n tree hn
    obtain ⟨d, hd, hserial, htree, hack⟩ := h.tree n tree hn
    exact ⟨d, hledger hd, hserial, htree, hacknowledged hack⟩
  · intro n token hn
    obtain ⟨d, hd, hserial, htoken, hack, htree⟩ := h.token n token hn
    exact ⟨d, hledger hd, hserial, htoken, hacknowledged hack, htree⟩

/-- The tree on disk is of no batch that has not been delivered. -/
theorem Disk.Safe.treeSerial_le (h : disk.Safe ledger acknowledged)
    (hnumbers : ∀ d ∈ ledger, d.held.serial ≤ ledger.length) : disk.treeSerial ≤ ledger.length := by
  rw [Disk.treeSerial]
  match htree : disk.tree with
  | none => exact Nat.zero_le _
  | some (n, tree) =>
    obtain ⟨d, hd, rfl, -⟩ := h.tree n tree htree
    exact hnumbers d hd

/-- A tree may be written that is newer than the one on disk. -/
theorem Disk.Safe.saveTree (h : disk.Safe ledger acknowledged) {tree : TreeBlob} (hd : d ∈ ledger)
    (htree : d.held.tree = some tree) (hack : d.held.serial ∈ acknowledged)
    (hnewer : disk.treeSerial ≤ d.held.serial) :
    (disk.saveTree d.held.serial tree).Safe ledger acknowledged := by
  constructor
  · rintro n other hn
    cases hn
    exact ⟨d, hd, rfl, htree, hack⟩
  · intro n token hn
    obtain ⟨e, he, hserial, htoken, hack', hle⟩ := h.token n token hn
    exact ⟨e, he, hserial, htoken, hack', hle.trans hnewer⟩

/-- A token may be written once its tree is on disk. -/
theorem Disk.Safe.saveToken (h : disk.Safe ledger acknowledged) (hd : d ∈ ledger)
    (hack : d.held.serial ∈ acknowledged) (hle : d.treeSerial ≤ disk.treeSerial) :
    (disk.saveToken d.held.serial d.held.token).Safe ledger acknowledged := by
  refine ⟨h.tree, ?_⟩
  rintro n token hn
  cases hn
  exact ⟨d, hd, rfl, rfl, hack, hle⟩

/-- **Whatever a commit leaves on disk** is safe, at whichever write it ends, as long as the caller
has acknowledged the batch. -/
theorem Disk.Safe.of_stages (h : disk.Safe ledger acknowledged) (hpending : g.pending = some d.held)
    (hd : d ∈ ledger) (hack : d.held.serial ∈ acknowledged)
    (hnewer : disk.treeSerial ≤ d.held.serial)
    (hbase : d.base ≤ disk.treeSerial) (hdisk : disk' ∈ g.stages disk) :
    disk'.Safe ledger acknowledged ∧ disk.treeSerial ≤ disk'.treeSerial := by
  rw [GraphDiscover.stages, hpending] at hdisk
  dsimp only at hdisk
  split at hdisk
  · rename_i hnone
    have hle : d.treeSerial ≤ disk.treeSerial := by
      rw [Delivered.treeSerial, hnone]
      exact hbase
    rcases List.mem_cons.mp hdisk with rfl | hdisk
    · exact ⟨h, le_refl _⟩
    · rw [List.mem_singleton.mp hdisk]
      exact ⟨h.saveToken hd hack hle, le_refl _⟩
  · rename_i tree htree
    have hsaved := h.saveTree hd htree hack hnewer
    have hle : d.treeSerial ≤ (disk.saveTree d.held.serial tree).treeSerial := by
      rw [Delivered.treeSerial, htree]
      exact le_refl _
    rcases List.mem_cons.mp hdisk with rfl | hdisk
    · exact ⟨h, le_refl _⟩
    · rcases List.mem_cons.mp hdisk with rfl | hdisk
      · exact ⟨hsaved, hnewer⟩
      · rw [List.mem_singleton.mp hdisk]
        exact ⟨hsaved.saveToken hd hack hle, hnewer⟩

theorem Save.run_mem (save : Save) (before after : Disk) :
    (save.run before after).1 = before ∨ (save.run before after).1 = after := by
  cases save with
  | saved => exact Or.inr rfl
  | failed landed e => cases landed <;> simp [Save.run]

/-- A commit ends at one of its stages, and holds nothing back after it. -/
theorem GraphDiscover.commit_spec (store : StateStore) (g : GraphDiscover) (disk : Disk) :
    (g.commit store disk).2.1 ∈ g.stages disk
    ∧ (g.commit store disk).1 = { g with pending := none } := by
  rw [GraphDiscover.commit, GraphDiscover.stages]
  cases hpending : g.pending with
  | none =>
    refine ⟨List.mem_singleton.mpr rfl, ?_⟩
    change g = { g with pending := none }
    rw [← hpending]
  | some pending =>
    dsimp only
    cases htree : pending.tree with
    | none =>
      refine ⟨?_, rfl⟩
      have hrun := store.saveToken.run_mem disk (disk.saveToken pending.serial pending.token)
      simpa using hrun
    | some tree =>
      have hrun (before : Disk) :=
        store.saveToken.run_mem before (before.saveToken pending.serial pending.token)
      cases hsave : store.saveTree with
      | saved =>
        refine ⟨?_, rfl⟩
        simpa [Save.run] using Or.inr (hrun (disk.saveTree pending.serial tree))
      | failed landed e =>
        refine ⟨?_, rfl⟩
        cases landed <;> simp [Save.run]

/-- What is answered from memory leaves what is held back alone. -/
theorem GraphDiscover.repeat_spec (g : GraphDiscover) (cursor : Cursor) :
    (g.repeat cursor).1.lastInput = g.lastInput
    ∧ (g.repeat cursor).1.served = g.served ∧ (g.repeat cursor).1.pending = g.pending
    ∧ (∀ served, (g.repeat cursor).2 = some served → g.lastInput = some cursor
      ∧ g.served = some served)
    ∧ ((g.repeat cursor).2 = none → (g.repeat cursor).1 = g
      ∧ (g.lastInput = some cursor → g.served = none)) := by
  rw [GraphDiscover.repeat]
  split
  · rename_i hne
    exact ⟨rfl, rfl, rfl, nofun, fun _ ↦ ⟨rfl, fun heq ↦ absurd heq hne⟩⟩
  · rename_i heq
    rw [not_not] at heq
    split
    · rename_i hserved
      exact ⟨rfl, rfl, rfl, nofun, fun _ ↦ ⟨rfl, fun _ ↦ hserved⟩⟩
    · rename_i served hserved
      dsimp only
      split
      · refine ⟨rfl, rfl, rfl, fun other hother ↦ ?_, nofun⟩
        exact ⟨heq, hserved.trans hother⟩
      · refine ⟨rfl, rfl, rfl, fun other hother ↦ ?_, nofun⟩
        exact ⟨heq, hserved.trans hother⟩

theorem GraphDiscover.attempted_ok {stored : StoredView} {done : Attempt}
    (h : (attempted source scope stored).1 = .ok done) :
    ∃ force log, (GraphDiscover.attempt source scope stored force log).1 = .ok done
      ∧ attemptedItems scope source stored done = itemsFed source scope stored force log done := by
  unfold attempted at h
  split at h
  · rename_i log hresync
    exact ⟨true, log, h, by rw [attemptedItems, hresync]⟩
  · rename_i hother
    refine ⟨false, [], h, ?_⟩
    rw [attemptedItems]
    split
    · rename_i log hresync
      exact absurd hresync (hother log)
    · rfl

/-- A round that completes derives its batch from what is on disk, and holds it back. -/
theorem GraphDiscover.runRound_ok {serial : ℕ} {g' : GraphDiscover}
    (h : g.runRound text scope source store disk serial = (g', .ok d)) :
    d.Derived scope ∧ d.held.serial = serial ∧ d.base = disk.treeSerial
      ∧ g'.pending = some d.held := by
  unfold GraphDiscover.runRound at h
  split at h
  · cases h
  · dsimp only at h
    split at h
    · cases h
    · rename_i done hdone
      split at h
      · cases h
      · cases h
        obtain ⟨force, log, hattempt, hitems⟩ := attempted_ok hdone
        exact ⟨⟨source, force, log, hattempt, hitems⟩, rfl, rfl, rfl⟩

theorem GraphDiscover.runRound_pending {serial : ℕ} {g' : GraphDiscover} {fault : Fault}
    (h : g.runRound text scope source store disk serial = (g', .error fault)) :
    g'.pending = g.pending := by
  unfold GraphDiscover.runRound at h
  split at h
  · cases h
    rfl
  · dsimp only at h
    split at h
    · cases h
      cases fault <;> rfl
    · split at h
      · cases h
        rfl
      · cases h

/-- What a call comes to: it is answered from memory, it fails after any of its writes, or it
delivers a batch after all of them. -/
inductive GraphDiscover.Outcome (scope : DriveScope) (g : GraphDiscover) (disk : Disk)
    (cursor : Cursor) (serial : ℕ) : GraphDiscover × Disk × Except Fault Answer → Prop
  | repeated (served : List Change × Cursor) (hrepeat : (g.repeat cursor).2 = some served) :
    Outcome scope g disk cursor serial ((g.repeat cursor).1, disk, .ok (.repeated served))
  | failed (g' : GraphDiscover) (disk' : Disk) (fault : Fault)
      (hrepeat : (g.repeat cursor).2 = none) (hdisk : disk' ∈ g.stages disk)
      (hpending : g'.pending = none) : Outcome scope g disk cursor serial (g', disk', .error fault)
  | completed (g' : GraphDiscover) (disk' : Disk) (d : Delivered)
      (hrepeat : (g.repeat cursor).2 = none) (hdisk : disk' ∈ g.stages disk)
      (hd : d.Derived scope) (hserial : d.held.serial = serial) (hbase : d.base = disk'.treeSerial)
      (hpending : g'.pending = some d.held) (hserved : g'.served = some (d.batch, d.cursor))
      (hinput : g'.lastInput = some cursor) :
    Outcome scope g disk cursor serial (g', disk', .ok (.completed d))

theorem GraphDiscover.changes_cases (serial : ℕ) : Outcome scope g disk cursor serial
    (g.changes text scope source store disk cursor serial) := by
  obtain ⟨-, -, -, -, hnone⟩ := g.repeat_spec cursor
  rw [GraphDiscover.changes]
  split
  · rename_i g' served hrepeat
    have hserved : (g.repeat cursor).2 = some served := by rw [hrepeat]
    have hfirst : (g.repeat cursor).1 = g' := by rw [hrepeat]
    exact hfirst ▸ .repeated served hserved
  · rename_i g' hrepeat
    have hcall : (g.repeat cursor).2 = none := by rw [hrepeat]
    obtain rfl : g' = g := by rw [← (hnone hcall).1, hrepeat]
    obtain ⟨hdisk, hcommit⟩ := g'.commit_spec store disk
    split
    · rename_i g'' disk' e heq
      rw [heq] at hdisk hcommit
      exact .failed _ _ _ hcall hdisk (congrArg GraphDiscover.pending hcommit)
    · rename_i g'' disk' heq
      rw [heq] at hdisk hcommit
      split
      · rename_i g₃ fault hrun
        refine .failed _ _ _ hcall hdisk ?_
        exact (GraphDiscover.runRound_pending hrun).trans (congrArg GraphDiscover.pending hcommit)
      · rename_i g₃ d hrun
        obtain ⟨hd, hserial, hbase, hpending⟩ := GraphDiscover.runRound_ok hrun
        exact .completed _ _ _ hcall hdisk hd hserial hbase hpending rfl rfl

namespace World

theorem asking_subset (w : World) : w.acknowledged ⊆ w.asking.acknowledged := by
  rw [asking]
  split
  · exact List.Subset.refl _
  · dsimp only
    split
    · exact List.subset_cons_self _ _
    · exact List.Subset.refl _

/-- **A call that is not answered from memory acknowledges** what is held back. -/
theorem Holds.heard (h : w.Holds p d) (hcall : (w.graph.repeat w.cursor).2 = none) :
    d.held.serial ∈ w.asking.acknowledged := by
  obtain ⟨rest, hledger⟩ := h.latest
  have hcursor : w.cursor = d.cursor := by
    refine h.cursor.resolve_left fun hlast ↦ ?_
    have hserved := ((w.graph.repeat_spec w.cursor).2.2.2.2 hcall).2 hlast
    exact nomatch hserved.symm.trans h.served
  rw [asking, hledger]
  dsimp only
  rw [if_pos hcursor]
  exact List.mem_cons_self

/-- **At every write of a call** what is on disk is safe. -/
theorem Safe.stages (h : w.Safe scope) (hcall : (w.graph.repeat w.cursor).2 = none)
    (hdisk : disk ∈ w.graph.stages w.disk) :
    disk.Safe w.ledger w.asking.acknowledged := by
  have hsafe := h.disk.mono (List.Subset.refl _) w.asking_subset
  cases hpending : w.graph.pending with
  | none =>
    rw [GraphDiscover.stages, hpending] at hdisk
    rw [List.mem_singleton.mp hdisk]
    exact hsafe
  | some p =>
    obtain ⟨d, hd⟩ := h.pending p hpending
    obtain ⟨rest, hledger⟩ := hd.latest
    have hmem : d ∈ w.ledger := hledger ▸ List.mem_cons_self
    have hserial : d.held.serial = w.ledger.length := hd.held.symm ▸ hd.number
    refine (hsafe.of_stages (hpending.trans (congrArg some hd.held.symm)) hmem
      (hd.heard hcall) ?_ hd.base hdisk).1
    rw [hserial]
    exact h.disk.treeSerial_le h.numbers

/-- The process starts again with nothing held back. -/
theorem Safe.restart (h : w.Safe scope) (hdisk : disk.Safe w.ledger w.acknowledged) :
    (w.restart disk).Safe scope :=
  ⟨h.derived, h.numbers, h.distinct, hdisk, fun _ hp ↦ nomatch hp⟩

theorem Safe.asking (h : w.Safe scope) : w.asking.Safe scope where
  derived := h.derived
  numbers := h.numbers
  distinct := h.distinct
  disk := h.disk.mono (List.Subset.refl _) w.asking_subset
  pending p hp := by
    obtain ⟨d, hd⟩ := h.pending p hp
    exact ⟨d, hd.held, hd.latest, hd.number, hd.served, hd.cursor, hd.base⟩

/-- **A call keeps to it.** -/
theorem Safe.ask (h : w.Safe scope) (applied : Bool) :
    (w.ask text scope source store applied).Safe scope := by
  have hcall : GraphDiscover.Outcome scope w.graph w.disk w.cursor (w.ledger.length + 1)
      (w.graph.changes text scope source store w.disk w.cursor (w.ledger.length + 1)) :=
    GraphDiscover.changes_cases _
  rw [World.ask]
  change World.Safe scope (match w.graph.changes text scope source store w.disk w.cursor
    (w.ledger.length + 1) with | (g, disk, .error _) => _ | (g, disk, .ok answer) => _)
  generalize w.graph.changes text scope source store w.disk w.cursor (w.ledger.length + 1) = r
    at hcall
  cases hcall with
  | repeated served hrepeat =>
    obtain ⟨hinput, hserved, hpending, hanswer, -⟩ := w.graph.repeat_spec w.cursor
    refine ⟨h.derived, h.numbers, h.distinct, h.asking.disk, fun p hp ↦ ?_⟩
    obtain ⟨d, hd⟩ := h.pending p (hpending.symm.trans hp)
    have hnext : served.2 = d.cursor :=
      congrArg Prod.snd (Option.some_inj.mp ((hanswer served hrepeat).2.symm.trans hd.served))
    refine ⟨d, hd.held, hd.latest, hd.number, hserved.trans hd.served, ?_, hd.base⟩
    cases applied with
    | false => exact Or.inl (hinput.trans (hanswer served hrepeat).1)
    | true => exact Or.inr hnext
  | failed g disk fault hrepeat hdisk hpending =>
    refine ⟨h.derived, h.numbers, h.distinct, h.stages hrepeat hdisk, fun p hp ↦ ?_⟩
    exact nomatch hpending.symm.trans hp
  | completed g disk d hrepeat hdisk hd hserial hbase hpending hserved hinput =>
    constructor
    · intro e he
      rcases List.mem_cons.mp he with rfl | he
      · exact hd
      · exact h.derived e he
    · intro e he
      rcases List.mem_cons.mp he with rfl | he
      · exact hserial.le
      · exact (h.numbers e he).trans (Nat.le_succ _)
    · refine List.nodup_cons.mpr ⟨fun hmem ↦ ?_, h.distinct⟩
      obtain ⟨e, he, heq : e.held.serial = d.held.serial⟩ := List.mem_map.mp hmem
      have hle := h.numbers e he
      rw [heq, hserial] at hle
      exact absurd hle (Nat.not_succ_le_self _)
    · exact (h.stages hrepeat hdisk).mono (List.subset_cons_self _ _) (List.Subset.refl _)
    · intro p hp
      obtain rfl : d.held = p := Option.some_inj.mp (hpending.symm.trans hp)
      refine ⟨d, rfl, ⟨w.ledger, rfl⟩, hserial, hserved, ?_, hbase.le⟩
      cases applied with
      | false => exact Or.inl hinput
      | true => exact Or.inr rfl

theorem Safe.step {w' : World} (h : w.Safe scope) (hstep : w.Step text scope w') :
    w'.Safe scope := by
  cases hstep with
  | ask source store applied => exact h.ask applied
  | crash => exact h.restart h.disk
  | crashDuring disk hcall hdisk => exact h.asking.restart (h.stages hcall hdisk)

/-- **In every state that is reached** what is on disk has been acknowledged. -/
theorem Reachable.safe (h : Reachable text scope w) : w.Safe scope := by
  induction h with
  | refl =>
    refine ⟨?_, ?_, List.nodup_nil, ⟨?_, ?_⟩, ?_⟩
    all_goals intros; contradiction
  | tail _ hstep ih => exact ih.step hstep

end World

end Steps

/-- A drive with nothing in it, and the deletion of something it never had. -/
def strayPages : PageSource := fun _ _ ↦ .ok (.read (.ok
  ⟨[{ sampleFolder "r" "r" with root := true, parentReference := none }, sampleTombstone "z" "r"],
    .done "https://graph.microsoft.com/e"⟩))

/-- Everything is saved. -/
def saving : StateStore := ⟨none, .saved, .saved⟩

end HydrationAPI.Graph
