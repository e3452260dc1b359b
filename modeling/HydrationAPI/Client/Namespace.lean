import HydrationAPI.Client.Change
import HydrationAPI.Lib.Ancestry
import HydrationAPI.Lib.Walk
import HydrationAPI.Protocol.Names

/-!
# The remote tree

A delta feed describes items, and the framework consumes paths. The namespace keeps the tree the
items make up, and answers every item with the changes it means for the files and folders of the
tree: a folder that moves takes all that lies beneath it along, and one that is deleted all that
lies beneath it away.

An item whose parent has not arrived is held, and applied when the parent attaches to the tree. The
source keeps the held items in one list for every parent; here they are in one list, in the order
they arrived, and those that wait for a parent are the ones that name it.
-/

namespace HydrationAPI.Client

/-- A kind without its payload. -/
inductive KindTag where
  | file
  | folder
  | opaq
  deriving DecidableEq, Repr

inductive Kind where
  /-- A file, with the version of its content. -/
  | file (size : ℕ) (ctag : Option String)
  /-- A folder, with the version of its metadata. -/
  | folder (etag : Option String)
  /-- A folder-shaped thing that must not be walked into. -/
  | opaq
  deriving DecidableEq, Repr

def Kind.tag : Kind → KindTag
  | .file .. => .file
  | .folder _ => .folder
  | .opaq => .opaq

/-- The item exists, with this parent, name and shape. -/
structure Upsert where
  id : String
  parent : String
  name : String
  kind : Kind
  deriving DecidableEq, Repr

/-- What a service says about one item. -/
inductive Item where
  /-- The tree's anchor. Its name is not part of any path. -/
  | root (id : String)
  | upsert (u : Upsert)
  /-- The item is gone, and all that lies beneath it. -/
  | delete (id : String)
  deriving DecidableEq, Repr

def Item.id : Item → String
  | root id | delete id => id
  | upsert u => u.id

/-- Why an item could not be placed. -/
inductive Problem where
  /-- A name that cannot be part of a path. -/
  | badName (why : String)
  /-- The named parent is a file. -/
  | parentCannotContain
  /-- Attaching the item would make it its own ancestor. -/
  | cycle
  /-- A second root arrived with a different id. -/
  | foreignRoot
  deriving DecidableEq, Repr

structure Node where
  parent : Option String
  name : String
  kind : Kind
  deriving DecidableEq, Repr

/-- The remote tree as last reported. -/
structure Namespace where
  nodes : AList fun _ : String ↦ Node
  children : AList fun _ : String ↦ List String
  root : Option String
  /-- Items waiting for a parent that has not arrived. -/
  waiting : List Upsert
  problems : AList fun _ : String ↦ Problem

/-- Guards against a malformed tree rather than a deep one. -/
def maxDepth : ℕ := 512

/-- Names that cannot be a single path component. -/
def badName (name : String) : Option String :=
  if name = "" then some "empty"
  else if '/' ∈ name.toList then some "contains a path separator"
  else if '\x00' ∈ name.toList then some "contains NUL"
  else if name = "." ∨ name = ".." then some "is a directory reference"
  else if Names.isInternal name then some "is one of the framework's own names"
  else none

namespace Namespace

def new : Namespace := ⟨∅, ∅, none, [], ∅⟩

variable (ns : Namespace)

/-- The parent of a node. -/
def up (id : String) : Option String := (ns.nodes.lookup id).bind Node.parent

/-- The children of a node, in the order of their ids. -/
def kids (id : String) : List String := Walk.after ns.children id

/-! ## Paths -/

/-- The names from `cur` up to the root, before those in `parts`. -/
def pathFrom : ℕ → String → List String → Option String
  | 0, _, _ => none
  | n + 1, cur, parts =>
    match ns.nodes.lookup cur with
    | none => none
    | some node =>
      match node.parent with
      | none => some ("/".intercalate parts)
      | some parent => pathFrom n parent (node.name :: parts)

/-- The root-relative path of an item, or `none` if the chain is broken. -/
def pathOf (id : String) : Option String := ns.pathFrom maxDepth id []

/-- Whether `id` is `cur` or above it, as far as `n` steps up tell. -/
def meets (id : String) : ℕ → String → Bool
  | 0, _ => true
  | n + 1, cur =>
    if cur = id then true
    else match ns.up cur with
      | some next => meets id n next
      | none => false

/-- Whether attaching `id` under `parent` would make `id` its own ancestor. -/
def wouldCycle (id parent : String) : Bool := ns.meets id maxDepth parent

/-! ## Listing -/

/-- What exists at a node, as a change. -/
def present (id : String) : List Change :=
  match ns.nodes.lookup id with
  | none => []
  | some node =>
    match node.kind with
    | .file size ctag => (ns.pathOf id).toList.map fun path ↦ .upserted id path size ctag
    | .folder etag => (ns.pathOf id).toList.map fun path ↦ .folderUpserted id path etag
    | .opaq => []

/-- Whether a listing goes on beneath a node. -/
def isOpen (id : String) : Bool :=
  match ns.nodes.lookup id with
  | none => false
  | some node => node.kind ≠ .opaq

/-- Everything at or beneath `id`, as upserts at current paths. -/
def collectTree (id : String) : List Change :=
  (Walk.walk ns.children ns.isOpen [id]).flatMap ns.present

def collectDescendants (id : String) : List Change := (ns.kids id).flatMap ns.collectTree

/-- Every id beneath `id`. -/
def collectIds (id : String) : List String :=
  Walk.walk ns.children (fun _ ↦ true) (ns.kids id).reverse

/-- Everything currently known, as a full listing. -/
def listing : List Change := Change.finalise (ns.root.toList.flatMap ns.collectTree)

/-! ## What waits -/

/-- The items that wait for a parent, in the order they arrived. -/
def bucket (waiting : List Upsert) (id : String) : List Upsert := waiting.filter (·.parent = id)

/-- What waits, but for the items that wait for this parent. -/
def dropBucket (waiting : List Upsert) (id : String) : List Upsert :=
  waiting.filter (·.parent ≠ id)

/-- What waits, but for the items of this id. -/
def dropItem (waiting : List Upsert) (id : String) : List Upsert := waiting.filter (·.id ≠ id)

theorem length_bucket_add (waiting : List Upsert) (id : String) :
    (bucket waiting id).length + (dropBucket waiting id).length = waiting.length := by
  rw [bucket, dropBucket, List.length_eq_length_filter_add (l := waiting) fun u ↦ u.parent = id]
  simp

theorem length_dropItem_le (waiting : List Upsert) (id : String) :
    (dropItem waiting id).length ≤ waiting.length := List.length_filter_le _ _

/-- Drop what waits for the ids, what waits for that, and the items themselves wherever they
wait. -/
def forgetFrom : List String → List Upsert → List Upsert
  | [], waiting => waiting
  | cur :: stack, waiting =>
    forgetFrom (((bucket waiting cur).map Upsert.id).reverse ++ stack)
      (dropItem (dropBucket waiting cur) cur)
termination_by stack waiting => stack.length + waiting.length
decreasing_by
  have hsplit := length_bucket_add waiting cur
  have hle := length_dropItem_le (dropBucket waiting cur) cur
  rw [List.length_append, List.length_reverse, List.length_map, List.length_cons]
  omega

/-- Drop what waits for the ids and what waits for that, and record why. -/
def refuseFrom (why : Problem) : List String → List Upsert → (AList fun _ : String ↦ Problem) →
    List Upsert × AList fun _ : String ↦ Problem
  | [], waiting, problems => (waiting, problems)
  | id :: stack, waiting, problems =>
    refuseFrom why (((bucket waiting id).map Upsert.id).reverse ++ stack) (dropBucket waiting id)
      (problems.insert id why)
termination_by stack waiting => stack.length + waiting.length
decreasing_by
  have hsplit := length_bucket_add waiting id
  rw [List.length_append, List.length_reverse, List.length_map, List.length_cons]
  omega

/-- Forget anything to do with an id that has just ceased to exist. -/
def forgetWaiters (id : String) : Namespace :=
  { ns with waiting := forgetFrom [id] ns.waiting }

/-- Refuse an item, and everything that was waiting for it. -/
def refuse (id : String) (why : Problem) : Namespace :=
  let (waiting, problems) := refuseFrom why [id] ns.waiting ns.problems
  { ns with waiting := waiting, problems := problems }

/-! ## One item -/

/-- What has gone with a node, as a change. -/
def gone (id : String) : List Change :=
  match ns.nodes.lookup id with
  | none => []
  | some node =>
    match node.kind with
    | .file .. => [.removed id]
    | .folder _ => (ns.pathOf id).toList.map fun path ↦ .folderRemoved id path
    | .opaq => []

/-- Unlink a node. -/
def drop (id : String) : Namespace :=
  { ns with
    nodes := ns.nodes.erase id
    children := ns.children.erase id
    waiting := forgetFrom [id] ns.waiting
    problems := ns.problems.erase id }

/-- Take a child out of the children of its parent, if it has one. -/
def detach (parent : Option String) (id : String) : Namespace :=
  match parent with
  | none => ns
  | some parent =>
    match ns.children.lookup parent with
    | none => ns
    | some set => { ns with children := ns.children.insert parent (set.filter (· ≠ id)) }

def delete (id : String) : Namespace × List Change :=
  match ns.nodes.lookup id with
  | none => ({ ns.forgetWaiters id with problems := ns.problems.erase id }, [])
  | some node =>
    let doomed := ns.collectIds id
    let out := doomed.flatMap ns.gone ++ ns.gone id
    let ns := ((doomed.foldl drop ns).drop id).detach node.parent id
    ({ ns with root := if ns.root = some id then none else ns.root }, out)

/-- Add to an ordered list what is not in it. -/
def insertInOrder (id : String) (ids : List String) : List String :=
  if id ∈ ids then ids else ids.orderedInsert (fun a b ↦ ¬ b < a) id

/-- Link a node to its parent, in the place of the one that was there. -/
def place (previous : Option Node) (u : Upsert) : Namespace :=
  let ns := ns.detach (previous.bind Node.parent) u.id
  { ns with
    children := ns.children.insert u.parent (insertInOrder u.id (ns.kids u.parent))
    nodes := ns.nodes.insert u.id ⟨some u.parent, u.name, u.kind⟩
    problems := ns.problems.erase u.id }

/-- Attach an item to its parent, which can contain it. -/
def attach (u : Upsert) : Namespace × List Change :=
  let previous := ns.nodes.lookup u.id
  let moved := previous.any fun prev ↦ prev.parent ≠ some u.parent ∨ prev.name ≠ u.name
  let reshaped := previous.any fun prev ↦ prev.kind.tag ≠ u.kind.tag
  let metadataChanged := previous.any fun prev ↦ prev.kind ≠ u.kind
  -- the old shape has to go, or the tree holds one path as both
  let (ns, out) := if reshaped then ns.delete u.id else (ns, [])
  let ns := ns.place previous u
  match u.kind with
  | .file .. => (ns, out ++ ns.present u.id)
  | .folder _ =>
    if previous.isNone || moved || reshaped || metadataChanged then
      -- a folder move changes the path of every descendant
      (ns, out ++ ns.present u.id
        ++ if moved || reshaped then ns.collectDescendants u.id else [])
    else (ns, out)
  | .opaq => (ns, out)

/-- `Namespace::upsert`; with the id if it attached. -/
def upsert (u : Upsert) : Namespace × Option String × List Change :=
  match badName u.name with
  | some why => (ns.refuse u.id (.badName why), none, [])
  | none =>
    match ns.nodes.lookup u.parent with
    | none => ({ ns with waiting := ns.waiting ++ [u] }, none, [])
    | some parent =>
      if parent.kind.tag = .file then (ns.refuse u.id .parentCannotContain, none, [])
      else if ns.wouldCycle u.id u.parent then (ns.refuse u.id .cycle, none, [])
      else
        let (ns, out) := ns.attach u
        (ns, some u.id, out)

/-- The id is there when something attached to the tree, so that its waiters can run. -/
def applyOne : Item → Namespace × Option String × List Change
  | .root id =>
    if ns.root.any (· ≠ id) then
      ({ ns with problems := ns.problems.insert id .foreignRoot }, none, [])
    else
      ({ ns with
          root := some id
          nodes := ns.nodes.insert id ⟨none, "", .folder none⟩ },
        some id, [.folderUpserted id "" none])
  | .upsert u => ns.upsert u
  | .delete id =>
    let (ns, out) := ns.delete id
    (ns, none, out)

/-- Apply one item of the work at hand; what waited for it becomes work, to be done first, the
latest before the others. -/
def workOff (item : Item) (work : List Item) : Namespace × List Item × List Change :=
  match ns.applyOne item with
  | (ns, none, out) => (ns, work, out)
  | (ns, some id, out) =>
    ({ ns with waiting := dropBucket ns.waiting id },
      ((bucket ns.waiting id).map Item.upsert).reverse ++ work, out)

/-! ## What waits only becomes less, but for an item that is held -/

theorem dropBucket_sublist (waiting : List Upsert) (id : String) :
    (dropBucket waiting id).Sublist waiting := List.filter_sublist

theorem dropItem_sublist (waiting : List Upsert) (id : String) :
    (dropItem waiting id).Sublist waiting := List.filter_sublist

theorem forgetFrom_sublist (stack : List String) (waiting : List Upsert) :
    (forgetFrom stack waiting).Sublist waiting := by
  fun_induction forgetFrom stack waiting with
  | case1 waiting => exact List.Sublist.refl _
  | case2 waiting cur stack ih =>
    exact ih.trans ((dropItem_sublist _ _).trans (dropBucket_sublist _ _))

theorem refuseFrom_sublist (why : Problem) (stack : List String) (waiting : List Upsert)
    (problems : AList fun _ : String ↦ Problem) :
    (refuseFrom why stack waiting problems).1.Sublist waiting := by
  fun_induction refuseFrom why stack waiting problems with
  | case1 waiting problems => exact List.Sublist.refl _
  | case2 waiting problems id stack ih => exact ih.trans (dropBucket_sublist _ _)

@[simp] theorem detach_waiting (parent : Option String) (id : String) :
    (ns.detach parent id).waiting = ns.waiting := by
  unfold detach
  split
  · rfl
  · split <;> rfl

theorem drop_waiting_sublist (id : String) : (ns.drop id).waiting.Sublist ns.waiting :=
  forgetFrom_sublist _ _

theorem foldl_drop_waiting_sublist (ids : List String) (ns : Namespace) :
    (ids.foldl drop ns).waiting.Sublist ns.waiting := by
  induction ids generalizing ns with
  | nil => exact List.Sublist.refl _
  | cons id ids ih => exact (ih _).trans (ns.drop_waiting_sublist id)

theorem delete_waiting_sublist (id : String) : (ns.delete id).1.waiting.Sublist ns.waiting := by
  rw [delete]
  split
  · exact forgetFrom_sublist _ _
  · dsimp only
    rw [detach_waiting]
    exact (drop_waiting_sublist _ id).trans (foldl_drop_waiting_sublist _ ns)

@[simp] theorem place_waiting (previous : Option Node) (u : Upsert) :
    (ns.place previous u).waiting = ns.waiting := detach_waiting ns _ _

/-- What is attached takes the place of what was there. -/
theorem attach_fst (u : Upsert) :
    (ns.attach u).1 = (if (ns.nodes.lookup u.id).any (·.kind.tag ≠ u.kind.tag) then
      (ns.delete u.id).1 else ns).place (ns.nodes.lookup u.id) u := by
  rw [attach]
  dsimp only
  split <;> split <;> (try split) <;> rfl

theorem attach_waiting_sublist (u : Upsert) : (ns.attach u).1.waiting.Sublist ns.waiting := by
  rw [attach_fst, place_waiting]
  split
  · exact ns.delete_waiting_sublist u.id
  · exact List.Sublist.refl _

/-- An item is held, or what waits has not become more. -/
theorem applyOne_waiting (item : Item) :
    ((ns.applyOne item).2.1 = none ∧ ∃ u, item = .upsert u ∧ ns.nodes.lookup u.parent = none
        ∧ (ns.applyOne item).1 = { ns with waiting := ns.waiting ++ [u] })
      ∨ (ns.applyOne item).1.waiting.Sublist ns.waiting := by
  match item with
  | .root id =>
    right
    rw [applyOne]
    split <;> exact List.Sublist.refl _
  | .delete id => exact Or.inr (ns.delete_waiting_sublist id)
  | .upsert u =>
    rw [applyOne, upsert]
    split
    · exact Or.inr (refuseFrom_sublist _ _ _ _)
    · split
      · rename_i hparent
        exact Or.inl ⟨rfl, u, rfl, hparent, rfl⟩
      · split
        · exact Or.inr (refuseFrom_sublist _ _ _ _)
        · split
          · exact Or.inr (refuseFrom_sublist _ _ _ _)
          · exact Or.inr (ns.attach_waiting_sublist u)

/-- What waits and what is to be done become fewer together, or one item less is to be done. -/
theorem workOff_length (item : Item) (work : List Item) :
    (ns.workOff item work).1.waiting.length + (ns.workOff item work).2.1.length
        ≤ ns.waiting.length + work.length
      ∨ (ns.workOff item work).1.waiting.length = ns.waiting.length + 1
        ∧ (ns.workOff item work).2.1 = work := by
  rw [workOff]
  rcases ns.applyOne_waiting item with ⟨hnone, u, -, -, hns⟩ | hsub
  · generalize ns.applyOne item = r at hnone hns
    obtain ⟨ns', attached, out⟩ := r
    dsimp only at hnone hns
    subst hnone hns
    exact Or.inr ⟨List.length_append, rfl⟩
  · have hle := hsub.length_le
    generalize ns.applyOne item = r at hle
    obtain ⟨ns', attached, out⟩ := r
    dsimp only at hle
    left
    match attached with
    | none => exact Nat.add_le_add_right hle _
    | some id =>
      have hsplit := length_bucket_add ns'.waiting id
      dsimp only
      rw [List.length_append, List.length_reverse, List.length_map]
      omega

/-! ## Applying an item -/

/-- A measure of the work at hand: what waits may become work, but each time there is less of it. -/
def measure (ns : Namespace) (work : List Item) : ℕ :=
  (ns.waiting.length + work.length) * (ns.waiting.length + work.length + 1) + work.length

theorem measure_workOff_lt (item : Item) (work : List Item) :
    measure (ns.workOff item work).1 (ns.workOff item work).2.1 < measure ns (item :: work) := by
  rw [measure, measure, List.length_cons]
  rcases ns.workOff_length item work with hle | ⟨hheld, hwork⟩
  · generalize (ns.workOff item work).1.waiting.length = a at hle
    generalize (ns.workOff item work).2.1.length = b at hle
    generalize hn : ns.waiting.length + work.length = n at hle
    have htotal : ns.waiting.length + (work.length + 1) = n + 1 := by omega
    have hsquare : (a + b) * (a + b + 1) ≤ n * (n + 1) :=
      Nat.mul_le_mul hle (Nat.succ_le_succ hle)
    have hgrow : (n + 1) * (n + 1 + 1) = n * (n + 1) + 2 * (n + 1) := by
      rw [Nat.mul_comm (n + 1), ← Nat.add_mul]
    rw [htotal, hgrow]
    omega
  · rw [hheld, hwork]
    have hsum : ns.waiting.length + 1 + work.length = ns.waiting.length + (work.length + 1) := by
      omega
    rw [hsum]
    omega

/-- Work until nothing is left to be done. -/
def settle (ns : Namespace) (work : List Item) (out : List Change) : Namespace × List Change :=
  match work with
  | [] => (ns, out)
  | item :: work =>
    settle (ns.workOff item work).1 (ns.workOff item work).2.1
      (out ++ (ns.workOff item work).2.2)
termination_by measure ns work
decreasing_by exact ns.measure_workOff_lt item work

/-- Apply one item and return the file changes it implies. -/
def apply (item : Item) : Namespace × List Change :=
  let (ns, out) := ns.settle [item] []
  (ns, Change.finalise out)

/-- Items held because their parent has not arrived. -/
def pendingIds : List String := (ns.waiting.map Upsert.id).insertionSort fun a b ↦ ¬ b < a

/-! ## Persisting -/

/-- The children of a node as items. -/
def kidItems (id : String) : List Upsert :=
  (ns.kids id).filterMap fun kid ↦
    (ns.nodes.lookup kid).map fun node ↦ ⟨kid, id, node.name, node.kind⟩

/-- The items beneath the ids of the queue, those of the first before those of the others. -/
def snapshotFrom : List String → List String → List Upsert
  | [], _ => []
  | cur :: queue, seen =>
    if cur ∈ seen then snapshotFrom queue seen
    else ns.kidItems cur
      ++ snapshotFrom (queue ++ (ns.kidItems cur).map Upsert.id) (cur :: seen)
termination_by queue seen => queue.length + Walk.unseen ns.children seen
decreasing_by
  · rw [List.length_cons]
    omega
  · rename_i hcur
    have hunseen := Walk.unseen_cons ns.children hcur
    have hle : (ns.kidItems cur).length ≤ (Walk.after ns.children cur).length :=
      List.length_filterMap_le _ _
    rw [List.length_append, List.length_map, List.length_cons]
    omega

/-- The whole tree as items, parents before children. -/
def snapshot : List Item :=
  match ns.root with
  | none => []
  | some root => .root root :: (ns.snapshotFrom [root] []).map Item.upsert

/-- Apply the items one after the other, for the tree alone. -/
def applyAll (ns : Namespace) (items : List Item) : Namespace :=
  items.foldl (fun ns item ↦ (ns.apply item).1) ns

theorem applyAll_nil (ns : Namespace) : ns.applyAll [] = ns := rfl

theorem applyAll_cons (ns : Namespace) (item : Item) (items : List Item) :
    ns.applyAll (item :: items) = (ns.apply item).1.applyAll items := rfl

theorem applyAll_append (ns : Namespace) (first last : List Item) :
    ns.applyAll (first ++ last) = (ns.applyAll first).applyAll last := List.foldl_append

/-- Rebuild from a snapshot. This is a restore, not news. -/
def restore (items : List Item) : Namespace := { new.applyAll items with problems := ∅ }

end Namespace

end HydrationAPI.Client
