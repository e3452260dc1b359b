import HydrationAPI.Client.Course
import HydrationAPI.Client.Mirror

/-!
# What a listing shows

A node is shown by a listing if it has a path, and nothing above it must not be walked into. A
namespace says what it shows in one listing, or change by change: what an item removes, and what it
places or moves along with what lies beneath it.
-/

namespace HydrationAPI.Client

open Ancestry

/-- What is shown of a node of this kind. -/
def Kind.entryAt (path : String) : Kind → Option Listed
  | .file size ctag => some ⟨path, size, ctag⟩
  | .folder etag => some ⟨path, 0, etag⟩
  | .opaq => none

/-- The item is no package. -/
def Item.Plain : Item → Prop
  | .upsert u => u.kind ≠ .opaq
  | _ => True

namespace Namespace

/-- What the nodes that have a path show. -/
def shown (ns : Namespace) : Mirror := fun k ↦
  (ns.nodes.lookup k.1).bind fun node ↦
    if node.kind.tag = k.2 then (ns.pathOf k.1).bind fun path ↦ node.kind.entryAt path else none

variable {ns ns' : Namespace} {x a : String} {k : String × KindTag} {m : Mirror}

/-! ## Paths -/

theorem pathFrom_congr (h : ∀ y, Under ns.up y x →
    (ns'.nodes.lookup y).map (fun node ↦ (node.parent, node.name))
      = (ns.nodes.lookup y).map fun node ↦ (node.parent, node.name)) (n : ℕ) (parts : List String) :
    ns'.pathFrom n x parts = ns.pathFrom n x parts := by
  induction n generalizing x parts with
  | zero => rfl
  | succ n ih =>
    have hx := h x (Under.refl ns.up x)
    rw [pathFrom, pathFrom]
    cases hnode : ns.nodes.lookup x with
    | none =>
      rw [hnode] at hx
      rw [Option.map_eq_none_iff.mp hx]
    | some node =>
      rw [hnode] at hx
      obtain ⟨node', hnode', hsame⟩ := Option.map_eq_some_iff.mp hx
      obtain ⟨hparent, hname⟩ := Prod.mk.inj hsame
      rw [hnode']
      dsimp only
      rw [hparent, hname]
      split
      · rfl
      · rename_i p hp
        exact ih (fun y hy ↦ h y (Under.step ((up_of_lookup hnode).trans hp) hy)) _

/-- The path of a node is made up of the names above it. -/
theorem pathOf_congr (h : ∀ y, Under ns.up y x →
    (ns'.nodes.lookup y).map (fun node ↦ (node.parent, node.name))
      = (ns.nodes.lookup y).map fun node ↦ (node.parent, node.name)) :
    ns'.pathOf x = ns.pathOf x := pathFrom_congr h maxDepth []

theorem isSome_pathFrom {n : ℕ} {node : Node} (hd : Depth ns.up x n)
    (hparents : ∀ y p, ns.up y = some p → ∃ node, ns.nodes.lookup p = some node)
    (hx : ns.nodes.lookup x = some node) (fuel : ℕ) (parts : List String) :
    (ns.pathFrom fuel x parts).isSome = true ↔ n < fuel := by
  induction hd generalizing node fuel parts with
  | @top x htop =>
    cases fuel with
    | zero => simp [pathFrom]
    | succ fuel =>
      rw [up_of_lookup hx] at htop
      rw [pathFrom, hx]
      dsimp only
      rw [htop]
      simp
  | @step x p n hp _ ih =>
    cases fuel with
    | zero => simp [pathFrom]
    | succ fuel =>
      obtain ⟨node', hnode'⟩ := hparents x p hp
      rw [up_of_lookup hx] at hp
      rw [pathFrom, hx]
      dsimp only
      rw [hp]
      dsimp only
      rw [ih hnode', Nat.succ_lt_succ_iff]

/-- **A node has a path** if it does not lie too deep. -/
theorem Tree.isSome_pathOf (h : ns.Tree) {n : ℕ} {node : Node} (hx : ns.nodes.lookup x = some node)
    (hd : Depth ns.up x n) : (ns.pathOf x).isSome = true ↔ n < maxDepth :=
  isSome_pathFrom hd (fun y p hp ↦ (h.parent y p hp).imp fun _ h ↦ h.1) hx maxDepth []

/-! ## What is shown, and said to be gone -/

theorem shown_of_not_lookup (h : ns.nodes.lookup k.1 = none) : ns.shown k = none := by
  rw [shown, h]
  rfl

/-- What is shown is shown of a node, in its kind. -/
theorem exists_of_shown (h : (ns.shown k).isSome = true) :
    ∃ node path, ns.nodes.lookup k.1 = some node ∧ node.kind.tag = k.2
      ∧ ns.pathOf k.1 = some path ∧ ns.shown k = node.kind.entryAt path := by
  rw [shown] at h
  cases hnode : ns.nodes.lookup k.1 with
  | none =>
    rw [hnode] at h
    cases h
  | some node =>
    rw [hnode, Option.bind_some] at h
    split at h
    · rename_i htag
      cases hpath : ns.pathOf k.1 with
      | none =>
        rw [hpath] at h
        cases h
      | some path =>
        refine ⟨node, path, rfl, htag, rfl, ?_⟩
        rw [shown, hnode, Option.bind_some, if_pos htag, hpath]
        rfl
    · cases h

/-- What a node says is there is what is shown of it. -/
theorem mem_present {c : Change} (hc : c ∈ ns.present x) :
    c.key.1 = x ∧ c.entry.isSome = true ∧ c.entry = ns.shown c.key := by
  rw [present] at hc
  split at hc
  · cases hc
  · rename_i node hnode
    split at hc
    · rename_i size ctag hkind
      obtain ⟨path, hpath, rfl⟩ := List.mem_map.mp hc
      rw [Option.mem_toList] at hpath
      refine ⟨rfl, rfl, ?_⟩
      simp [shown, Change.key, Change.entry, hnode, hkind, hpath, Kind.tag, Kind.entryAt]
    · rename_i etag hkind
      obtain ⟨path, hpath, rfl⟩ := List.mem_map.mp hc
      rw [Option.mem_toList] at hpath
      refine ⟨rfl, rfl, ?_⟩
      simp [shown, Change.key, Change.entry, hnode, hkind, hpath, Kind.tag, Kind.entryAt]
    · cases hc

/-- Everything that is shown of a node, the node says. -/
theorem exists_mem_present (h : (ns.shown k).isSome = true) : ∃ c ∈ ns.present k.1, c.key = k := by
  obtain ⟨node, path, hnode, htag, hpath, hshown⟩ := exists_of_shown h
  rw [present, hnode]
  dsimp only
  rw [hshown] at h
  cases hkind : node.kind with
  | file size ctag =>
    rw [hkind] at htag
    refine ⟨.upserted k.1 path size ctag, ?_, Prod.ext rfl htag⟩
    simp [hpath]
  | folder etag =>
    rw [hkind] at htag
    refine ⟨.folderUpserted k.1 path etag, ?_, Prod.ext rfl htag⟩
    simp [hpath]
  | opaq =>
    rw [hkind] at h
    cases h

/-- What a node says is gone is of its kind. -/
theorem mem_gone {c : Change} (hc : c ∈ ns.gone x) : c.key.1 = x ∧ c.entry = none := by
  rw [gone] at hc
  split at hc
  · cases hc
  · split at hc
    · cases List.mem_singleton.mp hc
      exact ⟨rfl, rfl⟩
    · obtain ⟨path, -, rfl⟩ := List.mem_map.mp hc
      exact ⟨rfl, rfl⟩
    · cases hc

/-- Everything that is shown of a node, it says is gone when it goes. -/
theorem exists_mem_gone (h : (ns.shown k).isSome = true) : ∃ c ∈ ns.gone k.1, c.key = k := by
  obtain ⟨node, path, hnode, htag, hpath, hshown⟩ := exists_of_shown h
  rw [gone, hnode]
  dsimp only
  rw [hshown] at h
  cases hkind : node.kind with
  | file size ctag =>
    rw [hkind] at htag
    exact ⟨.removed k.1, List.mem_singleton.mpr rfl, Prod.ext rfl htag⟩
  | folder etag =>
    rw [hkind] at htag
    refine ⟨.folderRemoved k.1 path, ?_, Prod.ext rfl htag⟩
    simp [hpath]
  | opaq =>
    rw [hkind] at h
    cases h

/-- **Saying what is there** puts what is shown in the place of what was. -/
theorem fold_present (m : Mirror) (xs : List String) : Change.fold m (xs.flatMap ns.present) k
    = if k.1 ∈ xs ∧ (ns.shown k).isSome = true then ns.shown k else m k := by
  split
  · rename_i h
    obtain ⟨c, hc, hkey⟩ := exists_mem_present h.2
    refine Updates.foldl_write_of_forall ⟨c, List.mem_flatMap.mpr ⟨k.1, h.1, hc⟩, hkey⟩ ?_
    intro d hd hdkey
    obtain ⟨x, -, hdx⟩ := List.mem_flatMap.mp hd
    rw [← hdkey]
    exact (mem_present hdx).2.2
  · rename_i h
    refine Updates.foldl_write_of_absent fun c hc hkey ↦ h ?_
    obtain ⟨x, hx, hcx⟩ := List.mem_flatMap.mp hc
    obtain ⟨hid, hsome, hentry⟩ := mem_present hcx
    rw [← hkey, ← hentry, hid]
    exact ⟨hx, hsome⟩

/-- **Saying what is gone** takes away what was shown. -/
theorem fold_gone (xs : List String) : Change.fold ns.shown (xs.flatMap ns.gone) k
    = if k.1 ∈ xs then none else ns.shown k := by
  by_cases hex : ∃ c ∈ xs.flatMap ns.gone, c.key = k
  · have hx : k.1 ∈ xs := by
      obtain ⟨c, hc, rfl⟩ := hex
      obtain ⟨x, hx, hcx⟩ := List.mem_flatMap.mp hc
      rw [(mem_gone hcx).1]
      exact hx
    rw [if_pos hx]
    refine Updates.foldl_write_of_forall hex fun c hc _ ↦ ?_
    obtain ⟨x, -, hcx⟩ := List.mem_flatMap.mp hc
    exact (mem_gone hcx).2
  · have habsent : Change.fold ns.shown (xs.flatMap ns.gone) k = ns.shown k :=
      Updates.foldl_write_of_absent fun c hc hkey ↦ hex ⟨c, hc, hkey⟩
    rw [habsent]
    split
    · rename_i hx
      cases hshown : ns.shown k with
      | none => rfl
      | some e =>
        obtain ⟨c, hc, hkey⟩ := exists_mem_gone (show (ns.shown k).isSome = true by rw [hshown]; rfl)
        exact absurd ⟨c, List.mem_flatMap.mpr ⟨k.1, hx, hc⟩, hkey⟩ hex
    · rfl

/-! ## Without containers that are not walked into -/

/-- No node is a package, and none that waits is. -/
structure Plain (ns : Namespace) : Prop where
  nodes : ∀ x node, ns.nodes.lookup x = some node → node.kind ≠ .opaq
  waiting : ∀ u ∈ ns.waiting, u.kind ≠ .opaq

/-- The listing goes from a node to its children. -/
theorem Tree.goes_iff (h : ns.Tree) (hplain : ∀ x node, ns.nodes.lookup x = some node → node.kind ≠ .opaq)
    {p c : String} : Walk.Goes ns.children ns.isOpen p c ↔ ns.up c = some p := by
  refine ⟨fun hgoes ↦ (h.kids p c).mp hgoes.2, fun hup ↦ ⟨?_, (h.kids p c).mpr hup⟩⟩
  obtain ⟨node, hnode, -⟩ := h.parent c p hup
  rw [isOpen, hnode]
  exact decide_eq_true (hplain p node hnode)

/-- The listing of what lies at or beneath a node comes by all of it. -/
theorem Tree.mem_walk_iff (h : ns.Tree)
    (hplain : ∀ x node, ns.nodes.lookup x = some node → node.kind ≠ .opaq) :
    x ∈ Walk.walk ns.children ns.isOpen [a] ↔ Under ns.up a x := by
  have hrel : Walk.Goes ns.children ns.isOpen = Function.swap fun x y ↦ ns.up x = some y :=
    funext fun p ↦ funext fun c ↦ propext (h.goes_iff hplain)
  rw [Walk.mem_walk, hrel]
  constructor
  · rintro ⟨y, hy, hyx⟩
    cases List.mem_singleton.mp hy
    exact Relation.reflTransGen_swap.mp hyx
  · exact fun hx ↦ ⟨a, List.mem_singleton.mpr rfl, Relation.reflTransGen_swap.mpr hx⟩

/-- What is said to be there is in order as it is. -/
theorem settled_present (xs : List String) : Change.Settled (xs.flatMap ns.present) := by
  refine List.Pairwise.imp_of_mem (R := fun _ _ ↦ True) ?_ (List.pairwise_of_forall fun _ _ ↦ trivial)
  intro c d _ hd _ _ _
  obtain ⟨x, -, hdx⟩ := List.mem_flatMap.mp hd
  exact (mem_present hdx).2.1

/-- **A listing shows what there is to be shown.** -/
theorem Tree.fold_listing (h : ns.Tree)
    (hplain : ∀ x node, ns.nodes.lookup x = some node → node.kind ≠ .opaq) :
    Change.fold (fun _ ↦ none) ns.listing = ns.shown := by
  rw [listing]
  cases hroot : ns.root with
  | none =>
    -- without a root there are no nodes
    funext k
    symm
    refine shown_of_not_lookup (Option.eq_none_iff_forall_not_mem.mpr fun node hnode ↦ ?_)
    obtain ⟨r, hr, -⟩ := h.rooted k.1 node hnode
    cases hroot.symm.trans hr
  | some r =>
    rw [Option.toList_some, List.flatMap_singleton, collectTree,
      Change.fold_finalise _ (settled_present _)]
    funext k
    rw [fold_present]
    by_cases hshown : (ns.shown k).isSome = true
    · obtain ⟨node, -, hnode, -⟩ := exists_of_shown hshown
      obtain ⟨r', hr', hunder⟩ := h.rooted k.1 node hnode
      cases hroot.symm.trans hr'
      rw [if_pos ⟨(h.mem_walk_iff hplain).mpr hunder, hshown⟩]
    · rw [if_neg fun hand ↦ hshown hand.2]
      rw [Option.not_isSome_iff_eq_none] at hshown
      exact hshown.symm

/-! ## What a delete says -/

theorem Tree.shown_delete_of_under (h : ns.Tree) (hk : Under ns.up a k.1) :
    (ns.delete a).1.shown k = none := shown_of_not_lookup (h.delete_lookup_of_under hk)

theorem Tree.shown_delete_of_not_under (h : ns.Tree) (hk : ¬ Under ns.up a k.1) :
    (ns.delete a).1.shown k = ns.shown k := by
  have hlookup : ∀ y, Under ns.up y k.1 →
      (ns.delete a).1.nodes.lookup y = ns.nodes.lookup y := fun y hy ↦
    h.delete_lookup_of_not_under fun hay ↦ hk (hay.trans hy)
  have hpath : (ns.delete a).1.pathOf k.1 = ns.pathOf k.1 :=
    pathOf_congr fun y hy ↦ by rw [hlookup y hy]
  rw [shown, shown, hlookup k.1 (Under.refl ns.up k.1), hpath]

/-- **A delete says all that is gone.** -/
theorem Tree.fold_delete (h : ns.Tree) :
    Change.fold ns.shown (ns.delete a).2 = (ns.delete a).1.shown := by
  funext k
  have hout : ∃ xs : List String, (ns.delete a).2 = xs.flatMap ns.gone
      ∧ ∀ x, (ns.shown (x, k.2)).isSome = true → (x ∈ xs ↔ Under ns.up a x) := by
    rw [Namespace.delete]
    split
    · rename_i hnone
      refine ⟨[], rfl, fun x hx ↦ iff_of_false List.not_mem_nil fun hunder ↦ ?_⟩
      rw [h.eq_of_under hnone hunder, shown_of_not_lookup hnone] at hx
      cases hx
    · refine ⟨ns.collectIds a ++ [a], by simp, fun x _ ↦ ?_⟩
      rw [← h.mem_collectIds, List.mem_append, List.mem_singleton, or_comm]
  obtain ⟨xs, hxs, hmem⟩ := hout
  rw [hxs, fold_gone]
  by_cases hshown : (ns.shown k).isSome = true
  · by_cases hunder : Under ns.up a k.1
    · rw [if_pos ((hmem k.1 hshown).mpr hunder), h.shown_delete_of_under hunder]
    · rw [if_neg fun hx ↦ hunder ((hmem k.1 hshown).mp hx), h.shown_delete_of_not_under hunder]
  · have hnone : (ns.delete a).1.shown k = none := by
      by_cases hunder : Under ns.up a k.1
      · exact h.shown_delete_of_under hunder
      · rw [h.shown_delete_of_not_under hunder]
        exact Option.not_isSome_iff_eq_none.mp hshown
    rw [hnone, Option.not_isSome_iff_eq_none.mp hshown, ite_self]

/-- What a delete says is gone was there, and lay beneath the id. -/
theorem Tree.mem_delete_changes (h : ns.Tree) {c : Change} (hc : c ∈ (ns.delete a).2) :
    c.entry = none ∧ Under ns.up a c.id := by
  rw [Namespace.delete] at hc
  split at hc
  · cases hc
  · rcases List.mem_append.mp hc with hc | hc
    · obtain ⟨x, hx, hcx⟩ := List.mem_flatMap.mp hc
      obtain ⟨hid, hentry⟩ := mem_gone hcx
      rw [Change.key_fst] at hid
      exact ⟨hentry, hid ▸ h.mem_collectIds.mp (Or.inr hx)⟩
    · obtain ⟨hid, hentry⟩ := mem_gone hc
      rw [Change.key_fst] at hid
      exact ⟨hentry, hid ▸ Under.refl ns.up a⟩

/-! ## What an item that is attached says -/

/-- The item takes a node deeper than a path goes, with what lies beneath it. -/
def Sinks (ns : Namespace) (u : Upsert) : Prop :=
  ¬ ns.Reshapes u ∧ ∃ x node n k m, ns.nodes.lookup x = some node ∧ Under ns.up u.id x
    ∧ Depth ns.up x n ∧ n < maxDepth ∧ Depth ns.up u.id k ∧ Depth ns.up u.parent m
    ∧ maxDepth ≤ m + 1 + (n - k)

/-- What an item says is there, once it is attached. -/
def placed (ns : Namespace) (u : Upsert) : List Change :=
  let previous := ns.nodes.lookup u.id
  let moved := previous.any fun prev ↦ prev.parent ≠ some u.parent ∨ prev.name ≠ u.name
  let reshaped := previous.any fun prev ↦ prev.kind.tag ≠ u.kind.tag
  let metadataChanged := previous.any fun prev ↦ prev.kind ≠ u.kind
  match u.kind with
  | .file .. => (ns.attach u).1.present u.id
  | .folder _ =>
    if previous.isNone || moved || reshaped || metadataChanged then
      (ns.attach u).1.present u.id
        ++ if moved || reshaped then (ns.attach u).1.collectDescendants u.id else []
    else []
  | .opaq => []

/-- An item that is attached says first what goes, and then what is there. -/
theorem attach_snd (ns : Namespace) (u : Upsert) : (ns.attach u).2
    = (if ns.Reshapes u then (ns.delete u.id).2 else []) ++ ns.placed u := by
  have hre : ns.Reshapes u ↔ ((ns.nodes.lookup u.id).any fun prev ↦ prev.kind.tag ≠ u.kind.tag) := Iff.rfl
  rw [placed, attach_fst, attach]
  dsimp only
  simp only [hre]
  generalize (ns.nodes.lookup u.id).any (fun prev ↦ prev.kind.tag ≠ u.kind.tag) = reshaped
  cases reshaped with
  | true =>
    cases u.kind with
    | file size ctag => rfl
    | folder etag =>
      dsimp only
      split
      · exact List.append_assoc _ _ _
      · exact (List.append_nil _).symm
    | opaq => exact (List.append_nil _).symm
  | false =>
    cases u.kind with
    | file size ctag => rfl
    | folder etag =>
      dsimp only
      split <;> rfl
    | opaq => rfl

/-- A node beneath an item that stays where it is has the path it had. -/
theorem pathOf_attach_of_unmoved {u : Upsert} {prev : Node}
    (hprev : ns.nodes.lookup u.id = some prev)
    (hparent : prev.parent = some u.parent) (hname : prev.name = u.name) (hre : ¬ ns.Reshapes u) :
    (ns.attach u).1.pathOf x = ns.pathOf x := by
  have hcleared : ns.cleared u = ns := if_neg hre
  refine pathOf_congr fun y _ ↦ ?_
  by_cases hyu : y = u.id
  · subst hyu
    rw [attach_lookup_self, hprev, Option.map_some, Option.map_some, hparent, hname]
  · rw [attach_lookup_of_ne hyu, hcleared]

section Attach

variable (h : ns.Tree) {u : Upsert}
include h

/-- What is left when the old shape has gone was there, and is not what the old shape took away. -/
theorem Tree.lookup_of_cleared {node : Node} (hx : (ns.cleared u).nodes.lookup x = some node) :
    ns.nodes.lookup x = some node ∧ (ns.Reshapes u → ¬ Under ns.up u.id x) := by
  rw [Namespace.cleared] at hx
  split at hx
  · have hunder : ¬ Under ns.up u.id x := by
      intro hunder
      cases (h.delete_lookup_of_under hunder).symm.trans hx
    exact ⟨(h.delete_lookup_of_not_under hunder).symm.trans hx, fun _ ↦ hunder⟩
  · rename_i hre
    exact ⟨hx, fun h ↦ absurd h hre⟩

/-- What lies beneath a node when the old shape has gone lay beneath it before. -/
theorem Tree.under_of_cleared (hx : Under (ns.cleared u).up a x) : Under ns.up a x := by
  rw [Namespace.cleared] at hx
  split at hx
  · exact Relation.ReflTransGen.mono (fun _ _ hup ↦ (h.delete_up_eq_some.mp hup).1) _ _ hx
  · exact hx

theorem Tree.plain_attach
    (hplain : ∀ x node, ns.nodes.lookup x = some node → node.kind ≠ .opaq) (hkind : u.kind ≠ .opaq)
    {node : Node} (hx : (ns.attach u).1.nodes.lookup x = some node) : node.kind ≠ .opaq := by
  by_cases hxu : x = u.id
  · subst hxu
    cases attach_lookup_self.symm.trans hx
    exact hkind
  · rw [attach_lookup_of_ne hxu] at hx
    exact hplain x node (h.lookup_of_cleared hx).1

variable (hfits : ns.Fits u)
include hfits

/-- What lies beneath an item that is attached lay beneath it before, once the old shape has gone.
-/
theorem Tree.attach_under_self :
    Under (ns.attach u).1.up u.id x ↔ Under (ns.cleared u).up u.id x := by
  cases hx : (ns.cleared u).nodes.lookup x with
  | some node =>
    obtain ⟨n, hn⟩ := (h.cleared (u := u)).exists_depth hx
    exact under_move_self attach_up_self (fun _ ↦ attach_up_of_ne) (h.cleared_apart hfits) hn
  | none =>
    by_cases hxu : x = u.id
    · subst hxu
      exact iff_of_true (Under.refl _ _) (Under.refl _ _)
    · have hup : (ns.cleared u).up x = none := up_of_not_lookup hx
      have hup' : (ns.attach u).1.up x = none := (attach_up_of_ne hxu).trans hup
      refine iff_of_false (fun hunder ↦ ?_) fun hunder ↦ ?_
      · rcases hunder.cases with heq | ⟨p, hp, -⟩
        · exact hxu heq
        · cases hup'.symm.trans hp
      · rcases hunder.cases with heq | ⟨p, hp, -⟩
        · exact hxu heq
        · cases hup.symm.trans hp

/-- What does not lie beneath it is shown as before. -/
theorem Tree.shown_attach_of_not_under (hk : ¬ Under (ns.attach u).1.up u.id k.1) :
    (ns.attach u).1.shown k = (ns.cleared u).shown k := by
  have hne : ∀ y, Under (ns.cleared u).up y k.1 → y ≠ u.id := by
    rintro y hy rfl
    exact hk ((h.attach_under_self hfits).mpr hy)
  have hlookup : ∀ y, Under (ns.cleared u).up y k.1 →
      (ns.attach u).1.nodes.lookup y = (ns.cleared u).nodes.lookup y :=
    fun y hy ↦ attach_lookup_of_ne (hne y hy)
  have hpath : (ns.attach u).1.pathOf k.1 = (ns.cleared u).pathOf k.1 :=
    pathOf_congr fun y hy ↦ by rw [hlookup y hy]
  rw [shown, shown, hlookup k.1 (Under.refl _ k.1), hpath]

/-- What lies beneath an item that does not sink keeps having a path. -/
theorem Tree.isSome_pathOf_attach (hsinks : ¬ ns.Sinks u) (hre : ¬ ns.Reshapes u) {node : Node}
    (hx : ns.nodes.lookup x = some node) (hunder : Under ns.up u.id x)
    (hpath : (ns.pathOf x).isSome = true) : ((ns.attach u).1.pathOf x).isSome = true := by
  have hcleared : ns.cleared u = ns := if_neg hre
  obtain ⟨n, hn⟩ := h.exists_depth hx
  obtain ⟨unode, hunode⟩ := h.node_of_above hx hunder
  obtain ⟨k, hk⟩ := h.exists_depth hunode
  obtain ⟨pnode, hpnode, -⟩ := hfits.parent
  obtain ⟨m, hm⟩ := h.exists_depth hpnode
  have hn' : n < maxDepth := (h.isSome_pathOf hx hn).mp hpath
  have hmove : Depth (ns.attach u).1.up x (m + 1 + (n - k)) :=
    depth_move attach_up_self (fun y hy ↦ by rw [attach_up_of_ne hy, hcleared]) hfits.apart hn hunder
      hk hm
  have hnode : ∃ node', (ns.attach u).1.nodes.lookup x = some node' := by
    by_cases hxu : x = u.id
    · subst hxu
      exact ⟨_, attach_lookup_self⟩
    · exact ⟨node, (attach_lookup_of_ne hxu).trans (by rw [hcleared, hx])⟩
  obtain ⟨node', hnode'⟩ := hnode
  refine ((h.attach hfits).isSome_pathOf hnode' hmove).mpr ?_
  by_contra hdeep
  exact hsinks ⟨hre, x, node, n, k, m, hx, hunder, hn, hn', hk, hm, not_lt.mp hdeep⟩

/-- **What an item says is there** is itself, and what lies beneath it unless that is shown as it
was. -/
theorem Tree.exists_placed
    (hplain : ∀ x node, ns.nodes.lookup x = some node → node.kind ≠ .opaq) (hkind : u.kind ≠ .opaq) :
    ∃ xs : List String, ns.placed u = xs.flatMap (ns.attach u).1.present
      ∧ (∀ x ∈ xs, Under (ns.attach u).1.up u.id x)
      ∧ ∀ k : String × KindTag, Under (ns.attach u).1.up u.id k.1 → k.1 ∉ xs →
        (ns.attach u).1.shown k = (ns.cleared u).shown k := by
  have htree := h.attach hfits
  have hplain' : ∀ x node, (ns.attach u).1.nodes.lookup x = some node → node.kind ≠ .opaq :=
    fun x node ↦ h.plain_attach hplain hkind
  have hself : ∀ x ∈ [u.id], Under (ns.attach u).1.up u.id x := by
    rintro x hx
    rw [List.mem_singleton.mp hx]
    exact Under.refl _ _
  -- what lies strictly beneath the item
  have hbelow : ∀ x, Under (ns.attach u).1.up u.id x → x ≠ u.id →
      x ∈ ((ns.attach u).1.kids u.id).flatMap fun kid ↦
        Walk.walk (ns.attach u).1.children (ns.attach u).1.isOpen [kid] := by
    intro x hx hne
    rcases Relation.ReflTransGen.cases_tail hx with rfl | ⟨kid, hkx, hkid⟩
    · exact absurd rfl hne
    · exact List.mem_flatMap.mpr ⟨kid, (htree.kids _ _).mpr hkid, (htree.mem_walk_iff hplain').mpr hkx⟩
  rw [placed]
  split
  · rename_i size ctag hfile
    refine ⟨[u.id], by simp, hself, fun k hk hnot ↦ ?_⟩
    -- nothing lies beneath a file
    rcases Relation.ReflTransGen.cases_tail hk with heq | ⟨kid, -, hkid⟩
    · exact absurd (List.mem_singleton.mpr heq.symm) hnot
    · obtain ⟨node, hnode, hne⟩ := htree.parent kid u.id hkid
      cases attach_lookup_self.symm.trans hnode
      rw [hfile] at hne
      exact absurd rfl hne
  · split
    · split
      · refine ⟨u.id :: ((ns.attach u).1.kids u.id).flatMap fun kid ↦
          Walk.walk (ns.attach u).1.children (ns.attach u).1.isOpen [kid], ?_, ?_, ?_⟩
        · rw [List.flatMap_cons, List.flatMap_assoc]
          rfl
        · intro x hx
          rcases List.mem_cons.mp hx with rfl | hx
          · exact Under.refl _ _
          · obtain ⟨kid, hkid, hx⟩ := List.mem_flatMap.mp hx
            exact Relation.ReflTransGen.tail ((htree.mem_walk_iff hplain').mp hx)
              ((htree.kids _ _).mp hkid)
        · intro k hk hnot
          refine absurd ?_ hnot
          by_cases hku : k.1 = u.id
          · rw [hku]
            exact List.mem_cons_self
          · exact List.mem_cons_of_mem _ (hbelow k.1 hk hku)
      · rename_i hstays
        refine ⟨[u.id], by simp, hself, fun k hk hnot ↦ ?_⟩
        have hku : k.1 ≠ u.id := fun heq ↦ hnot (List.mem_singleton.mpr heq)
        have hre : ¬ ns.Reshapes u := fun hre ↦ hstays (by rw [Bool.or_eq_true]; exact Or.inr hre)
        have hcleared : ns.cleared u = ns := if_neg hre
        cases hprev : ns.nodes.lookup u.id with
        | none =>
          have hunder := (h.attach_under_self hfits).mp hk
          rw [hcleared] at hunder
          exact absurd (h.eq_of_under hprev hunder) hku
        | some prev =>
          rw [hprev] at hstays
          simp only [Option.any_some, Bool.or_eq_true, decide_eq_true_eq, not_or, not_not] at hstays
          have hpath := pathOf_attach_of_unmoved (x := k.1) hprev hstays.1.1 hstays.1.2 hre
          rw [shown, shown, hpath, attach_lookup_of_ne hku, hcleared]
    · rename_i hsame
      refine ⟨[], rfl, fun x hx ↦ absurd hx List.not_mem_nil, fun k hk hnot ↦ ?_⟩
      cases hprev : ns.nodes.lookup u.id with
      | none =>
        rw [hprev] at hsame
        exact absurd rfl hsame
      | some prev =>
        rw [hprev] at hsame
        simp only [Option.isNone_some, Option.any_some, Bool.or_eq_true, decide_eq_true_eq, not_or,
          not_not] at hsame
        obtain ⟨⟨⟨-, hparent, hname⟩, htag⟩, hsamekind⟩ := hsame
        have hre : ¬ ns.Reshapes u := by
          rw [reshapes_iff]
          rintro ⟨prev', hprev', hne⟩
          cases hprev.symm.trans hprev'
          exact hne htag
        have hcleared : ns.cleared u = ns := if_neg hre
        have hlookup : (ns.attach u).1.nodes.lookup k.1 = ns.nodes.lookup k.1 := by
          by_cases hku : k.1 = u.id
          · rw [hku, attach_lookup_self, hprev, ← hparent, ← hname, ← hsamekind]
          · rw [attach_lookup_of_ne hku, hcleared]
        rw [shown, shown, pathOf_attach_of_unmoved hprev hparent hname hre, hlookup, hcleared]
  · rename_i hopaq
    exact absurd hopaq hkind

/-- What an item says is there is what is shown once it is attached, unless it sinks. -/
theorem Tree.fold_placed
    (hplain : ∀ x node, ns.nodes.lookup x = some node → node.kind ≠ .opaq) (hkind : u.kind ≠ .opaq)
    (hsinks : ¬ ns.Sinks u) :
    Change.fold (ns.cleared u).shown (ns.placed u) = (ns.attach u).1.shown := by
  obtain ⟨xs, hxs, hunder, hothers⟩ := h.exists_placed hfits hplain hkind
  funext k
  rw [hxs, fold_present]
  split
  · rfl
  · rename_i hnot
    by_cases hk : Under (ns.attach u).1.up u.id k.1
    · by_cases hx : k.1 ∈ xs
      · -- what is not shown now was not shown before
        have hnone := Option.not_isSome_iff_eq_none.mp fun hsome ↦ hnot ⟨hx, hsome⟩
        rw [hnone]
        by_contra hshown
        obtain ⟨node, path, hnode, htag, hpath, -⟩ :=
          exists_of_shown (Option.isSome_iff_ne_none.mpr hshown)
        obtain ⟨hnode', hgone⟩ := h.lookup_of_cleared hnode
        have hre : ¬ ns.Reshapes u := by
          intro hre
          have hcleared : (ns.cleared u).nodes.lookup u.id = none := by
            rw [h.cleared_lookup_self, if_pos hre]
          have heq := (h.cleared (u := u)).eq_of_under hcleared ((h.attach_under_self hfits).mp hk)
          rw [heq, hcleared] at hnode
          cases hnode
        have hcleared : ns.cleared u = ns := if_neg hre
        have hunder' := (h.attach_under_self hfits).mp hk
        rw [hcleared] at hunder' hpath
        obtain ⟨path', hpath'⟩ := Option.isSome_iff_exists.mp
          (h.isSome_pathOf_attach hfits hsinks hre hnode' hunder' (Option.isSome_iff_exists.mpr ⟨path, hpath⟩))
        have hnew : ∃ node', (ns.attach u).1.nodes.lookup k.1 = some node' ∧ node'.kind.tag = k.2 := by
          by_cases hku : k.1 = u.id
          · refine ⟨_, hku ▸ attach_lookup_self, ?_⟩
            by_contra hne
            refine hre (reshapes_iff.mpr ⟨node, hku ▸ hnode', fun heq ↦ hne (heq.symm.trans htag)⟩)
          · exact ⟨node, (attach_lookup_of_ne hku).trans hnode, htag⟩
        obtain ⟨node', hlookup, htag'⟩ := hnew
        rw [shown, hlookup, Option.bind_some, if_pos htag', hpath', Option.bind_some] at hnone
        have hopaq := h.plain_attach hplain hkind hlookup
        cases hnk : node'.kind with
        | file size ctag =>
          rw [hnk] at hnone
          cases hnone
        | folder etag =>
          rw [hnk] at hnone
          cases hnone
        | opaq => exact hopaq hnk
      · exact (hothers k hk hx).symm
    · exact (h.shown_attach_of_not_under hfits hk).symm

/-- **An item that is attached says all that it changes**, unless it sinks. -/
theorem Tree.fold_attach
    (hplain : ∀ x node, ns.nodes.lookup x = some node → node.kind ≠ .opaq) (hkind : u.kind ≠ .opaq)
    (hsinks : ¬ ns.Sinks u) : Change.fold ns.shown (ns.attach u).2 = (ns.attach u).1.shown := by
  rw [attach_snd, Change.fold_append, ← h.fold_placed hfits hplain hkind hsinks]
  congr 1
  rw [Namespace.cleared]
  split
  · exact h.fold_delete
  · rfl

end Attach

/-! ## What a run says -/

theorem shown_congr (h : ∀ x, ns'.nodes.lookup x = ns.nodes.lookup x) : ns'.shown = ns.shown := by
  funext k
  have hpath : ns'.pathOf k.1 = ns.pathOf k.1 := pathOf_congr fun y _ ↦ by rw [h]
  rw [shown, shown, h, hpath]

/-- The root is shown with the empty path. -/
theorem shown_root (h : ns.nodes.lookup x = some ⟨none, "", .folder none⟩) :
    ns.shown (x, .folder) = some ⟨"", 0, none⟩ := by
  have hpath : ns.pathOf x = some "" := by
    rw [pathOf, maxDepth, pathFrom, h]
    rfl
  simp [shown, h, hpath, Kind.tag, Kind.entryAt]

/-- The root says it is there. -/
theorem Tree.fold_root (h : ns.Tree) {id : String} (hid : ∀ r, ns.root = some r → r = id) :
    Change.fold ns.shown [.folderUpserted id "" none]
      = ({ ns with root := some id, nodes := ns.nodes.insert id ⟨none, "", .folder none⟩ } :
          Namespace).shown := by
  have hself : (ns.nodes.insert id (⟨none, "", .folder none⟩ : Node)).lookup id
      = some ⟨none, "", .folder none⟩ := AList.lookup_insert _
  have hother : ∀ x, x ≠ id → (ns.nodes.insert id (⟨none, "", .folder none⟩ : Node)).lookup x
      = ns.nodes.lookup x := fun x hx ↦ AList.lookup_insert_ne hx
  have hwrite : ∀ k, k ≠ (id, .folder) →
      Change.fold ns.shown [.folderUpserted id "" none] k = ns.shown k :=
    fun k hk ↦ Updates.write_of_ne fun heq ↦ hk heq.symm
  have hwrote : Change.fold ns.shown [.folderUpserted id "" none] (id, .folder)
      = some ⟨"", 0, none⟩ := Change.fold_singleton_self ns.shown (.folderUpserted id "" none)
  funext k
  by_cases hk : k = (id, .folder)
  · rw [hk, hwrote, shown_root hself]
  · rw [hwrite k hk]
    by_cases hroot : ns.root = some id
    · refine (congrFun (shown_congr fun x ↦ ?_) k).symm
      by_cases hx : x = id
      · rw [hx]
        exact hself.trans (h.top id hroot).symm
      · exact hother x hx
    · have hnone := h.lookup_of_no_root (root_eq_none hid hroot)
      rw [shown_of_not_lookup (hnone k.1)]
      symm
      by_cases hkid : k.1 = id
      · rw [shown, hkid]
        dsimp only
        rw [hself, Option.bind_some, if_neg fun htag ↦ hk (Prod.ext hkid htag.symm)]
      · exact shown_of_not_lookup ((hother k.1 hkid).trans (hnone k.1))

/-- **Every item says all that it changes**, unless it is attached and sinks. -/
theorem Tree.fold_applyOne (h : ns.Tree) (hplain : ns.Plain) {item : Item} (hitem : item.Plain)
    (hsinks : ∀ u, item = .upsert u → ns.refusal u = none → ns.Fits u → ¬ ns.Sinks u) :
    Change.fold ns.shown (ns.applyOne item).2.2 = (ns.applyOne item).1.shown := by
  have hout := ns.applyOne_outcome item
  generalize ns.applyOne item = r at hout
  cases hout with
  | foreign id r _ _ => exact Eq.symm (shown_congr fun _ ↦ rfl)
  | root id hid => exact h.fold_root hid
  | refused u why _ => exact Eq.symm (shown_congr fun _ ↦ rfl)
  | held u _ _ => exact Eq.symm (shown_congr fun _ ↦ rfl)
  | attached u hrefusal hfits =>
    exact h.fold_attach hfits hplain.nodes hitem (hsinks u rfl hrefusal hfits)
  | deleted id => exact h.fold_delete

end Namespace

end HydrationAPI.Client
