import HydrationAPI.Client.Announced
import HydrationAPI.Graph.Resume
import HydrationAPI.Graph.Tombstone

/-!
# What a round says has gone

The batch of a round is the listing of the tree it has come to, and the removals, which no listing
can express. They come by two ways. The namespace answers an item with what has gone with it, and
the round keeps what was answered last of every object; and a tree that was listed from nothing is
compared with the one that is stored, by ids.

Neither way goes by what the trees list. An object whose removal is kept has been left alone since;
one that takes another shape and is reported once more has not, and nor has one that comes to lie
beneath a package. And an id that is still there is not looked at again, whatever it is the id of.
-/

namespace HydrationAPI.Client

namespace Change

variable {changes : List Change} {k : String × KindTag}

/-- The object is said to be there, as what it is. -/
def Lists (changes : List Change) (k : String × KindTag) : Prop :=
  ∃ c ∈ changes, c.key = k ∧ c.entry.isSome = true

/-- The object is said to be gone, as what it was. -/
def Takes (changes : List Change) (k : String × KindTag) : Prop :=
  ∃ c ∈ changes, c.key = k ∧ c.entry = none

instance : Decidable (Lists changes k) := inferInstanceAs (Decidable (∃ c ∈ changes, _))

instance : Decidable (Takes changes k) := inferInstanceAs (Decidable (∃ c ∈ changes, _))

end Change

namespace Namespace

variable {ns : Namespace} {it : Item} {items first last : List Item} {k : String × KindTag}

/-- The answer to `it` takes the object away, and no item after it is answered with anything about
the object. -/
def Farewell (ns : Namespace) (first : List Item) (it : Item) (last : List Item)
    (k : String × KindTag) : Prop :=
  Change.Takes ((ns.applyAll first).apply it).2 k
    ∧ ∀ c ∈ changesOf ((ns.applyAll first).apply it).1 last, c.id ≠ k.1

theorem Tree.lists_iff (h : ns.Tree) :
    Change.Lists ns.listing k ↔ ¬ ns.Hidden k.1 ∧ (ns.shown k).isSome = true := by
  constructor
  · rintro ⟨c, hc, rfl, hsome⟩
    obtain ⟨hseen, hshown⟩ := h.mem_listing hc
    rw [Change.key_fst]
    exact ⟨hseen, hshown ▸ hsome⟩
  · rintro ⟨hseen, hshown⟩
    obtain ⟨c, hc, hkey, hentry⟩ := h.exists_mem_listing hseen hshown
    exact ⟨c, hc, hkey, hentry ▸ hshown⟩

/-- Whatever a listing says is there. -/
theorem isSome_of_mem_listing {c : Change} (hc : c ∈ ns.listing) : c.entry.isSome = true := by
  obtain ⟨r, -, hcr⟩ := List.mem_flatMap.mp (Change.mem_finalise_of_mem hc)
  obtain ⟨x, -, hcx⟩ := List.mem_flatMap.mp hcr
  exact (mem_present hcx).2.1

/-- What is listed is visible. -/
theorem Tree.visible_of_lists (h : ns.Tree) (hk : Change.Lists ns.listing k) : ns.Visible k.1 := by
  obtain ⟨hseen, hshown⟩ := h.lists_iff.mp hk
  exact ⟨exists_not_opaq_of_shown hshown, hseen⟩

/-! ## The empty path -/

theorem pathFrom_ne_empty (h : ns.Named) {n : ℕ} {x path : String} {parts : List String}
    (hpath : ns.pathFrom n x parts = some path) (hparts : parts ≠ []) (hne : ∀ p ∈ parts, p ≠ "") :
    path ≠ "" := by
  induction n generalizing x parts with
  | zero => cases hpath
  | succ n ih =>
    rw [pathFrom] at hpath
    split at hpath
    · cases hpath
    · rename_i node hnode
      split at hpath
      · obtain rfl := Option.some_inj.mp hpath
        obtain ⟨first, rest, rfl⟩ := List.exists_cons_of_ne_nil hparts
        have hfirst := hne first List.mem_cons_self
        rw [← String.toList_inj.ne] at hfirst ⊢
        by_cases hrest : rest = []
        · rwa [hrest, String.intercalate_singleton]
        · rw [String.intercalate_cons_of_ne_nil hrest, String.toList_append, String.toList_append]
          exact List.append_ne_nil_of_left_ne_nil (List.append_ne_nil_of_left_ne_nil hfirst _) _
      · rename_i parent hparent
        refine ih hpath (List.cons_ne_nil _ _) fun p hp ↦ ?_
        rcases List.mem_cons.mp hp with rfl | hp
        · have hname := h x node hnode (hparent ▸ Option.some_ne_none parent)
          rintro hempty
          rw [badName, if_pos hempty] at hname
          cases hname
        · exact hne p hp

/-- **Only the root has the empty path.** -/
theorem Sound.path_eq_empty_iff (h : ns.Sound) {x path : String} (hpath : ns.pathOf x = some path) :
    path = "" ↔ ns.root = some x := by
  rw [pathOf, maxDepth, pathFrom] at hpath
  split at hpath
  · cases hpath
  · rename_i node hnode
    have hup := up_of_lookup hnode
    split at hpath
    · rename_i hparent
      obtain rfl := Option.some_inj.mp hpath
      obtain ⟨r, hr, hunder⟩ := h.tree.rooted x node hnode
      refine iff_of_true rfl ?_
      rcases hunder.cases with rfl | ⟨p, hp, -⟩
      · exact hr
      · cases (hup.trans hparent).symm.trans hp
    · rename_i parent hparent
      refine iff_of_false ?_ fun hroot ↦ ?_
      · refine pathFrom_ne_empty h.named hpath (List.cons_ne_nil _ _) fun p hp ↦ ?_
        rw [List.mem_singleton.mp hp]
        intro hempty
        have hname := h.named x node hnode (hparent ▸ Option.some_ne_none parent)
        rw [badName, if_pos hempty] at hname
        cases hname
      · cases (h.tree.up_root hroot).symm.trans (hup.trans hparent)

theorem Sound.restore (items : List Item) : (Namespace.restore items).Sound :=
  have h : (Namespace.new.applyAll items).Sound := Sound.new.applyAll items
  ⟨Tree.restore items, h.unmet, h.named, h.inOrder⟩

/-- A snapshot has the ids of all nodes, and no others. -/
theorem Tree.mem_snapshot_ids (h : ns.Tree) {x : String} :
    x ∈ ns.snapshot.map Item.id ↔ ∃ node, ns.nodes.lookup x = some node := by
  rw [snapshot]
  cases hroot : ns.root with
  | none =>
    refine iff_of_false List.not_mem_nil ?_
    rintro ⟨node, hnode⟩
    cases (h.lookup_of_no_root hroot x).symm.trans hnode
  | some r =>
    dsimp only
    rw [List.map_cons, List.mem_cons, List.map_map, List.mem_map]
    constructor
    · rintro (rfl | ⟨u, hu, rfl⟩)
      · exact ⟨_, h.top _ hroot⟩
      · exact ⟨_, h.describes_of_mem hu⟩
    · rintro ⟨node, hnode⟩
      obtain ⟨r', hr', hunder⟩ := h.rooted x node hnode
      cases hroot.symm.trans hr'
      by_cases hne : x = r
      · exact Or.inl hne
      · exact Or.inr (h.exists_mem_snapshotFrom hunder hne)

end Namespace

end HydrationAPI.Client

namespace HydrationAPI.Graph

open HydrationAPI.Client (Change KindTag Namespace)
open HydrationAPI.Client.Namespace (changesOf Farewell)

namespace Round

variable {r r' : Round} {items : List Client.Item}

/-! ## What a round keeps -/

/-- What is answered last of an object is kept, and what has been recorded of it before if nothing
is answered any more. -/
theorem mem_foldl_applyItem {c : Change} :
    c ∈ (items.foldl applyItem r).changes
      ↔ (c ∈ r.changes ∧ ∀ d ∈ changesOf r.tree items, d.id ≠ c.id)
        ∨ ∃ first it last, items = first ++ it :: last
          ∧ c ∈ ((r.tree.applyAll first).apply it).2
          ∧ ∀ d ∈ changesOf ((r.tree.applyAll first).apply it).1 last, d.id ≠ c.id := by
  induction items generalizing r with
  | nil => simp [changesOf]
  | cons it items ih =>
    have hone : c ∈ (r.applyItem it).changes ↔ (c ∈ r.changes
        ∧ ∀ d ∈ (r.tree.apply it).2, d.id ≠ c.id) ∨ c ∈ (r.tree.apply it).2 := by
      simp [applyItem, retain]
    rw [List.foldl_cons, ih, hone]
    change ((_ ∨ _) ∧ ∀ d ∈ changesOf (r.tree.apply it).1 items, _) ∨ (∃ first it' last,
      items = first ++ it' :: last ∧ c ∈ (((r.tree.apply it).1.applyAll first).apply it').2
        ∧ ∀ d ∈ changesOf (((r.tree.apply it).1.applyAll first).apply it').1 last, _) ↔ _
    constructor
    · rintro (⟨⟨hc, hnow⟩ | hc, hlater⟩ | ⟨first, it', last, rfl, hc, hlater⟩)
      · refine Or.inl ⟨hc, fun d hd ↦ ?_⟩
        exact (List.mem_append.mp hd).elim (hnow d) (hlater d)
      · exact Or.inr ⟨[], it, items, rfl, hc, hlater⟩
      · exact Or.inr ⟨it :: first, it', last, rfl, hc, hlater⟩
    · rintro (⟨hc, hsilent⟩ | ⟨first, it', last, hsplit, hc, hlater⟩)
      · exact Or.inl ⟨Or.inl ⟨hc, fun d hd ↦ hsilent d (List.mem_append_left _ hd)⟩,
          fun d hd ↦ hsilent d (List.mem_append_right _ hd)⟩
      · cases first with
        | nil =>
          obtain ⟨rfl, rfl⟩ := List.cons.inj hsplit
          exact Or.inl ⟨Or.inr hc, hlater⟩
        | cons other first =>
          obtain ⟨rfl, rfl⟩ := List.cons.inj hsplit
          exact Or.inr ⟨first, it', last, rfl, hc, hlater⟩

/-- What is recorded goes by the tree and by what has been recorded alone. -/
theorem foldl_applyItem_congr (htree : r'.tree = r.tree) (hchanges : r'.changes = r.changes) :
    (items.foldl applyItem r').changes = (items.foldl applyItem r).changes := by
  induction items generalizing r r' with
  | nil => exact hchanges
  | cons it items ih =>
    refine ih ?_ ?_
    · rw [applyItem, applyItem, htree]
    · rw [applyItem, applyItem, htree, hchanges]

theorem feed_changes (r : Round) (scope : DriveScope) (page : DeltaPage) :
    (r.feed scope page).changes = ((r.pageItems scope page).foldl applyItem r).changes := by
  rw [feed_eq]
  exact foldl_applyItem_congr filed_tree filed_changes

theorem run_changes (r : Round) (feeds : List (DriveScope × DeltaPage)) :
    (r.run feeds).changes = ((itemsOf r feeds).foldl applyItem r).changes := by
  induction feeds generalizing r with
  | nil => rfl
  | cons f feeds ih =>
    rw [run_cons, ih, itemsOf, List.foldl_append]
    refine foldl_applyItem_congr ?_ (r.feed_changes f.1 f.2)
    rw [feed_tree, foldl_applyItem]

/-- **What a round has recorded** is what the last item that was answered with anything about the
object was answered with. -/
theorem mem_run_changes {tags : TagSource} {ns : Namespace}
    {feeds : List (DriveScope × DeltaPage)} {c : Change} :
    c ∈ ((new tags ns).run feeds).changes ↔ ∃ first it last,
      itemsOf (new tags ns) feeds = first ++ it :: last ∧ c ∈ ((ns.applyAll first).apply it).2
        ∧ ∀ d ∈ changesOf ((ns.applyAll first).apply it).1 last, d.id ≠ c.id := by
  rw [run_changes, mem_foldl_applyItem]
  exact or_iff_right fun h ↦ List.not_mem_nil h.1

end Round

namespace GraphDiscover

variable {source : PageSource} {stored : StoredView} {enumerate force : Bool} {scope : DriveScope}
  {log : List Event} {done : Attempt} {k : String × KindTag}

/-! ## What a pass is fed -/

/-- The pages a pass is fed, with the scopes they are of. -/
def Pass.fed (source : PageSource) (stored : StoredView) (enumerate : Bool) :
    ℕ → Pass → DriveScope → Fetch → List Event → List (DriveScope × DeltaPage)
  | 0, _, _, _, _ => []
  | pages + 1, p, scope, what, log =>
    match fetch source what maxThrottleRetries log with
    | (.error _, _) => []
    | (.ok page, log) =>
      let p := p.feed stored enumerate scope page
      (scope, page) :: match page.pageEnd with
      | .done link =>
        let p := p.close scope link
        match p.queue[p.entered]? with
        | none => []
        | some scope =>
          fed source stored enumerate pages
            ({ p with entered := p.entered + 1 }.enter stored enumerate scope) scope
            (entry stored enumerate scope) log
      | .more link =>
        fed source stored enumerate pages { p with visited := link :: p.visited } scope
          (.next link) log

/-- The round of a pass has been fed these pages, from the first on. -/
def Pass.Fed (stored : StoredView) (enumerate : Bool) (p : Pass)
    (feeds : List (DriveScope × DeltaPage)) : Prop :=
  p.round = none ∧ feeds = [] ∨ ∃ tags, p.tags = some tags
    ∧ p.round = some ((Round.new tags (groundNamespace stored enumerate)).run feeds)

variable {p p' : Pass} {feeds : List (DriveScope × DeltaPage)}

theorem Pass.Fed.feed (h : p.Fed stored enumerate feeds) (scope : DriveScope) (page : DeltaPage) :
    (p.feed stored enumerate scope page).Fed stored enumerate (feeds ++ [(scope, page)]) := by
  rcases h with ⟨hnone, rfl⟩ | ⟨tags, htags, hround⟩
  · refine Or.inr ⟨(p.tags.or (probeTagSource page)).getD .cTag, ?_, ?_⟩
    · rw [Pass.feed, hnone]
    · rw [Pass.feed, hnone]
      rfl
  · refine Or.inr ⟨tags, ?_, ?_⟩
    · rw [Pass.feed, hround]
      exact htags
    · rw [Pass.feed, hround, Round.run_append]
      rfl

/-- Only what is fed changes the round. -/
theorem Pass.Fed.congr (h : p.Fed stored enumerate feeds) (hround : p'.round = p.round)
    (htags : p'.tags = p.tags) : p'.Fed stored enumerate feeds := by
  rwa [Pass.Fed, hround, htags]

theorem Pass.enter_round (p : Pass) (scope : DriveScope) :
    (p.enter stored enumerate scope).round = p.round
      ∧ (p.enter stored enumerate scope).tags = p.tags := by
  unfold Pass.enter
  split <;> exact ⟨rfl, rfl⟩

/-- **A pass that ends** has been fed its pages. -/
theorem Pass.Fed.run {pages : ℕ} {what : Fetch} {log' : List Event}
    (h : p.Fed stored enumerate feeds)
    (hrun : Pass.run source stored enumerate pages p scope what log = (.ok p', log')) :
    p'.Fed stored enumerate
      (feeds ++ Pass.fed source stored enumerate pages p scope what log) := by
  induction pages generalizing p scope what log feeds with
  | zero => cases hrun
  | succ pages ih =>
    rw [Pass.run] at hrun
    rw [Pass.fed]
    rcases hfetch : fetch source what maxThrottleRetries log with ⟨fault | page, log₁⟩
    · rw [hfetch] at hrun
      cases hrun
    rw [hfetch] at hrun
    dsimp only at hrun ⊢
    have hfed := h.feed scope page
    rw [List.append_cons]
    rcases hend : page.pageEnd with link | link
    · rw [hend] at hrun
      dsimp only at hrun ⊢
      split at hrun
      · cases hrun
      · split at hrun
        · cases hrun
        · exact ih (hfed.congr rfl rfl) hrun
    · rw [hend] at hrun
      dsimp only at hrun ⊢
      split at hrun
      · cases hrun
      set closed := (p.feed stored enumerate scope page).close scope link
      rcases hqueue : closed.queue[closed.entered]? with _ | next
      · rw [hqueue] at hrun
        have hend : closed = p' := Except.ok.inj (Prod.mk.inj hrun).1
        rw [← hend, List.append_nil]
        exact hfed.congr rfl rfl
      · rw [hqueue] at hrun
        refine ih (hfed.congr ?_ ?_) hrun
        · exact (Pass.enter_round _ next).1
        · exact (Pass.enter_round _ next).2

/-- It has been fed one at least. -/
theorem Pass.fed_ne_nil {pages : ℕ} {what : Fetch} {log' : List Event}
    (hrun : Pass.run source stored enumerate pages p scope what log = (.ok p', log')) :
    Pass.fed source stored enumerate pages p scope what log ≠ [] := by
  cases pages with
  | zero => cases hrun
  | succ pages =>
    rw [Pass.run] at hrun
    rw [Pass.fed]
    rcases hfetch : fetch source what maxThrottleRetries log with ⟨fault | page, log₁⟩
    · rw [hfetch] at hrun
      cases hrun
    · exact List.cons_ne_nil _ _

/-- The pages an attempt is fed. -/
def attemptFed (source : PageSource) (scope : DriveScope) (stored : StoredView) (force : Bool)
    (log : List Event) : List (DriveScope × DeltaPage) :=
  let enumerate := force || (stored.tokens.get scope.drive).isNone
  let p := (Pass.start stored enumerate scope).enter stored enumerate scope
  Pass.fed source stored enumerate maxPagesPerRound p scope (entry stored enumerate scope) log

/-- The items that the pages of an attempt come to. -/
def itemsFed (source : PageSource) (scope : DriveScope) (stored : StoredView) (force : Bool)
    (log : List Event) (done : Attempt) : List Client.Item :=
  Round.itemsOf (.new done.tags (groundNamespace stored done.enumerated))
    (attemptFed source scope stored force log)

/-! ## What a pass comes to -/

/-- What is listed of the stored tree and has no id in the tree that has been come to. -/
def missing (stored : StoredView) (done : Attempt) : List Change :=
  (Namespace.restore stored.items).listing.filterMap (goneFrom (done.items.map Client.Item.id))

/-- Not so much is missing that it is left to be. -/
def Undeferred (stored : StoredView) (done : Attempt) : Prop :=
  done.enumerated = true → (missing stored done).length ≤ max 64 (stored.items.length / 10)

theorem deletionsSince_eq (before : List Client.Item) (after : Namespace) :
    let gone := (Namespace.restore before).listing.filterMap
      (goneFrom (after.snapshot.map Client.Item.id))
    deletionsSince before after = if max 64 (before.length / 10) < gone.length then
      .error (.blastRadius gone.length before.length) else .ok gone := by
  dsimp only
  rw [deletionsSince, guardBlastRadius]
  split_ifs <;> rfl

/-- What a pass that completes comes to. -/
structure Concludes (stored : StoredView) (r : Round) (done : Attempt) : Prop where
  listing : done.listing = r.tree.listing
  items : done.items = r.tree.snapshot
  waiting : r.tree.waiting = []
  kept : ∀ c ∈ r.changes, isRemoval c = true → c ∈ done.removals
  removals : Undeferred stored done → ∀ c, c ∈ done.removals
    ↔ c ∈ r.changes ∧ isRemoval c = true ∨ done.enumerated = true ∧ c ∈ missing stored done

theorem mem_foldl_pushNew {removals gone : List Change} {c : Change} :
    c ∈ gone.foldl pushNew removals ↔ c ∈ removals ∨ c ∈ gone := by
  induction gone generalizing removals with
  | nil => simp
  | cons d gone ih =>
    have hone : c ∈ pushNew removals d ↔ c ∈ removals ∨ c = d := by
      rw [pushNew]
      split
      · rename_i hd
        exact (or_iff_left_of_imp fun heq ↦ heq ▸ hd).symm
      · simp
    rw [List.foldl_cons, ih, hone, List.mem_cons, or_assoc]

theorem concludes {r : Round} (hround : p.round = some r)
    (h : conclude stored enumerate p = .ok done) :
    Concludes stored r done ∧ done.enumerated = enumerate ∧ done.tags = p.tags.getD .cTag := by
  rw [conclude, hround] at h
  dsimp only [Option.getD_some] at h
  split at h
  · cases h
  · rename_i completed hfinish
    obtain ⟨-, hwaiting, -, hchanges⟩ := Round.finish_ok hfinish
    rw [hchanges] at h
    cases enumerate with
    | false =>
      cases h
      refine ⟨⟨rfl, rfl, hwaiting, fun c hc hgone ↦ List.mem_filter.mpr ⟨hc, hgone⟩,
        fun _ c ↦ ?_⟩, rfl, rfl⟩
      simp
    | true =>
      have hdiff := deletionsSince_eq stored.items r.tree
      dsimp only at hdiff
      split at hdiff
      · rename_i hlt
        rw [if_pos rfl, hdiff] at h
        cases h
        refine ⟨⟨rfl, rfl, hwaiting, fun c hc hgone ↦ List.mem_filter.mpr ⟨hc, hgone⟩,
          fun hall ↦ ?_⟩, rfl, rfl⟩
        exact absurd hlt (not_lt.mpr (hall rfl))
      · rw [if_pos rfl, hdiff] at h
        cases h
        refine ⟨⟨rfl, rfl, hwaiting, fun c hc hgone ↦ ?_, fun _ c ↦ ?_⟩, rfl, rfl⟩
        · exact mem_foldl_pushNew.mpr (Or.inl (List.mem_filter.mpr ⟨hc, hgone⟩))
        rw [mem_foldl_pushNew, List.mem_filter]
        exact or_congr_right (and_iff_right rfl).symm

/-- **An attempt that completes** is concluded from a round that has been fed its pages. -/
theorem attempt_concludes (h : (attempt source scope stored force log).1 = .ok done) :
    Concludes stored ((Round.new done.tags (groundNamespace stored done.enumerated)).run
      (attemptFed source scope stored force log)) done := by
  have henumerated := attempt_enumerated h
  unfold attempt at h
  rw [attemptFed]
  dsimp only at h ⊢
  generalize (force || (stored.tokens.get scope.drive).isNone) = enumerate at h henumerated ⊢
  subst henumerated
  split at h
  · cases h
  · rename_i p log' hrun
    have hstart : ((Pass.start stored done.enumerated scope).enter stored done.enumerated
        scope).Fed stored done.enumerated [] :=
      Pass.Fed.congr (p := Pass.start stored done.enumerated scope) (Or.inl ⟨rfl, rfl⟩)
        (Pass.enter_round _ scope).1 (Pass.enter_round _ scope).2
    rcases hstart.run hrun with ⟨-, hnil⟩ | ⟨tags, htags, hround⟩
    · exact absurd hnil (Pass.fed_ne_nil hrun)
    · obtain ⟨hconcludes, -, hdone⟩ := concludes hround h
      rw [hdone, htags]
      exact hconcludes

/-! ## What the batch says has gone -/

/-- The batch is exact: it takes away every file and every folder that the stored tree lists and
the tree of the round does not, and none that this lists. -/
structure Exact (stored : StoredView) (done : Attempt) : Prop where
  gone : ∀ k, Change.Lists (Namespace.restore stored.items).listing k →
    ¬ Change.Lists done.listing k → Change.Takes done.removals k
  kept : ∀ k, Change.Lists done.listing k → ¬ Change.Takes done.removals k

/-- What becomes of the objects while the items are applied: of what the stored tree lists and the
tree of the round does not, the last answer takes it away, or the drive was listed from nothing and
nothing has the id any more, which is not that of the stored root; and of what the tree of the round
lists the last answer does not take it away. -/
structure Parts (stored : StoredView) (enumerate : Bool) (items : List Client.Item) : Prop where
  leaves : ∀ k, Change.Lists (Namespace.restore stored.items).listing k →
    ¬ Change.Lists ((groundNamespace stored enumerate).applyAll items).listing k →
    (∃ first it last, items = first ++ it :: last
        ∧ Farewell (groundNamespace stored enumerate) first it last k)
      ∨ enumerate = true
        ∧ ((groundNamespace stored enumerate).applyAll items).nodes.lookup k.1 = none
        ∧ (Namespace.restore stored.items).root ≠ some k.1
  stays : ∀ k first it last,
    Change.Lists ((groundNamespace stored enumerate).applyAll items).listing k →
    items = first ++ it :: last → ¬ Farewell (groundNamespace stored enumerate) first it last k

theorem isRemoval_iff {c : Change} : isRemoval c = true ↔ c.entry = none := by
  cases c <;> simp [isRemoval, Change.entry]

theorem groundNamespace_tree (stored : StoredView) (enumerate : Bool) :
    (groundNamespace stored enumerate).Tree := by
  rw [groundNamespace]
  split
  · exact Client.Namespace.Tree.new
  · exact Client.Namespace.Tree.restore stored.items

/-- What has gone is what was there. -/
theorem goneFrom_spec {present : List String} {c d : Change} (h : goneFrom present c = some d) :
    d.key = c.key ∧ d.entry = none := by
  cases c with
  | upserted id path size etag =>
    rw [goneFrom] at h
    split at h <;> cases h
    exact ⟨rfl, rfl⟩
  | folderUpserted id path etag =>
    rw [goneFrom] at h
    split at h <;> cases h
    exact ⟨rfl, rfl⟩
  | removed id => exact nomatch h
  | folderRemoved id path => exact nomatch h

/-- **What is missing** is what the stored tree lists, but for its root, if no node has its id. -/
theorem takes_missing {ns : Namespace} (hns : ns.Tree) (hitems : done.items = ns.snapshot) :
    Change.Takes (missing stored done) k
      ↔ Change.Lists (Namespace.restore stored.items).listing k ∧ ns.nodes.lookup k.1 = none
        ∧ (Namespace.restore stored.items).root ≠ some k.1 := by
  have hstored : (Namespace.restore stored.items).Sound :=
    Client.Namespace.Sound.restore stored.items
  have hids : ∀ x, x ∉ done.items.map Client.Item.id ↔ ns.nodes.lookup x = none := by
    intro x
    rw [hitems, hns.mem_snapshot_ids, ← Option.isSome_iff_exists, Option.not_isSome_iff_eq_none]
  -- what a change of the listing comes to, for its own key
  have hone : ∀ c ∈ (Namespace.restore stored.items).listing,
      (∃ d, goneFrom (done.items.map Client.Item.id) c = some d)
        ↔ ns.nodes.lookup c.key.1 = none
          ∧ (Namespace.restore stored.items).root ≠ some c.key.1 := by
    intro c hc
    have hsome := Client.Namespace.isSome_of_mem_listing hc
    have hentry := (hstored.tree.mem_listing hc).2
    obtain ⟨node, path, hnode, htag, hpath, hshown⟩ :=
      Client.Namespace.exists_of_shown (hentry ▸ hsome)
    rw [hshown] at hentry
    cases c with
    | upserted id path' size etag =>
      have hroot : (Namespace.restore stored.items).root ≠ some id := by
        intro hroot
        cases (hstored.tree.top id hroot).symm.trans hnode
        cases htag
      rw [Change.key, and_iff_left hroot, ← hids, goneFrom]
      split <;> grind
    | folderUpserted id path' etag =>
      have hsame : path' = path := by
        cases hkind : node.kind with
        | file size ctag =>
          rw [hkind] at htag
          cases htag
        | folder etag' =>
          rw [hkind] at hentry
          exact congrArg Client.Listed.path (Option.some_inj.mp hentry)
        | opaq =>
          rw [hkind] at htag
          cases htag
      subst hsame
      have hempty := hstored.path_eq_empty_iff hpath
      rw [Change.key] at hempty ⊢
      rw [← hids, Ne, ← hempty, goneFrom]
      split <;> grind
    | removed id => cases hsome
    | folderRemoved id path' => cases hsome
  constructor
  · rintro ⟨d, hd, rfl, -⟩
    obtain ⟨c, hc, hcd⟩ := List.mem_filterMap.mp hd
    rw [(goneFrom_spec hcd).1]
    exact ⟨⟨c, hc, rfl, Client.Namespace.isSome_of_mem_listing hc⟩, (hone c hc).mp ⟨d, hcd⟩⟩
  · rintro ⟨⟨c, hc, rfl, -⟩, hgone⟩
    obtain ⟨d, hcd⟩ := (hone c hc).mpr hgone
    exact ⟨d, List.mem_filterMap.mpr ⟨c, hc, hcd⟩, goneFrom_spec hcd⟩

section Completed

variable (h : (attempt source scope stored force log).1 = .ok done)
include h

/-- The tree an attempt has come to is that of the items it was fed. -/
theorem attempt_listing : done.listing = ((groundNamespace stored done.enumerated).applyAll
    (itemsFed source scope stored force log done)).listing := by
  rw [(attempt_concludes h).listing, Round.run_tree]
  rfl

/-- What the last answer about an object takes away is taken away by the batch. -/
theorem takes_of_farewell {first last : List Client.Item} {it : Client.Item}
    (hsplit : itemsFed source scope stored force log done = first ++ it :: last)
    (hfarewell : Farewell (groundNamespace stored done.enumerated) first it last k) :
    Change.Takes done.removals k := by
  obtain ⟨⟨c, hc, rfl, hgone⟩, hlast⟩ := hfarewell
  refine ⟨c, (attempt_concludes h).kept c ?_ (isRemoval_iff.mpr hgone), rfl, hgone⟩
  exact Round.mem_run_changes.mpr
    ⟨first, it, last, hsplit, hc, fun d hd ↦ Change.key_fst c ▸ hlast d hd⟩

/-- **What the batch takes away**: what the last answer about it takes away, and what is missing. -/
theorem takes_removals (hall : Undeferred stored done) :
    Change.Takes done.removals k
      ↔ (∃ first it last, itemsFed source scope stored force log done = first ++ it :: last
          ∧ Farewell (groundNamespace stored done.enumerated) first it last k)
        ∨ done.enumerated = true ∧ Change.Lists (Namespace.restore stored.items).listing k
          ∧ ((groundNamespace stored done.enumerated).applyAll
            (itemsFed source scope stored force log done)).nodes.lookup k.1 = none
          ∧ (Namespace.restore stored.items).root ≠ some k.1 := by
  have hconcludes := attempt_concludes h
  have htree := (groundNamespace_tree stored done.enumerated).applyAll
    (itemsFed source scope stored force log done)
  have hitems : done.items = ((groundNamespace stored done.enumerated).applyAll
      (itemsFed source scope stored force log done)).snapshot := by
    rw [hconcludes.items, Round.run_tree]
    rfl
  rw [← takes_missing htree hitems]
  constructor
  · rintro ⟨c, hc, rfl, hgone⟩
    rcases (hconcludes.removals hall c).mp hc with ⟨hkept, -⟩ | ⟨henumerated, hc⟩
    · obtain ⟨first, it, last, hsplit, hc, hlast⟩ := Round.mem_run_changes.mp hkept
      exact Or.inl ⟨first, it, last, hsplit, ⟨c, hc, rfl, hgone⟩, fun d hd ↦
        (Change.key_fst c).symm ▸ hlast d hd⟩
    · exact Or.inr ⟨henumerated, c, hc, rfl, hgone⟩
  · rintro (⟨first, it, last, hsplit, hfarewell⟩ | ⟨henumerated, c, hc, hkey⟩)
    · exact takes_of_farewell h hsplit hfarewell
    · exact ⟨c, (hconcludes.removals hall c).mpr (Or.inr ⟨henumerated, hc⟩), hkey⟩

end Completed

/-- **The batch of a round is exact** if and only if the objects part with the tree as they
should. -/
theorem batch_exact_iff (h : (attempt source scope stored force log).1 = .ok done)
    (hall : Undeferred stored done) :
    Exact stored done ↔ Parts stored done.enumerated
      (itemsFed source scope stored force log done) := by
  have htakes (k : String × KindTag) := takes_removals (k := k) h hall
  have hlisting := attempt_listing h
  constructor
  · rintro ⟨hgone, hkept⟩
    refine ⟨fun k hlists hnot ↦ ?_, fun k first it last hlists hsplit hfarewell ↦ ?_⟩
    · rcases (htakes k).mp (hgone k hlists (hlisting ▸ hnot)) with hfarewell | ⟨he, -, hnode, hroot⟩
      · exact Or.inl hfarewell
      · exact Or.inr ⟨he, hnode, hroot⟩
    · refine hkept k (hlisting ▸ hlists) ((htakes k).mpr (Or.inl ?_))
      exact ⟨first, it, last, hsplit, hfarewell⟩
  · rintro ⟨hleaves, hstays⟩
    refine ⟨fun k hlists hnot ↦ ?_, fun k hlists htaken ↦ ?_⟩
    · rcases hleaves k hlists (hlisting ▸ hnot) with hfarewell | ⟨he, hnode, hroot⟩
      · exact (htakes k).mpr (Or.inl hfarewell)
      · exact (htakes k).mpr (Or.inr ⟨he, hlists, hnode, hroot⟩)
    · rw [hlisting] at hlists
      rcases (htakes k).mp htaken with ⟨first, it, last, hsplit, hfarewell⟩ | ⟨-, -, hnone, -⟩
      · exact hstays k first it last hlists hsplit hfarewell
      · have htree := (groundNamespace_tree stored done.enumerated).applyAll
          (itemsFed source scope stored force log done)
        obtain ⟨node, hnode, -⟩ := (htree.visible_of_lists hlists).node
        exact nomatch hnone.symm.trans hnode

/-! ### A file that becomes a folder -/

/-- A root with a file in it, and the token of the drive. -/
def partingStored : StoredView where
  items := [.root "d|r", .upsert ⟨"d|x", "d|r", "x", .file 3 (some "ct:c")⟩]
  tags := some .cTag
  mounts := []
  tokens := TokenBlob.new.set sampleDrive.drive "https://graph.microsoft.com/t"
  generation := 1

/-- A feed of two pages. -/
def twoPages (first second : List DriveItem) : PageSource := fun _ what ↦
  match what with
  | .next _ => .ok (.read (.ok ⟨second, .done "https://graph.microsoft.com/e"⟩))
  | _ => .ok (.read (.ok ⟨first, .more "https://graph.microsoft.com/n"⟩))

/-- The file is reported as a folder, and the folder under another name. -/
def changingPages : PageSource :=
  twoPages [sampleFolder "x" "r"] [{ sampleFolder "x" "r" with name := some "y" }]

/-- The file has gone, and the batch does not say so. -/
theorem batch_not_exact : ∃ done,
    (attempt changingPages sampleDrive partingStored false []).1 = .ok done
      ∧ Undeferred partingStored done ∧ ¬ Exact partingStored done := by
  have hok : (attempt changingPages sampleDrive partingStored false []).1.isOk = true := by
    decide +kernel
  have hall : (attempt changingPages sampleDrive partingStored false []).1.toOption.all
      (fun done ↦ ¬ done.enumerated ∧ ¬ Change.Lists done.listing ("d|x", .file)
        ∧ ¬ Change.Takes done.removals ("d|x", .file)) = true := by
    decide +kernel
  have hstored : Change.Lists (Namespace.restore partingStored.items).listing ("d|x", .file) := by
    decide +kernel
  cases hdone : (attempt changingPages sampleDrive partingStored false []).1 with
  | error e =>
    rw [hdone] at hok
    exact nomatch hok
  | ok done =>
    rw [hdone] at hall
    obtain ⟨hresumed, hnot, hkept⟩ := of_decide_eq_true hall
    exact ⟨done, rfl, fun henumerated ↦ absurd henumerated hresumed,
      fun hexact ↦ hkept (hexact.gone _ hstored hnot)⟩

/-- A batch is exact if it is so for what the two listings say. -/
theorem Exact.of_forall
    (hgone : ∀ c ∈ (Namespace.restore stored.items).listing, ¬ Change.Lists done.listing c.key →
      Change.Takes done.removals c.key)
    (hkept : ∀ c ∈ done.listing, ¬ Change.Takes done.removals c.key) : Exact stored done := by
  constructor
  · rintro k ⟨c, hc, rfl, -⟩ hnot
    exact hgone c hc hnot
  · rintro k ⟨c, hc, rfl, -⟩
    exact hkept c hc

/-- The file is deleted after a folder has been reported. -/
def deletingPages : PageSource := twoPages [sampleFolder "a" "r"] [sampleTombstone "x" "r"]

theorem batch_exact_sample : ∃ done,
    (attempt deletingPages sampleDrive partingStored false []).1 = .ok done
      ∧ Undeferred partingStored done ∧ Exact partingStored done
      ∧ Parts partingStored done.enumerated
        (itemsFed deletingPages sampleDrive partingStored false [] done) := by
  have hok : (attempt deletingPages sampleDrive partingStored false []).1.isOk = true := by
    decide +kernel
  have hall : (attempt deletingPages sampleDrive partingStored false []).1.toOption.all
      (fun done ↦ ¬ done.enumerated
        ∧ (∀ c ∈ (Namespace.restore partingStored.items).listing,
          ¬ Change.Lists done.listing c.key → Change.Takes done.removals c.key)
        ∧ ∀ c ∈ done.listing, ¬ Change.Takes done.removals c.key) = true := by
    decide +kernel
  cases hdone : (attempt deletingPages sampleDrive partingStored false []).1 with
  | error e =>
    rw [hdone] at hok
    exact nomatch hok
  | ok done =>
    rw [hdone] at hall
    obtain ⟨hresumed, hgone, hkept⟩ := of_decide_eq_true hall
    have hexact : Exact partingStored done := .of_forall hgone hkept
    have hundeferred : Undeferred partingStored done := fun he ↦ absurd he hresumed
    exact ⟨done, rfl, hundeferred, hexact, (batch_exact_iff hdone hundeferred).mp hexact⟩

end GraphDiscover

end HydrationAPI.Graph
