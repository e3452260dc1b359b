import HydrationAPI.Client.Packages
import HydrationAPI.Client.Reflects
import HydrationAPI.Client.Refused

/-!
# Nothing is missing

What an item places or moves it says is there, with all that comes along and is not hidden by a
package; what is neither placed nor moved stays where it was. So a file or a folder that is not
hidden is either said to be there or has been there before, as long as it has a path.

A path is built from 512 nodes at most. An item is attached beneath a node that lies 511 deep, and
a folder takes what lies beneath it along, however deep: what comes to lie 512 deep or deeper is in
the tree, and has no path.
-/

namespace HydrationAPI.Client

open Ancestry

/-! ## What is said last -/

namespace Change

/-- What the changes say to be there, of every object what they say last. -/
def said (changes : List Change) : Mirror :=
  fold (fun _ ↦ none) (changes.filter fun c ↦ c.entry.isSome)

variable {as bs : List Change} {k : String × KindTag} {e : Listed}

/-- What is said to be gone is not said to be there. -/
theorem said_append_gone (h : ∀ c ∈ bs, c.entry = none) : said (as ++ bs) = said as := by
  have hnil : bs.filter (fun c ↦ c.entry.isSome) = [] :=
    List.filter_eq_nil_iff.mpr fun c hc ↦ by simp [h c hc]
  rw [said, said, List.filter_append, hnil, List.append_nil]

/-- **What is said last is returned**, whatever else is said of the object. -/
theorem exists_mem_finalise_of_said (h : said as k = some e) :
    ∃ c ∈ finalise as, c.key = k ∧ c.entry = some e := by
  by_cases hex : ∃ c ∈ as.filter (fun c ↦ c.entry.isSome), c.key = k
  · obtain ⟨front, c, back, hsplit, hkey, hlast⟩ := Updates.exists_last hex
    rw [said, hsplit, fold,
      Updates.foldl_write_of_last hkey fun d hd hdkey ↦ absurd hdkey (hlast d hd)] at h
    obtain ⟨before, rest, rfl, -, hrest⟩ := List.filter_eq_append_iff.mp hsplit
    obtain ⟨between, after, rfl, -, hsome, hback⟩ := List.filter_eq_cons_iff.mp hrest
    refine ⟨c, ?_, hkey, h⟩
    rw [finalise, List.mem_insertionSort, ← List.append_assoc]
    refine mem_lastOnes_of_last fun d hd hsame ↦ ?_
    obtain ⟨hsamekey, hsamesome⟩ := same_iff.mp hsame
    have hdback : d ∈ back := hback ▸ List.mem_filter.mpr ⟨hd, hsamesome ▸ hsome⟩
    exact hlast d hdback (hsamekey.symm.trans hkey)
  · rw [said, fold, Updates.foldl_write_of_absent fun c hc hkey ↦ hex ⟨c, hc, hkey⟩] at h
    cases h

end Change

namespace Namespace

variable {ns ns' ns'' : Namespace} {it item : Item} {items work : List Item} {u : Upsert}
  {x p : String} {k : String × KindTag}

theorem said_append_present (out : List Change) (xs : List String) :
    Change.said (out ++ xs.flatMap ns.present) k
      = if k.1 ∈ xs ∧ (ns.shown k).isSome = true then ns.shown k else Change.said out k := by
  have hall : (xs.flatMap ns.present).filter (fun c ↦ c.entry.isSome) = xs.flatMap ns.present := by
    refine List.filter_eq_self.mpr fun c hc ↦ ?_
    obtain ⟨x, -, hcx⟩ := List.mem_flatMap.mp hc
    exact (mem_present hcx).2.1
  rw [Change.said, List.filter_append, hall, Change.fold_append, fold_present]
  rfl

/-! ## What stays -/

/-- A file or a folder that no package is above. -/
structure Visible (ns : Namespace) (x : String) : Prop where
  node : ∃ node, ns.nodes.lookup x = some node ∧ node.kind ≠ .opaq
  seen : ¬ ns.Hidden x

/-- Where a node is: its parent and its name. -/
def site (ns : Namespace) (x : String) : Option (Option String × String) :=
  (ns.nodes.lookup x).map fun node ↦ (node.parent, node.name)

/-- The node is what it was, has not been hidden, and has not been moved, with anything above it or
by itself. -/
structure Stayed (ns ns' : Namespace) (x : String) : Prop where
  node : ns'.nodes.lookup x = ns.nodes.lookup x
  site : ∀ y, Under ns'.up y x → ns'.site y = ns.site y
  seen : ¬ ns.Hidden x

theorem up_eq_site (ns : Namespace) (x : String) : ns.up x = (ns.site x).bind Prod.fst := by
  rw [up, site]
  cases ns.nodes.lookup x <;> rfl

theorem up_of_site (h : ns'.site x = ns.site x) : ns'.up x = ns.up x := by
  rw [up_eq_site, up_eq_site, h]

theorem site_of_lookup (h : ns'.nodes.lookup x = ns.nodes.lookup x) : ns'.site x = ns.site x := by
  rw [site, site, h]

/-- What is where it was, and has not lost a package above it, stays. -/
theorem Stayed.of_site (hnode : ns'.nodes.lookup x = ns.nodes.lookup x)
    (hsite : ∀ y, Under ns'.up y x → ns'.site y = ns.site y)
    (hopaq : ∀ y node, Under ns'.up y x → ns.nodes.lookup y = some node → node.kind = .opaq →
      ns'.nodes.lookup y = some node) (hopen : ¬ ns'.Hidden x) : Stayed ns ns' x := by
  have hup : ∀ y, Under ns'.up y x → ns'.up y = ns.up y := fun y hy ↦ up_of_site (hsite y hy)
  refine ⟨hnode, hsite, fun hidden ↦ hopen ?_⟩
  obtain ⟨q, hq, a, node, haq, ha, hkind⟩ := hidden
  have hq' : ns'.up x = some q := (hup x (Under.refl _ _)).trans hq
  have haq' : Under ns'.up a q := haq.carry fun y hy ↦ hup y (Under.step hq' hy)
  exact ⟨q, hq', a, node, haq', hopaq a node (Under.step hq' haq') ha hkind, hkind⟩

/-- What has the nodes above it that it had stays. -/
theorem Stayed.of_lookup (hsame : ∀ y, Under ns'.up y x → ns'.nodes.lookup y = ns.nodes.lookup y)
    (hopen : ¬ ns'.Hidden x) : Stayed ns ns' x :=
  .of_site (hsame x (Under.refl _ _)) (fun y hy ↦ site_of_lookup (hsame y hy))
    (fun y _ hy hnode _ ↦ (hsame y hy).trans hnode) hopen

theorem Stayed.trans (h : Stayed ns ns' x) (h' : Stayed ns' ns'' x) : Stayed ns ns'' x := by
  refine ⟨h'.node.trans h.node, fun y hy ↦ (h'.site y hy).trans (h.site y ?_), h.seen⟩
  exact hy.congr fun z _ hz _ ↦ (up_of_site (h'.site z hz)).symm

/-- It is shown as it was. -/
theorem Stayed.shown (h : Stayed ns ns' k.1) : ns'.shown k = ns.shown k := by
  have hpath : ns.pathOf k.1 = ns'.pathOf k.1 := pathOf_congr fun y hy ↦ (h.site y hy).symm
  rw [Namespace.shown, Namespace.shown, h.node, hpath]

/-- It was visible if it is. -/
theorem Stayed.visible (h : Stayed ns ns' x) (hx : ns'.Visible x) : ns.Visible x :=
  ⟨h.node ▸ hx.node, h.seen⟩

/-- It lies as deep as it did. -/
theorem Stayed.depth (h : Stayed ns ns' x) {n : ℕ} (hn : Depth ns.up x n) : Depth ns'.up x n :=
  hn.carry fun y hy ↦ up_of_site (h.site y hy)

/-! ## What one item says -/

/-- What is beneath something hidden is hidden. -/
theorem Hidden.below (h : ns.Hidden p) (hunder : Under ns.up p x) : ns.Hidden x := by
  rcases hunder.cases with rfl | ⟨q, hq, hpq⟩
  · exact h
  · obtain ⟨q', hq', a, node, ha, hnode, hkind⟩ := h
    exact ⟨q, hq, a, node, (Under.step hq' ha).trans hpq, hnode, hkind⟩

theorem Tree.stayed_delete (h : ns.Tree) {id : String} (hx : (ns.delete id).1.Visible x) :
    Stayed ns (ns.delete id).1 x := by
  obtain ⟨node, hnode, -⟩ := hx.node
  refine .of_lookup (fun y hy ↦ ?_) hx.seen
  -- what is above a node that is left is left
  obtain ⟨ynode, hynode⟩ := h.delete.node_of_above hnode hy
  rcases ns.delete_lookup_or id y with hnone | hsame
  · exact nomatch hnone.symm.trans hynode
  · exact hsame

section Attach

variable (h : ns.Tree) (hfits : ns.Fits u)
include h hfits

/-- What an item is attached beside stays. -/
theorem Tree.stayed_attach (hx : (ns.attach u).1.Visible x)
    (hunder : ¬ Under (ns.attach u).1.up u.id x) : Stayed ns (ns.attach u).1 x := by
  obtain ⟨node, hnode, -⟩ := hx.node
  refine .of_lookup (fun y hy ↦ ?_) hx.seen
  obtain ⟨ynode, hynode⟩ := (h.attach hfits).node_of_above hnode hy
  have hyu : y ≠ u.id := fun heq ↦ hunder (heq ▸ hy)
  rw [attach_lookup_of_ne hyu] at hynode ⊢
  exact hynode.trans (h.lookup_of_cleared hynode).1.symm

omit h hfits in
/-- What an item takes along stays if the item has not moved and is of the shape it was. -/
theorem stayed_unmoved {prev : Node} (hx : (ns.attach u).1.Visible x)
    (hprev : ns.nodes.lookup u.id = some prev) (hparent : prev.parent = some u.parent)
    (hname : prev.name = u.name) (htag : prev.kind.tag = u.kind.tag) (hkind : u.kind ≠ .opaq)
    (hself : x = u.id → prev.kind = u.kind) : Stayed ns (ns.attach u).1 x := by
  have hre : ¬ ns.Reshapes u := by
    rw [reshapes_iff]
    rintro ⟨prev', hprev', hne⟩
    rw [Option.some_inj.mp (hprev.symm.trans hprev')] at htag
    exact hne htag
  have hcleared : ns.cleared u = ns := if_neg hre
  have hothers : ∀ y, y ≠ u.id → (ns.attach u).1.nodes.lookup y = ns.nodes.lookup y := by
    intro y hy
    rw [attach_lookup_of_ne hy, hcleared]
  have hnode : (ns.attach u).1.nodes.lookup x = ns.nodes.lookup x := by
    by_cases hxu : x = u.id
    · rw [hxu, attach_lookup_self, hprev, ← hparent, ← hname, ← hself hxu]
    · exact hothers x hxu
  refine .of_site hnode (fun y _ ↦ ?_) (fun y node _ hynode hopaq ↦ ?_) hx.seen
  · by_cases hyu : y = u.id
    · subst hyu
      rw [site, site, attach_lookup_self, hprev, Option.map_some, Option.map_some, hparent, hname]
    · exact site_of_lookup (hothers y hyu)
  · by_cases hyu : y = u.id
    · subst hyu
      rw [Option.some_inj.mp (hprev.symm.trans hynode), hopaq] at htag
      exact absurd (Kind.eq_opaq_of_tag htag.symm) hkind
    · exact (hothers y hyu).trans hynode

/-- Whatever is visible beneath an item is walked through beneath its children. -/
theorem Tree.mem_walk_of_visible (hx : (ns.attach u).1.Visible x)
    (hunder : Under (ns.attach u).1.up u.id x) (hne : x ≠ u.id) :
    x ∈ ((ns.attach u).1.kids u.id).flatMap fun kid ↦
      Walk.walk (ns.attach u).1.children (ns.attach u).1.isOpen [kid] := by
  have htree := h.attach hfits
  rcases Relation.ReflTransGen.cases_tail hunder with heq | ⟨kid, hkx, hkid⟩
  · exact absurd heq.symm hne
  · refine List.mem_flatMap.mpr ⟨kid, (htree.kids _ _).mpr hkid, ?_⟩
    exact (htree.mem_open_walk_iff fun hidden ↦ hx.seen (hidden.below hkx)).mpr ⟨hkx, hx.seen⟩

/-- **What an item says** is there are the nodes at or beneath it, but for those that stay. -/
theorem Tree.exists_present :
    ∃ xs : List String, ns.placed u = xs.flatMap (ns.attach u).1.present
      ∧ ∀ x, (ns.attach u).1.Visible x → x ∈ xs ∨ Stayed ns (ns.attach u).1 x := by
  have htree := h.attach hfits
  suffices hbelow : ∃ xs : List String, ns.placed u = xs.flatMap (ns.attach u).1.present
      ∧ ∀ x, (ns.attach u).1.Visible x → Under (ns.attach u).1.up u.id x →
        x ∈ xs ∨ Stayed ns (ns.attach u).1 x by
    obtain ⟨xs, hxs, hall⟩ := hbelow
    refine ⟨xs, hxs, fun x hx ↦ ?_⟩
    by_cases hunder : Under (ns.attach u).1.up u.id x
    · exact hall x hx hunder
    · exact Or.inr (h.stayed_attach hfits hx hunder)
  rw [placed]
  split
  · rename_i size ctag hfile
    refine ⟨[u.id], by simp, fun x _ hunder ↦ Or.inl (List.mem_singleton.mpr ?_)⟩
    -- nothing lies beneath a file
    rcases Relation.ReflTransGen.cases_tail hunder with heq | ⟨kid, -, hkid⟩
    · exact heq.symm
    · obtain ⟨node, hnode, hne⟩ := htree.parent kid u.id hkid
      rw [← Option.some_inj.mp (attach_lookup_self.symm.trans hnode)] at hne
      exact absurd (congrArg Kind.tag hfile) hne
  · rename_i etag hfolder
    have hkind : u.kind ≠ .opaq := by
      rw [hfolder]
      exact Kind.noConfusion
    split
    · split
      · refine ⟨u.id :: ((ns.attach u).1.kids u.id).flatMap fun kid ↦
          Walk.walk (ns.attach u).1.children (ns.attach u).1.isOpen [kid], ?_, ?_⟩
        · rw [List.flatMap_cons, List.flatMap_assoc]
          rfl
        · intro x hx hunder
          by_cases hxu : x = u.id
          · exact Or.inl (hxu ▸ List.mem_cons_self)
          · exact Or.inl (List.mem_cons_of_mem _ (h.mem_walk_of_visible hfits hx hunder hxu))
      · rename_i hsame
        refine ⟨[u.id], by simp, fun x hx hunder ↦ ?_⟩
        by_cases hxu : x = u.id
        · exact Or.inl (List.mem_singleton.mpr hxu)
        · cases hprev : ns.nodes.lookup u.id with
          | none =>
            -- nothing lies beneath what is new
            have hre : ¬ ns.Reshapes u := by
              rw [reshapes_iff]
              rintro ⟨prev, hprev', -⟩
              exact Option.some_ne_none prev (hprev'.symm.trans hprev)
            have hunder' := (h.attach_under_self hfits).mp hunder
            rw [show ns.cleared u = ns from if_neg hre] at hunder'
            exact absurd (h.eq_of_under hprev hunder') hxu
          | some prev =>
            rw [hprev] at hsame
            simp only [Option.any_some, Bool.or_eq_true, decide_eq_true_eq, not_or,
              not_not] at hsame
            exact Or.inr (stayed_unmoved hx hprev hsame.1.1 hsame.1.2 hsame.2 hkind
              fun heq ↦ absurd heq hxu)
    · rename_i hsame
      refine ⟨[], rfl, fun x hx _ ↦ Or.inr ?_⟩
      cases hprev : ns.nodes.lookup u.id with
      | none =>
        rw [hprev] at hsame
        exact absurd rfl hsame
      | some prev =>
        rw [hprev] at hsame
        simp only [Option.isNone_some, Option.any_some, Bool.or_eq_true, decide_eq_true_eq, not_or,
          not_not] at hsame
        obtain ⟨⟨⟨-, hparent, hname⟩, htag⟩, hsamekind⟩ := hsame
        exact stayed_unmoved hx hprev hparent hname htag hkind fun _ ↦ hsamekind
  · rename_i hopaq
    refine ⟨[], rfl, fun x hx hunder ↦ ?_⟩
    -- a package is not visible, and hides what lies beneath it
    rcases hunder.cases with rfl | ⟨q, hq, hqu⟩
    · obtain ⟨node, hnode, hkind⟩ := hx.node
      rw [← Option.some_inj.mp (attach_lookup_self.symm.trans hnode)] at hkind
      exact absurd hopaq hkind
    · exact absurd ⟨q, hq, u.id, _, hqu, attach_lookup_self, hopaq⟩ hx.seen

end Attach

/-- The root itself is all that a root item places. -/
theorem Tree.stayed_root (h : ns.Tree) {id : String} (hid : ∀ r, ns.root = some r → r = id)
    (hx : ({ ns with root := some id, nodes := ns.nodes.insert id ⟨none, "", .folder none⟩ } :
      Namespace).Visible x) (hne : x ≠ id) : Stayed ns ({ ns with
        root := some id, nodes := ns.nodes.insert id ⟨none, "", .folder none⟩ } : Namespace) x := by
  obtain ⟨node, hnode, -⟩ := hx.node
  obtain ⟨r, hr, -⟩ := h.rooted x node ((AList.lookup_insert_ne hne).symm.trans hnode)
  obtain rfl := hid r hr
  refine .of_lookup (fun y _ ↦ ?_) hx.seen
  by_cases hy : y = r
  · rw [hy]
    exact (AList.lookup_insert ns.nodes).trans (h.top r hr).symm
  · exact AList.lookup_insert_ne hy

/-- **After one item** whatever is visible and shown is what has been said of it last, or stays. -/
theorem Tree.said_applyOne (h : ns.Tree) (hx : (ns.applyOne item).1.Visible k.1)
    (hshown : ((ns.applyOne item).1.shown k).isSome = true) (out : List Change) :
    Change.said (out ++ (ns.applyOne item).2.2) k = (ns.applyOne item).1.shown k
      ∨ Change.said (out ++ (ns.applyOne item).2.2) k = Change.said out k
        ∧ Stayed ns (ns.applyOne item).1 k.1 := by
  have hnothing : ∀ ns', ns'.Visible k.1 → ns'.nodes = ns.nodes →
      Change.said (out ++ []) k = ns'.shown k
        ∨ Change.said (out ++ []) k = Change.said out k ∧ Stayed ns ns' k.1 := by
    intro ns' hx hnodes
    rw [List.append_nil]
    exact Or.inr ⟨rfl, .of_lookup (fun y _ ↦ by rw [hnodes]) hx.seen⟩
  have hout := ns.applyOne_outcome item
  generalize ns.applyOne item = r at hout hx hshown
  cases hout with
  | foreign id r _ _ => exact hnothing _ hx rfl
  | refused u why _ => exact hnothing _ hx rfl
  | held u _ _ => exact hnothing _ hx rfl
  | root id hid =>
    dsimp only at hx hshown ⊢
    have hpresent : [Change.folderUpserted id "" none] = [id].flatMap ({ ns with
        root := some id, nodes := ns.nodes.insert id ⟨none, "", .folder none⟩ } :
          Namespace).present := by
      have hself : (ns.nodes.insert id (⟨none, "", .folder none⟩ : Node)).lookup id
          = some ⟨none, "", .folder none⟩ := AList.lookup_insert _
      simp [present, hself, pathOf, maxDepth, pathFrom]
    rw [hpresent, said_append_present]
    by_cases hk : k.1 = id
    · rw [if_pos ⟨List.mem_singleton.mpr hk, hshown⟩]
      exact Or.inl rfl
    · rw [if_neg fun hand ↦ hk (List.mem_singleton.mp hand.1)]
      exact Or.inr ⟨rfl, h.stayed_root hid hx hk⟩
  | deleted id =>
    dsimp only at hx ⊢
    rw [Change.said_append_gone fun c hc ↦ (h.mem_delete_changes hc).1]
    exact Or.inr ⟨rfl, h.stayed_delete hx⟩
  | attached u _ hfits =>
    dsimp only at hx hshown ⊢
    obtain ⟨xs, hxs, hall⟩ := h.exists_present hfits
    have hgone : ∀ c ∈ if ns.Reshapes u then (ns.delete u.id).2 else [], c.entry = none := by
      intro c hc
      split at hc
      · exact (h.mem_delete_changes hc).1
      · exact absurd hc List.not_mem_nil
    rw [attach_snd, hxs, ← List.append_assoc, said_append_present, Change.said_append_gone hgone]
    by_cases hk : k.1 ∈ xs
    · rw [if_pos ⟨hk, hshown⟩]
      exact Or.inl rfl
    · rw [if_neg fun hand ↦ hk hand.1]
      exact Or.inr ⟨rfl, (hall k.1 hx).resolve_left hk⟩

/-- **What an item returns**: whatever is visible and shown when it has been applied is said in its
changes, or stays. -/
theorem Tree.announced (h : ns.Tree) (hx : (ns.apply it).1.Visible k.1)
    (hshown : ((ns.apply it).1.shown k).isSome = true) :
    (∃ c ∈ (ns.apply it).2, c.key = k ∧ c.entry = (ns.apply it).1.shown k)
      ∨ Stayed ns (ns.apply it).1 k.1 := by
  have hsaid : (ns.settle [it] []).1.Tree ∧ ∀ k, (ns.settle [it] []).1.Visible k.1 →
      ((ns.settle [it] []).1.shown k).isSome = true →
      Change.said (ns.settle [it] []).2 k = (ns.settle [it] []).1.shown k
        ∨ Stayed ns (ns.settle [it] []).1 k.1 := by
    refine settle_induction (P := fun ns' _ out ↦ ns'.Tree ∧ ∀ k, ns'.Visible k.1 →
      (ns'.shown k).isSome = true → Change.said out k = ns'.shown k ∨ Stayed ns ns' k.1) ?_ ?_
    · rintro ns' item work out ⟨htree, hall⟩
      refine ⟨htree.workOff item work, fun k hx hshown ↦ ?_⟩
      rw [workOff_changes]
      -- taking up what waits leaves the nodes alone
      have hrest : Stayed (ns'.applyOne item).1 (ns'.workOff item work).1 k.1 :=
        .of_lookup (fun y _ ↦ by rw [workOff_nodes]) hx.seen
      rw [hrest.shown] at hshown ⊢
      rcases htree.said_applyOne (hrest.visible hx) hshown out with hnow | ⟨hbefore, hstays⟩
      · exact Or.inl hnow
      · rw [hstays.shown] at hshown ⊢
        rw [hbefore]
        exact (hall k ((hstays.trans hrest).visible hx) hshown).imp_right
          fun hstayed ↦ hstayed.trans (hstays.trans hrest)
    · refine ⟨h, fun k hx _ ↦ Or.inr (.of_lookup (fun _ _ ↦ rfl) hx.seen)⟩
  refine (hsaid.2 k hx hshown).imp_left fun heq ↦ ?_
  obtain ⟨e, he⟩ := Option.isSome_iff_exists.mp hshown
  obtain ⟨c, hc, hkey, hentry⟩ := Change.exists_mem_finalise_of_said (heq.trans he)
  exact ⟨c, hc, hkey, hentry.trans he.symm⟩

/-! ## How deep what is visible lies -/

/-- No package lies beneath `a` and at or above `x`. -/
def Bare (ns : Namespace) (a x : String) : Prop :=
  ∀ y node, Under ns.up a y → Under ns.up y x → y ≠ a → ns.nodes.lookup y = some node →
    node.kind ≠ .opaq

/-- The item is a file or a folder beneath a node `m` deep, no package is above it, and itself or
something visible that it takes along comes to lie too deep for a path. -/
def Overflows (ns : Namespace) (u : Upsert) (m : ℕ) : Prop :=
  Depth ns.up u.parent m ∧ u.kind ≠ .opaq ∧ ¬ ns.Covered u.parent ∧ (maxDepth ≤ m + 1
    ∨ ¬ ns.Reshapes u ∧ ∃ x n k, x ≠ u.id ∧ Under ns.up u.id x ∧ ns.Bare u.id x ∧ Depth ns.up x n
      ∧ Depth ns.up u.id k ∧ maxDepth ≤ m + 1 + (n - k))

/-- It does so beneath a node that is not too deep itself. -/
def Slips (ns : Namespace) (u : Upsert) : Prop := ∃ m < maxDepth, ns.Overflows u m

/-- Nothing visible lies too deep for a path. -/
def Within (ns : Namespace) : Prop := ∀ x, ns.Visible x → ∃ n < maxDepth, Depth ns.up x n

/-- What is attached and what it takes along lies within the bound, unless the item slips. -/
theorem Tree.within_attach (h : ns.Tree) (hrefusal : ns.refusal u = none) (hfits : ns.Fits u)
    (hslips : ¬ ns.Slips u) (hx : (ns.attach u).1.Visible x)
    (hunder : Under (ns.attach u).1.up u.id x) :
    ∃ n < maxDepth, Depth (ns.attach u).1.up x n := by
  have htree := h.attach hfits
  obtain ⟨parent, hparent, hcontainer⟩ := hfits.parent
  obtain ⟨m, hm⟩ := h.exists_depth hparent
  have hname := badName_of_refusal hrefusal
  have hlt : m < maxDepth :=
    (refusal_eq_none_iff hname hparent hcontainer hm hfits.apart).mp hrefusal
  -- the item is seen itself, since what lies beneath it is
  have hseen : ¬ (ns.attach u).1.Hidden u.id := fun hidden ↦ hx.seen (hidden.below hunder)
  have hcovered : ¬ ns.Covered u.parent := (h.hidden_attach_self hfits).not.mp hseen
  have hbare : ∀ y node, Under (ns.attach u).1.up y x → (ns.attach u).1.nodes.lookup y = some node →
      node.kind ≠ .opaq := by
    intro y node hyx hy hopaq
    rcases hyx.cases with rfl | ⟨q, hq, hyq⟩
    · obtain ⟨node', hnode', hkind⟩ := hx.node
      rw [Option.some_inj.mp (hy.symm.trans hnode')] at hopaq
      exact hkind hopaq
    · exact hx.seen ⟨q, hq, y, node, hyq, hy, hopaq⟩
  have hkind : u.kind ≠ .opaq := hbare u.id _ hunder attach_lookup_self
  have hover : ¬ ns.Overflows u m := fun hover ↦ hslips ⟨m, hlt, hover⟩
  by_cases hxu : x = u.id
  · have hdeep : m + 1 < maxDepth := by
      by_contra hdeep
      exact hover ⟨hm, hkind, hcovered, Or.inl (not_lt.mp hdeep)⟩
    have hm' : Depth (ns.attach u).1.up u.parent m := by
      refine (depth_frame (fun y hy ↦ ?_) hfits.apart).mpr hm
      have hyu : y ≠ u.id := fun heq ↦ hy (heq ▸ Under.refl _ _)
      exact (attach_up_of_ne hyu).trans (up_congr (h.cleared_lookup_of_not_under hy))
    exact ⟨m + 1, hdeep, hxu ▸ .step attach_up_self hm'⟩
  · -- what lies strictly beneath it has not gone, and has been taken along
    have hcleared_under := (h.attach_under_self hfits).mp hunder
    have hre : ¬ ns.Reshapes u := by
      intro hre
      have hnone : (ns.cleared u).nodes.lookup u.id = none := by
        rw [h.cleared_lookup_self, if_pos hre]
      exact hxu ((h.cleared (u := u)).eq_of_under hnone hcleared_under)
    have hcleared : ns.cleared u = ns := if_neg hre
    have hothers : ∀ y, y ≠ u.id → (ns.attach u).1.nodes.lookup y = ns.nodes.lookup y := by
      intro y hy
      rw [attach_lookup_of_ne hy, hcleared]
    rw [hcleared] at hcleared_under
    obtain ⟨node, hnode, -⟩ := hx.node
    rw [hothers x hxu] at hnode
    obtain ⟨n, hn⟩ := h.exists_depth hnode
    obtain ⟨unode, hunode⟩ := h.node_of_above hnode hcleared_under
    obtain ⟨k, hk⟩ := h.exists_depth hunode
    have hmove : Depth (ns.attach u).1.up x (m + 1 + (n - k)) :=
      depth_move attach_up_self (fun y hy ↦ up_congr (hothers y hy)) hfits.apart hn hcleared_under
        hk hm
    refine ⟨_, ?_, hmove⟩
    by_contra hdeep
    refine hover ⟨hm, hkind, hcovered, Or.inr ⟨hre, x, n, k, hxu, hcleared_under, ?_, hn, hk,
      not_lt.mp hdeep⟩⟩
    intro y ynode huy hyx hyu hynode
    refine hbare y ynode ?_ ((hothers y hyu).trans hynode)
    exact (under_move_of_under attach_up_self (fun z hz ↦ up_congr (hothers z hz)) hfits.apart hn
      hcleared_under).mpr (Or.inl ⟨hyx, huy⟩)

/-- **What is visible stays within the bound**, as long as no item slips. -/
theorem Within.workOff (h : ns.Within) (htree : ns.Tree)
    (hslips : ∀ u, item = .upsert u → badName u.name = none → ns.Fits u → ¬ ns.Slips u) :
    (ns.workOff item work).1.Within := by
  intro x hx
  have hrest : Stayed (ns.applyOne item).1 (ns.workOff item work).1 x :=
    .of_lookup (fun y _ ↦ by rw [workOff_nodes]) hx.seen
  suffices hone : ∃ n < maxDepth, Depth (ns.applyOne item).1.up x n by
    obtain ⟨n, hlt, hn⟩ := hone
    exact ⟨n, hlt, hrest.depth hn⟩
  have hstays : ∀ ns', Stayed ns ns' x → ns'.Visible x → ∃ n < maxDepth, Depth ns'.up x n := by
    intro ns' hstays hx
    obtain ⟨n, hlt, hn⟩ := h x (hstays.visible hx)
    exact ⟨n, hlt, hstays.depth hn⟩
  have hx := hrest.visible hx
  have hout := ns.applyOne_outcome item
  generalize ns.applyOne item = r at hout hx
  cases hout with
  | foreign id r _ _ => exact hstays _ (.of_lookup (fun _ _ ↦ rfl) hx.seen) hx
  | refused u why _ => exact hstays _ (.of_lookup (fun _ _ ↦ rfl) hx.seen) hx
  | held u _ _ => exact hstays _ (.of_lookup (fun _ _ ↦ rfl) hx.seen) hx
  | root id hid =>
    dsimp only at hx ⊢
    by_cases hxid : x = id
    · exact ⟨0, by decide, .top ((htree.root hid).up_root (congrArg some hxid.symm))⟩
    · exact hstays _ (htree.stayed_root hid hx hxid) hx
  | deleted id => exact hstays _ (htree.stayed_delete hx) hx
  | attached u hrefusal hfits =>
    dsimp only at hx ⊢
    by_cases hunder : Under (ns.attach u).1.up u.id x
    · exact htree.within_attach hrefusal hfits
        (hslips u rfl (badName_of_refusal hrefusal) hfits) hx hunder
    · exact hstays _ (htree.stayed_attach hfits hx hunder) hx

/-! ## Nothing is missing -/

/-- What overflows does not slip, if it is an item that would be attached otherwise. -/
def Fathoms (ns : Namespace) : Item → Prop
  | .upsert u => badName u.name = none → ns.Fits u → ¬ ns.Slips u
  | _ => True

/-- What overflows and does not slip is refused and recorded, and is not placed. -/
theorem refused_of_overflows {m : ℕ} {parent : Node}
    (hparent : ns.nodes.lookup u.parent = some parent) (hover : ns.Overflows u m)
    (hfathoms : ns.Fathoms (.upsert u)) :
    (ns.applyOne (.upsert u)).1.problems.lookup u.id ≠ none
      ∧ (ns.applyOne (.upsert u)).1.nodes = ns.nodes := by
  have hout := ns.applyOne_outcome (.upsert u)
  generalize ns.applyOne (.upsert u) = r at hout
  cases hout with
  | refused _ why _ => exact ⟨(ns.refuse_spec u.id why).1, rfl⟩
  | held _ _ hnone => exact nomatch hnone.symm.trans hparent
  | attached _ hrefusal hfits =>
    have hname := badName_of_refusal hrefusal
    obtain ⟨node, hnode, hcontainer⟩ := hfits.parent
    have hlt : m < maxDepth :=
      (refusal_eq_none_iff hname hnode hcontainer hover.1 hfits.apart).mp hrefusal
    exact absurd ⟨m, hlt, hover⟩ (hfathoms hname hfits)

/-- **Nothing is missing** in a run in which no item slips: what is visible has a path, is listed,
and is said to be there by the item that places or moves it; and what would lie too deep is refused
and recorded. -/
theorem none_missing (items : List Item) (item : Item)
    (hfathoms : ∀ ns' x, Course new (items ++ [item]) ns' x → ns'.Fathoms x) :
    (∀ x, ((new.applyAll items).apply item).1.Visible x →
        (((new.applyAll items).apply item).1.pathOf x).isSome = true
          ∧ (∃ c ∈ ((new.applyAll items).apply item).1.listing, c.id = x)
          ∧ ((∃ c ∈ ((new.applyAll items).apply item).2, c.id = x ∧ c.entry.isSome = true
              ∧ c.entry = ((new.applyAll items).apply item).1.shown c.key)
            ∨ Stayed (new.applyAll items) ((new.applyAll items).apply item).1 x))
      ∧ ∀ ns' u m, Course new (items ++ [item]) ns' (.upsert u) →
        (∃ parent, ns'.nodes.lookup u.parent = some parent) → ns'.Overflows u m →
        (ns'.applyOne (.upsert u)).1.problems.lookup u.id ≠ none
          ∧ (ns'.applyOne (.upsert u)).1.nodes = ns'.nodes := by
  constructor
  · intro x hx
    have hwithin : (new.applyAll (items ++ [item])).Tree
        ∧ (new.applyAll (items ++ [item])).Within := by
      refine applyAll_induction (P := fun ns' _ ↦ ns'.Tree ∧ ns'.Within) (fun _ _ _ h ↦ h) ?_
        ⟨Tree.new, fun x hx ↦ ?_⟩
      · rintro ns' it work hcourse ⟨htree, hwithin⟩
        refine ⟨htree.workOff it work, hwithin.workOff htree fun u hu ↦ ?_⟩
        subst hu
        exact hfathoms ns' _ hcourse
      · obtain ⟨node, hnode, -⟩ := hx.node
        exact nomatch hnode
    rw [applyAll_append, applyAll_cons, applyAll_nil] at hwithin
    obtain ⟨node, hnode, hkind⟩ := hx.node
    obtain ⟨n, hlt, hn⟩ := hwithin.2 x hx
    have hpath := (hwithin.1.isSome_pathOf hnode hn).mpr hlt
    have hshown := isSome_shown hnode hkind hpath
    refine ⟨hpath, ?_, ?_⟩
    · obtain ⟨c, hc, hkey, -⟩ := hwithin.1.exists_mem_listing hx.seen hshown
      exact ⟨c, hc, (Change.key_fst c).symm.trans (congrArg Prod.fst hkey)⟩
    · refine ((Tree.new.applyAll items).announced hx hshown).imp_left ?_
      rintro ⟨c, hc, hkey, hentry⟩
      exact ⟨c, hc, (Change.key_fst c).symm.trans (congrArg Prod.fst hkey), hentry ▸ hshown,
        hkey ▸ hentry⟩
  · rintro ns' u m hcourse ⟨parent, hparent⟩ hover
    exact refused_of_overflows hparent hover (hfathoms ns' _ hcourse)

/-! ### A file in a folder, and a folder that is moved beneath a deep one -/

/-- What is new does not slip beneath a node that is not deep. -/
theorem Tree.not_slips (h : ns.Tree) {m : ℕ} (hm : Depth ns.up u.parent m) (hlt : m + 1 < maxDepth)
    (hnew : ns.nodes.lookup u.id = none) : ¬ ns.Slips u := by
  rintro ⟨m', -, hm', -, -, hdeep | ⟨-, x, -, -, hxu, hunder, -⟩⟩
  · rw [hm'.unique hm] at hdeep
    exact absurd hlt (not_lt.mpr hdeep)
  · exact hxu (h.eq_of_under hnew hunder)

theorem Tree.plain_applyAll (h : ns.Tree) (hplain : ns.Plain) (hitems : ∀ it ∈ items, it.Plain) :
    (ns.applyAll items).Plain := by
  induction items generalizing ns with
  | nil => exact hplain
  | cons it items ih =>
    exact ih (h.apply it) (h.plain_apply hplain (hitems it List.mem_cons_self))
      fun x hx ↦ hitems x (List.mem_cons_of_mem it hx)

/-- Where nothing is a package, every node is visible. -/
theorem Plain.visible (h : ns.Plain) {node : Node} (hx : ns.nodes.lookup x = some node) :
    ns.Visible x := by
  refine ⟨⟨node, hx, h.nodes x node hx⟩, ?_⟩
  rintro ⟨p, -, a, anode, -, ha, hopaq⟩
  exact h.nodes a anode ha hopaq

/-- A folder. -/
def folderItems : List Item := [.root "r", .upsert ⟨"d", "r", "d", .folder none⟩]

/-- A file in it. -/
def fileInFolder : Item := .upsert ⟨"f", "d", "f", .file 1 none⟩

theorem none_missing_sample :
    (((new.applyAll folderItems).apply fileInFolder).1.pathOf "f").isSome = true
      ∧ (∃ c ∈ ((new.applyAll folderItems).apply fileInFolder).1.listing, c.id = "f")
      ∧ ((∃ c ∈ ((new.applyAll folderItems).apply fileInFolder).2, c.id = "f"
          ∧ c.entry.isSome = true
          ∧ c.entry = ((new.applyAll folderItems).apply fileInFolder).1.shown c.key)
        ∨ Stayed (new.applyAll folderItems)
          ((new.applyAll folderItems).apply fileInFolder).1 "f") := by
  have hplain : (new.applyAll (folderItems ++ [fileInFolder])).Plain :=
    Tree.new.plain_applyAll ⟨nofun, nofun⟩ (by simp [folderItems, fileInFolder, Item.Plain])
  have hfile : ((new.applyAll folderItems).apply fileInFolder).1.nodes.lookup "f"
      = some ⟨some "d", "f", .file 1 none⟩ := by decide +kernel
  refine (none_missing folderItems fileInFolder ?_).1 "f" (hplain.visible hfile)
  refine forall_course_cons (by decide +kernel) trivial (forall_course_cons (by decide +kernel)
    (fun _ _ ↦ ?_) (forall_course_cons (by decide +kernel) (fun _ _ ↦ ?_) forall_course_nil))
  · exact (Tree.new.applyAll [.root "r"]).not_slips (.top (by decide +kernel)) (by decide)
      (by decide +kernel)
  · have htop : Depth (new.applyAll folderItems).up "r" 0 := .top (by decide +kernel)
    exact (Tree.new.applyAll folderItems).not_slips (.step (by decide +kernel) htop) (by decide)
      (by decide +kernel)

/-- **The last of 300 folders that are moved beneath 300 others** is visible, and has no path. -/
theorem deep_missing : ∃ x, (new.applyAll (deepItems 300)).Visible x
    ∧ (new.applyAll (deepItems 300)).pathOf x = none := by
  have htree : (new.applyAll (deepItems 300)).Tree := Tree.new.applyAll _
  have hplain : (new.applyAll (deepItems 300)).Plain := by
    refine Tree.new.plain_applyAll ⟨fun x node h ↦ ?_, List.forall_mem_nil _⟩ fun it hit ↦ ?_
    · cases h
    simp only [deepItems, chainItems, List.mem_cons, List.mem_append, List.mem_map,
      List.not_mem_nil, or_false] at hit
    rcases hit with rfl | ⟨k, -, rfl⟩ | ⟨k, -, rfl⟩ | rfl
    · trivial
    all_goals exact Kind.noConfusion
  have hdepth := depth_deepItems (n := 300) (by decide) (by decide)
  obtain ⟨node, hnode⟩ := node_of_depth hdepth (by decide)
  refine ⟨chainId 'b' 300, hplain.visible hnode, Option.not_isSome_iff_eq_none.mp fun hpath ↦ ?_⟩
  exact absurd ((htree.isSome_pathOf hnode hdepth).mp hpath) (by decide)

end Namespace

end HydrationAPI.Client
