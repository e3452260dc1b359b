import HydrationAPI.Client.Restore

/-!
# Packages

A package is a container that must not be walked into: it is tracked, and nothing is shown of what
lies beneath it. A listing keeps to that, since it walks the tree from the root and stops at every
package. What an item says is decided where the item is attached, and there nobody looks further up:
what is reported or moved beneath a package is said to be there. Whatever else is reported is said
only of what no package is above, and stays so.

A package that is reported as a folder, or a folder as a package, takes another shape; and a shape
that goes takes away all that lies beneath it.
-/

namespace HydrationAPI.Client

open Ancestry

theorem Kind.eq_opaq_of_tag {kind : Kind} (h : kind.tag = .opaq) : kind = .opaq := by
  cases kind with
  | opaq => rfl
  | file size ctag => cases h
  | folder etag => cases h

namespace Namespace

variable {ns ns' : Namespace} {it item : Item} {work : List Item} {u : Upsert} {x p : String}

/-- `x` is a package, or lies beneath one. -/
def Covered (ns : Namespace) (x : String) : Prop :=
  ∃ a node, Under ns.up a x ∧ ns.nodes.lookup a = some node ∧ node.kind = .opaq

/-- A package is among the ancestors of `x`. -/
def Hidden (ns : Namespace) (x : String) : Prop := ∃ p, ns.up x = some p ∧ ns.Covered p

theorem Hidden.covered (h : ns.Hidden x) : ns.Covered x := by
  obtain ⟨p, hp, a, node, hap, hnode, hkind⟩ := h
  exact ⟨a, node, Under.step hp hap, hnode, hkind⟩

/-- What is covered and is no package lies beneath one. -/
theorem Covered.hidden {node : Node} (h : ns.Covered x) (hx : ns.nodes.lookup x = some node)
    (hkind : node.kind ≠ .opaq) : ns.Hidden x := by
  obtain ⟨a, anode, hax, hanode, hopaq⟩ := h
  rcases hax.cases with rfl | ⟨p, hp, hap⟩
  · rw [Option.some_inj.mp (hx.symm.trans hanode)] at hkind
    exact absurd hopaq hkind
  · exact ⟨p, hp, a, anode, hap, hanode, hopaq⟩

theorem not_hidden_of_top (h : ns.up x = none) : ¬ ns.Hidden x := by
  rintro ⟨p, hp, -⟩
  exact absurd (h.symm.trans hp).symm (Option.some_ne_none p)

/-- Fewer nodes hide less. -/
theorem Hidden.mono (h : ns'.Hidden x)
    (hnodes : ∀ y node, ns'.nodes.lookup y = some node → ns.nodes.lookup y = some node) :
    ns.Hidden x := by
  have hup : ∀ y p, ns'.up y = some p → ns.up y = some p := by
    intro y p hy
    obtain ⟨node, hnode, hparent⟩ := lookup_of_up hy
    exact (up_of_lookup (hnodes y node hnode)).trans hparent
  obtain ⟨p, hp, a, node, hap, hnode, hkind⟩ := h
  exact ⟨p, hup x p hp, a, node, Relation.ReflTransGen.mono (fun y q ↦ hup y q) _ _ hap,
    hnodes a node hnode, hkind⟩

/-! ## What a listing comes by -/

theorem Tree.goes_open_iff (h : ns.Tree) {y : String} :
    Walk.Goes ns.children ns.isOpen y x
      ↔ ns.up x = some y ∧ ∃ node, ns.nodes.lookup y = some node ∧ node.kind ≠ .opaq := by
  refine Iff.trans ?_ (and_congr_left' (h.kids y x))
  rw [Walk.Goes, isOpen, and_comm]
  refine and_congr_right fun _ ↦ ?_
  cases hy : ns.nodes.lookup y with
  | none => exact iff_of_false Bool.false_ne_true (by rintro ⟨node, hnode, -⟩; cases hnode)
  | some node =>
    refine decide_eq_true_iff.trans ⟨fun hkind ↦ ⟨node, rfl, hkind⟩, ?_⟩
    rintro ⟨other, hother, hkind⟩
    rwa [Option.some_inj.mp hother]

/-- A walk that starts where nothing is hidden comes by nothing that is. -/
theorem Tree.not_hidden_of_goes (h : ns.Tree)
    (hgoes : Relation.ReflTransGen (Walk.Goes ns.children ns.isOpen) p x) (hp : ¬ ns.Hidden p) :
    ¬ ns.Hidden x := by
  induction hgoes with
  | refl => exact hp
  | @tail y x _ hyx ih =>
    obtain ⟨hup, node, hnode, hkind⟩ := h.goes_open_iff.mp hyx
    rintro ⟨q, hq, hcovered⟩
    rw [Option.some_inj.mp (hq.symm.trans hup)] at hcovered
    exact ih (hcovered.hidden hnode hkind)

theorem Tree.under_of_goes (h : ns.Tree)
    (hgoes : Relation.ReflTransGen (Walk.Goes ns.children ns.isOpen) p x) : Under ns.up p x := by
  induction hgoes with
  | refl => exact Under.refl ns.up p
  | tail _ hyx ih => exact Under.step (h.goes_open_iff.mp hyx).1 ih

/-- It comes by all that is not hidden. -/
theorem Tree.goes_of_not_hidden (h : ns.Tree) (hunder : Under ns.up p x) (hx : ¬ ns.Hidden x) :
    Relation.ReflTransGen (Walk.Goes ns.children ns.isOpen) p x := by
  induction hunder using Relation.ReflTransGen.head_induction_on with
  | refl => exact .refl
  | @head x y hup _ ih =>
    have hy : ¬ ns.Covered y := fun hcovered ↦ hx ⟨y, hup, hcovered⟩
    obtain ⟨node, hnode, -⟩ := h.parent x y hup
    refine (ih fun hidden ↦ hy hidden.covered).tail (h.goes_open_iff.mpr ⟨hup, node, hnode, ?_⟩)
    exact fun hopaq ↦ hy ⟨y, node, Under.refl ns.up y, hnode, hopaq⟩

theorem Tree.mem_open_walk_iff (h : ns.Tree) (hp : ¬ ns.Hidden p) :
    x ∈ Walk.walk ns.children ns.isOpen [p] ↔ Under ns.up p x ∧ ¬ ns.Hidden x := by
  rw [Walk.mem_walk]
  constructor
  · rintro ⟨y, hy, hgoes⟩
    rw [List.mem_singleton.mp hy] at hgoes
    exact ⟨h.under_of_goes hgoes, h.not_hidden_of_goes hgoes hp⟩
  · exact fun ⟨hunder, hx⟩ ↦ ⟨p, List.mem_singleton.mpr rfl, h.goes_of_not_hidden hunder hx⟩

/-- **What a listing says** is shown of a node that no package is above. -/
theorem Tree.mem_listing (h : ns.Tree) {c : Change} (hc : c ∈ ns.listing) :
    ¬ ns.Hidden c.id ∧ c.entry = ns.shown c.key := by
  obtain ⟨r, hr, hcr⟩ := List.mem_flatMap.mp (Change.mem_finalise_of_mem hc)
  obtain ⟨x, hx, hcx⟩ := List.mem_flatMap.mp hcr
  have htop : ¬ ns.Hidden r := not_hidden_of_top (h.up_root (Option.mem_toList.mp hr))
  obtain ⟨hid, -, hentry⟩ := mem_present hcx
  rw [Change.key_fst] at hid
  rw [hid]
  exact ⟨((h.mem_open_walk_iff htop).mp hx).2, hentry⟩

/-- **A listing says all of them.** -/
theorem Tree.exists_mem_listing (h : ns.Tree) {k : String × KindTag} (hk : ¬ ns.Hidden k.1)
    (hshown : (ns.shown k).isSome = true) : ∃ c ∈ ns.listing, c.key = k ∧ c.entry = ns.shown k := by
  obtain ⟨node, -, hnode, -⟩ := exists_of_shown hshown
  obtain ⟨r, hr, hunder⟩ := h.rooted k.1 node hnode
  have htop : ¬ ns.Hidden r := not_hidden_of_top (h.up_root hr)
  obtain ⟨c, hc, hkey⟩ := exists_mem_present hshown
  have hmem : c ∈ ns.root.toList.flatMap ns.collectTree :=
    List.mem_flatMap.mpr ⟨r, Option.mem_toList.mpr hr,
      List.mem_flatMap.mpr ⟨k.1, (h.mem_open_walk_iff htop).mpr ⟨hunder, hk⟩, hc⟩⟩
  obtain ⟨d, hd, hsame⟩ := Change.exists_same_mem_finalise hmem
  have hdkey : d.key = k := (Change.same_iff.mp hsame).1.symm.trans hkey
  exact ⟨d, hd, hdkey, hdkey ▸ (h.mem_listing hd).2⟩

/-! ## What comes to be hidden -/

section Attach

variable (h : ns.Tree) (hfits : ns.Fits u)
include h

theorem Tree.hidden_of_cleared (hx : (ns.cleared u).Hidden x) : ns.Hidden x :=
  hx.mono fun _ _ hy ↦ (h.lookup_of_cleared hy).1

/-- What lies beneath an item that is a package, and has not gone, was hidden before. -/
theorem Tree.hidden_of_package (hkind : u.kind = .opaq) (hup : (ns.cleared u).up x = some p)
    (hunder : Under (ns.cleared u).up u.id p) : ns.Hidden x := by
  obtain ⟨pnode, hpnode, -⟩ := (h.cleared (u := u)).parent x p hup
  obtain ⟨prev, hprev⟩ := (h.cleared (u := u)).node_of_above hpnode hunder
  obtain ⟨hprev', hgone⟩ := h.lookup_of_cleared hprev
  -- it has not been reshaped, or it would have gone
  have htag : prev.kind.tag = u.kind.tag := by
    by_contra hne
    exact hgone (reshapes_iff.mpr ⟨prev, hprev', hne⟩) (Under.refl _ _)
  have hopaq : prev.kind = .opaq := Kind.eq_opaq_of_tag (htag.trans (congrArg Kind.tag hkind))
  exact h.hidden_of_cleared ⟨p, hup, u.id, prev, hunder, hprev, hopaq⟩

include hfits

/-- What is above the parent of an item is above it still when the item is attached. -/
theorem Tree.covered_attach_parent : (ns.attach u).1.Covered u.parent ↔ ns.Covered u.parent := by
  have hnodes : ∀ y, ¬ Under ns.up u.id y →
      (ns.attach u).1.nodes.lookup y = ns.nodes.lookup y := by
    intro y hy
    have hne : y ≠ u.id := fun heq ↦ hy (heq ▸ Under.refl ns.up u.id)
    exact (attach_lookup_of_ne hne).trans (h.cleared_lookup_of_not_under hy)
  have hunder : ∀ a, Under (ns.attach u).1.up a u.parent ↔ Under ns.up a u.parent := fun a ↦
    under_frame (fun y hy ↦ up_congr (hnodes y hy)) hfits.apart
  refine exists_congr fun a ↦ exists_congr fun node ↦ ?_
  rw [hunder a]
  refine and_congr_right fun ha ↦ ?_
  rw [hnodes a fun hua ↦ hfits.apart (hua.trans ha)]

/-- The item itself is hidden if its parent is covered. -/
theorem Tree.hidden_attach_self : (ns.attach u).1.Hidden u.id ↔ ns.Covered u.parent := by
  rw [← h.covered_attach_parent hfits, Hidden]
  constructor
  · rintro ⟨p, hp, hcovered⟩
    rwa [Option.some_inj.mp (attach_up_self.symm.trans hp)]
  · exact fun hcovered ↦ ⟨u.parent, attach_up_self, hcovered⟩

/-- **What comes to be hidden when an item is attached** lies at or beneath it, and a package is at
or above its parent. -/
theorem Tree.hidden_attach (hx : (ns.attach u).1.Hidden x) :
    ns.Hidden x ∨ Under (ns.attach u).1.up u.id x ∧ ns.Covered u.parent := by
  by_cases hxu : x = u.id
  · subst hxu
    exact Or.inr ⟨Under.refl _ _, (h.hidden_attach_self hfits).mp hx⟩
  · obtain ⟨p, hp, a, node, hap, hnode, hkind⟩ := hx
    have hup : ∀ y, y ≠ u.id → (ns.attach u).1.up y = (ns.cleared u).up y :=
      fun _ ↦ attach_up_of_ne
    have hp' : (ns.cleared u).up x = some p := (hup x hxu).symm.trans hp
    -- a package above, that was one before
    have hbefore : a ≠ u.id → Under (ns.cleared u).up a p → ns.Hidden x := fun hau hunder ↦
      h.hidden_of_cleared
        ⟨p, hp', a, node, hunder, (attach_lookup_of_ne hau).symm.trans hnode, hkind⟩
    by_cases hup_p : Under (ns.cleared u).up u.id p
    · obtain ⟨pnode, hpnode, -⟩ := (h.cleared (u := u)).parent x p hp'
      obtain ⟨n, hn⟩ := (h.cleared (u := u)).exists_depth hpnode
      rcases (under_move_of_under attach_up_self hup (h.cleared_apart hfits) hn hup_p).mp hap with
        ⟨hap', hua⟩ | hparent
      · by_cases hau : a = u.id
        · subst hau
          obtain rfl := Option.some_inj.mp (attach_lookup_self.symm.trans hnode)
          exact Or.inl (h.hidden_of_package hkind hp' hup_p)
        · exact Or.inl (hbefore hau hap')
      · refine Or.inr ⟨Under.step hp ((h.attach_under_self hfits).mpr hup_p), ?_⟩
        have hau : a ≠ u.id := fun heq ↦ h.cleared_apart hfits (heq ▸ hparent)
        have hnode' := (attach_lookup_of_ne hau).symm.trans hnode
        exact ⟨a, node, (h.cleared_under hfits.apart).mp hparent,
          (h.lookup_of_cleared hnode').1, hkind⟩
    · have hap' := (under_move_of_not_under hup hup_p).mp hap
      exact Or.inl (hbefore (fun heq ↦ hup_p (heq ▸ hap')) hap')

/-- What an item says is there lies at or beneath it and is shown, and is not hidden unless a
package is at or above its parent. -/
theorem Tree.mem_placed {c : Change} (hc : c ∈ ns.placed u) :
    Under (ns.attach u).1.up u.id c.id ∧ ((ns.attach u).1.shown c.key).isSome = true
      ∧ (¬ ns.Covered u.parent → ¬ (ns.attach u).1.Hidden c.id) := by
  have htree := h.attach hfits
  have hself : c ∈ (ns.attach u).1.present u.id → Under (ns.attach u).1.up u.id c.id
      ∧ ((ns.attach u).1.shown c.key).isSome = true
      ∧ (¬ ns.Covered u.parent → ¬ (ns.attach u).1.Hidden c.id) := by
    intro hc
    obtain ⟨hid, hsome, hshown⟩ := mem_present hc
    rw [Change.key_fst] at hid
    rw [hid]
    exact ⟨Under.refl _ _, hshown ▸ hsome, fun hcovered ↦
      (h.hidden_attach_self hfits).not.mpr hcovered⟩
  rw [placed] at hc
  split at hc
  · exact hself hc
  · rename_i etag hkind
    split at hc
    · rcases List.mem_append.mp hc with hc | hc
      · exact hself hc
      · split at hc
        · obtain ⟨kid, hkid, hc⟩ := List.mem_flatMap.mp hc
          obtain ⟨y, hy, hcy⟩ := List.mem_flatMap.mp hc
          obtain ⟨hid, hsome, hshown⟩ := mem_present hcy
          rw [Change.key_fst] at hid
          rw [hid]
          have hup := (htree.kids _ _).mp hkid
          rw [Walk.mem_walk] at hy
          obtain ⟨z, hz, hgoes⟩ := hy
          rw [List.mem_singleton.mp hz] at hgoes
          refine ⟨(Under.step hup (Under.refl _ _)).trans (htree.under_of_goes hgoes),
            hshown ▸ hsome, fun hcovered ↦ htree.not_hidden_of_goes hgoes ?_⟩
          -- the item is no package
          rintro ⟨q, hq, hqcovered⟩
          rw [Option.some_inj.mp (hq.symm.trans hup)] at hqcovered
          refine (h.hidden_attach_self hfits).not.mpr hcovered
            (hqcovered.hidden attach_lookup_self ?_)
          change u.kind ≠ .opaq
          rw [hkind]
          exact Kind.noConfusion
        · exact absurd hc List.not_mem_nil
    · exact absurd hc List.not_mem_nil
  · exact absurd hc List.not_mem_nil

end Attach

/-! ## Nothing is said of what is hidden -/

/-- A folder that is there as it is reported says nothing. -/
theorem placed_of_same (hsame : ns.nodes.lookup u.id = some ⟨some u.parent, u.name, u.kind⟩)
    (hkind : u.kind.tag = .folder) : ns.placed u = [] := by
  rw [placed, hsame]
  cases hk : u.kind with
  | file size ctag =>
    rw [hk] at hkind
    cases hkind
  | folder etag => simp
  | opaq => rfl

/-- A package says nothing. -/
theorem placed_of_opaq (hkind : u.kind = .opaq) : ns.placed u = [] := by
  rw [placed, hkind]

/-- What is shown is no package. -/
theorem exists_not_opaq_of_shown {k : String × KindTag} (h : (ns.shown k).isSome = true) :
    ∃ node, ns.nodes.lookup k.1 = some node ∧ node.kind ≠ .opaq := by
  obtain ⟨node, path, hnode, -, -, hshown⟩ := exists_of_shown h
  refine ⟨node, hnode, fun hopaq ↦ ?_⟩
  rw [hshown, hopaq] at h
  cases h

/-- The item makes or moves a node at or above `x`, and `x` is a file or a folder then that is not
hidden. -/
def Reveals (ns : Namespace) (x : String) : Item → Prop
  | .root id => x = id
  | .upsert u => ns.refusal u = none ∧ ns.Fits u ∧ Under (ns.attach u).1.up u.id x
      ∧ (∃ node, (ns.attach u).1.nodes.lookup x = some node ∧ node.kind ≠ .opaq)
      ∧ ¬ (ns.attach u).1.Hidden x
  | .delete _ => False

/-- What is attached beneath a package is a folder that is there as it is reported, or a package
that nothing worked off before it has revealed as something else. -/
def Quiet (ns : Namespace) (it : Item) : Prop :=
  ∀ ns' u work, Amid ns it ns' (.upsert u :: work) → ns'.refusal u = none → ns'.Fits u →
    ns'.Covered u.parent →
      ns'.nodes.lookup u.id = some ⟨some u.parent, u.name, u.kind⟩ ∧ u.kind.tag = .folder
        ∨ u.kind = .opaq ∧ ∀ m item rest, Amid ns it m (item :: rest) →
          Relation.TransGen Next (m, item :: rest) (ns', .upsert u :: work) →
          ¬ m.Reveals u.id item

/-- Something that was worked off before has revealed `x`. -/
def Revealed (ns : Namespace) (it : Item) (ns' : Namespace) (work : List Item)
    (x : String) : Prop :=
  ∃ m item rest, Amid ns it m (item :: rest)
    ∧ Relation.TransGen Next (m, item :: rest) (ns', work) ∧ m.Reveals x item

theorem Revealed.next (h : Revealed ns it ns' (item :: work) x) :
    Revealed ns it (ns'.workOff item work).1 (ns'.workOff item work).2.1 x := by
  obtain ⟨m, first, rest, hamid, htrans, hreveals⟩ := h
  exact ⟨m, first, rest, hamid, htrans.tail ⟨item, work, rfl, rfl⟩, hreveals⟩

/-- What has been said to be there is not hidden, and has been revealed. -/
structure Said (ns : Namespace) (it : Item) (ns' : Namespace) (work : List Item)
    (out : List Change) : Prop where
  tree : ns'.Tree
  amid : Amid ns it ns' work
  open' : ∀ c ∈ out, c.entry.isSome = true → ¬ ns'.Hidden c.id ∧ Revealed ns it ns' work c.id

theorem hidden_congr (h : ns'.nodes = ns.nodes) : ns'.Hidden x ↔ ns.Hidden x :=
  ⟨fun hx ↦ hx.mono fun _ _ hy ↦ h ▸ hy, fun hx ↦ hx.mono fun _ _ hy ↦ h ▸ hy⟩

/-- A root hides nothing. -/
theorem Tree.hidden_root (h : ns.Tree) {id : String} (hid : ∀ r, ns.root = some r → r = id)
    (hx : ({ ns with root := some id, nodes := ns.nodes.insert id ⟨none, "", .folder none⟩ } :
      Namespace).Hidden x) : ns.Hidden x ∧ x ≠ id := by
  have htree := h.root hid
  constructor
  · refine hx.mono fun y node hy ↦ ?_
    by_cases hyid : y = id
    · subst hyid
      -- a node beneath the root was there before it
      cases hroot : ns.root with
      | some r =>
        obtain rfl := hid r hroot
        exact (h.top r hroot).trans ((AList.lookup_insert _).symm.trans hy)
      | none =>
        exfalso
        obtain ⟨p, hp, -⟩ := hx
        obtain ⟨xnode, hxnode, hparent⟩ := lookup_of_up hp
        have hne : x ≠ y := by
          rintro rfl
          rw [AList.lookup_insert] at hxnode
          rw [← Option.some_inj.mp hxnode] at hparent
          exact nomatch hparent
        have hxnode' := (AList.lookup_insert_ne hne).symm.trans hxnode
        exact nomatch (h.lookup_of_no_root hroot x).symm.trans hxnode'
    · exact (AList.lookup_insert_ne hyid).symm.trans hy
  · rintro rfl
    exact not_hidden_of_top (htree.up_root rfl) hx

/-- **A step says nothing of what is hidden**, and hides nothing that has been said. -/
theorem Said.step (hquiet : ns.Quiet it) {out : List Change}
    (h : Said ns it ns' (item :: work) out) :
    Said ns it (ns'.workOff item work).1 (ns'.workOff item work).2.1
      (out ++ (ns'.workOff item work).2.2) := by
  have hreveal : ∀ y, ns'.Reveals y item → Revealed ns it (ns'.workOff item work).1
      (ns'.workOff item work).2.1 y := fun y hy ↦
    ⟨ns', item, work, h.amid, .single ⟨item, work, rfl, rfl⟩, hy⟩
  have hold : ∀ c ∈ out, c.entry.isSome = true → Revealed ns it (ns'.workOff item work).1
      (ns'.workOff item work).2.1 c.id := fun c hc hsome ↦ (h.open' c hc hsome).2.next
  refine ⟨h.tree.workOff item work, h.amid.next, fun c hc hsome ↦ ?_⟩
  rw [hidden_congr workOff_nodes]
  rw [workOff_changes] at hc
  have hout := ns'.applyOne_outcome item
  generalize ns'.applyOne item = r at hout hc
  cases hout with
  | foreign id r _ _ =>
    rw [List.append_nil] at hc
    exact ⟨(h.open' c hc hsome).1, hold c hc hsome⟩
  | root id hid =>
    rcases List.mem_append.mp hc with hc | hc
    · exact ⟨fun hidden ↦ (h.open' c hc hsome).1 (h.tree.hidden_root hid hidden).1, hold c hc hsome⟩
    · rw [List.mem_singleton.mp hc]
      exact ⟨fun hidden ↦ (h.tree.hidden_root hid hidden).2 rfl, hreveal id rfl⟩
  | refused u why _ =>
    rw [List.append_nil] at hc
    exact ⟨(h.open' c hc hsome).1, hold c hc hsome⟩
  | held u _ _ =>
    rw [List.append_nil] at hc
    exact ⟨(h.open' c hc hsome).1, hold c hc hsome⟩
  | deleted id =>
    have hmono : (ns'.delete id).1.Hidden c.id → ns'.Hidden c.id := fun hidden ↦
      hidden.mono fun y node hy ↦ by
        rcases ns'.delete_lookup_or id y with hnone | hsame
        · exact absurd (hnone.symm.trans hy).symm (Option.some_ne_none node)
        · exact hsame.symm.trans hy
    rcases List.mem_append.mp hc with hc | hc
    · exact ⟨fun hidden ↦ (h.open' c hc hsome).1 (hmono hidden), hold c hc hsome⟩
    · rw [(h.tree.mem_delete_changes hc).1] at hsome
      exact nomatch hsome
  | attached u hrefusal hfits =>
    rw [attach_snd] at hc
    rcases List.mem_append.mp hc with hc | hc
    · -- what has been said before
      refine ⟨fun hidden ↦ ?_, hold c hc hsome⟩
      obtain ⟨hopen, m, first, rest, hamid, htrans, hreveals⟩ := h.open' c hc hsome
      rcases h.tree.hidden_attach hfits hidden with hbefore | ⟨hunder, hcovered⟩
      · exact hopen hbefore
      · rcases hquiet ns' u work h.amid hrefusal hfits hcovered with ⟨hsame, -⟩ | ⟨hopaq, hnew⟩
        · -- the folder is there as it is reported
          refine hopen (hidden.mono fun y node hy ↦ ?_)
          by_cases hyu : y = u.id
          · subst hyu
            exact hsame.trans (attach_lookup_self.symm.trans hy)
          · exact (h.tree.lookup_of_cleared ((attach_lookup_of_ne hyu).symm.trans hy)).1
        · have hne : c.id ≠ u.id := fun heq ↦ hnew m first rest hamid htrans (heq ▸ hreveals)
          rcases ((h.tree.attach_under_self hfits).mp hunder).cases with heq | ⟨q, hq, hunder⟩
          · exact hne heq
          · exact hopen (h.tree.hidden_of_package hopaq hq hunder)
    · rcases List.mem_append.mp hc with hc | hc
      · split at hc
        · rw [(h.tree.mem_delete_changes hc).1] at hsome
          exact nomatch hsome
        · exact absurd hc List.not_mem_nil
      · obtain ⟨hunder, hshown, hopen⟩ := h.tree.mem_placed hfits hc
        have hopen : ¬ (ns'.attach u).1.Hidden c.id := by
          refine hopen fun hcovered ↦ ?_
          rcases hquiet ns' u work h.amid hrefusal hfits hcovered with ⟨hsame, hkind⟩ | ⟨hopaq, -⟩
          · exact absurd hc (placed_of_same hsame hkind ▸ List.not_mem_nil)
          · exact absurd hc (placed_of_opaq hopaq ▸ List.not_mem_nil)
        obtain ⟨node, hnode, hkind⟩ := exists_not_opaq_of_shown hshown
        rw [Change.key_fst] at hnode
        exact ⟨hopen, hreveal c.id ⟨hrefusal, hfits, hunder, ⟨node, hnode, hkind⟩, hopen⟩⟩

/-- **Packages hide what lies beneath them**: a listing always keeps to it, and what an item says to
be there does in every course in which all that is attached beneath a package is there already. -/
theorem packages_hide (items : List Item) (it : Item) (hquiet : (new.applyAll items).Quiet it) :
    (∀ c ∈ ((new.applyAll items).apply it).2, c.entry.isSome = true →
        ¬ ((new.applyAll items).apply it).1.Hidden c.id)
      ∧ ∀ c ∈ ((new.applyAll items).apply it).1.listing,
        ¬ ((new.applyAll items).apply it).1.Hidden c.id := by
  have htree : (new.applyAll items).Tree := Tree.new.applyAll items
  constructor
  · intro c hc hsome
    have hsaid : Said (new.applyAll items) it ((new.applyAll items).apply it).1 []
        ((new.applyAll items).settle [it] []).2 :=
      settle_induction (P := Said (new.applyAll items) it) (fun _ _ _ _ h ↦ h.step hquiet)
        ⟨htree, Amid.start _ it, fun _ hc ↦ absurd hc List.not_mem_nil⟩
    exact (hsaid.open' c (Change.mem_finalise_of_mem hc) hsome).1
  · exact fun c hc ↦ ((htree.apply it).mem_listing hc).1

/-! ### A package with a folder in it -/

/-- A notebook, and a folder in it. -/
def notebookItems : List Item :=
  [.root "r", .upsert ⟨"p", "r", "p", .opaq⟩, .upsert ⟨"d", "p", "d", .folder none⟩]

/-- The folder again. -/
def folderInNotebook : Item := .upsert ⟨"d", "p", "d", .folder none⟩

theorem packages_hide_again :
    (∀ c ∈ ((new.applyAll notebookItems).apply folderInNotebook).2, c.entry.isSome = true →
        ¬ ((new.applyAll notebookItems).apply folderInNotebook).1.Hidden c.id)
      ∧ ∀ c ∈ ((new.applyAll notebookItems).apply folderInNotebook).1.listing,
        ¬ ((new.applyAll notebookItems).apply folderInNotebook).1.Hidden c.id := by
  refine packages_hide notebookItems folderInNotebook ?_
  intro ns' u work hamid _ _ _
  obtain ⟨rfl, hu, rfl⟩ := hamid.of_done (by decide +kernel)
  obtain rfl := Item.upsert.inj hu
  exact Or.inl (by decide +kernel)

/-- **A file in the package is said to be there** when it is reported. -/
theorem package_leaks : ∃ c ∈ ((new.applyAll notebookItems).apply
      (.upsert ⟨"f", "p", "f", .file 1 none⟩)).2, c.entry.isSome = true
    ∧ ((new.applyAll notebookItems).apply
      (.upsert ⟨"f", "p", "f", .file 1 none⟩)).1.Hidden c.id := by
  refine ⟨.upserted "f" "p/f" 1 none, by decide +kernel, rfl, "p", by decide +kernel, "p",
    ⟨some "r", "p", .opaq⟩, Under.refl _ _, by decide +kernel, rfl⟩

/-! ## A package that becomes a folder -/

/-- All that lies beneath the container stays in the tree, and whatever of it is not hidden is
listed. -/
structure KeepsBelow (ns : Namespace) (id : String) (ns' : Namespace) : Prop where
  nodes : ∀ x, x ≠ id → Under ns.up id x → ∃ node, ns'.nodes.lookup x = some node
  listed : ∀ x node, x ≠ id → Under ns.up id x → ns'.nodes.lookup x = some node →
    node.kind ≠ .opaq → (ns'.pathOf x).isSome = true → ¬ ns'.Hidden x → ∃ c ∈ ns'.listing, c.id = x

/-- A node with a path is shown, unless it is a package. -/
theorem isSome_shown {node : Node} (hx : ns.nodes.lookup x = some node) (hkind : node.kind ≠ .opaq)
    (hpath : (ns.pathOf x).isSome = true) : (ns.shown (x, node.kind.tag)).isSome = true := by
  obtain ⟨path, hpath⟩ := Option.isSome_iff_exists.mp hpath
  rw [shown]
  dsimp only
  rw [hx, Option.bind_some, if_pos rfl, hpath, Option.bind_some]
  cases hk : node.kind with
  | file size ctag => rfl
  | folder etag => rfl
  | opaq => exact absurd hk hkind

/-- What stays in the tree is listed. -/
theorem Tree.keepsBelow (h : ns'.Tree) {id : String}
    (hnodes : ∀ x, x ≠ id → Under ns.up id x → ∃ node, ns'.nodes.lookup x = some node) :
    ns.KeepsBelow id ns' := by
  refine ⟨hnodes, fun x node _ _ hx hkind hpath hopen ↦ ?_⟩
  obtain ⟨c, hc, hkey, -⟩ := h.exists_mem_listing hopen (isSome_shown hx hkind hpath)
  exact ⟨c, hc, (Change.key_fst c).symm.trans (congrArg Prod.fst hkey)⟩

/-- An item about a node is applied alone: nothing waits for what is there. -/
theorem Sound.apply_of_node (h : ns.Sound) {prev : Node}
    (hprev : ns.nodes.lookup u.id = some prev) :
    (ns.apply (.upsert u)).1 = (ns.applyOne (.upsert u)).1 := by
  refine apply_of_not_awaited fun id hid v hv heq ↦ ?_
  have hattached := applyOne_attached hid
  have hmem : v ∈ ns.waiting := by
    rcases ns.applyOne_waiting (.upsert u) with ⟨hnone, -⟩ | hsub
    · exact nomatch hnone.symm.trans hid
    · exact hsub.subset hv
  have hfree := h.unmet v hmem
  rw [heq, hattached] at hfree
  exact absurd (hfree.symm.trans hprev).symm (Option.some_ne_none prev)

/-- **A container that is reported in the other shape keeps what lies beneath it** only if nothing
does, or the report does not change the tree. -/
theorem kind_change_keeps_iff (items : List Item) (u : Upsert) {prev : Node}
    (hprev : (new.applyAll items).nodes.lookup u.id = some prev)
    (hchange : prev.kind.tag ≠ u.kind.tag) :
    (new.applyAll items).KeepsBelow u.id ((new.applyAll items).apply (.upsert u)).1
      ↔ (new.applyAll items).kids u.id = [] ∨ (new.applyAll items).refusal u ≠ none
        ∨ (new.applyAll items).nodes.lookup u.parent = none := by
  have hsound : (new.applyAll items).Sound := Sound.new.applyAll items
  generalize new.applyAll items = ns at *
  have htree := hsound.tree
  constructor
  · intro hkeeps
    by_contra hnot
    rw [not_or, not_or] at hnot
    obtain ⟨hkids, hrefusal, hparent⟩ := hnot
    obtain ⟨kid, hkid⟩ := List.exists_mem_of_ne_nil _ hkids
    have hup : ns.up kid = some u.id := (htree.kids _ _).mp hkid
    have hunder : Under ns.up u.id kid := Under.step hup (Under.refl _ _)
    obtain ⟨n, hn⟩ := htree.exists_depth hprev
    have hne : kid ≠ u.id := by
      rintro rfl
      exact absurd (hn.unique (.step hup hn)) (Nat.succ_ne_self n).symm
    obtain ⟨node, hnode⟩ := hkeeps.nodes kid hne hunder
    -- the item attaches, and the old shape has gone
    rw [hsound.apply_of_node hprev] at hnode
    have hout := ns.applyOne_outcome (.upsert u)
    generalize ns.applyOne (.upsert u) = r at hout hnode
    cases hout with
    | refused _ why hwhy => exact hrefusal fun hnone ↦ nomatch hnone.symm.trans hwhy
    | held _ _ hnone => exact hparent hnone
    | attached _ _ hfits =>
      have hre : ns.Reshapes u := reshapes_iff.mpr ⟨prev, hprev, hchange⟩
      rw [attach_lookup_of_ne hne] at hnode
      exact (htree.lookup_of_cleared hnode).2 hre hunder
  · intro hor
    refine (htree.apply (.upsert u)).keepsBelow fun x hne hunder ↦ ?_
    have hx := node_of_under hunder hne
    rw [hsound.apply_of_node hprev]
    have hout := ns.applyOne_outcome (.upsert u)
    generalize ns.applyOne (.upsert u) = r at hout
    cases hout with
    | refused _ why _ => exact hx
    | held _ _ _ => exact hx
    | attached _ hrefusal hfits =>
      rcases hor with hkids | hrefused | hparent
      · -- nothing lies beneath it
        rcases Relation.ReflTransGen.cases_tail hunder with heq | ⟨kid, -, hkid⟩
        · exact absurd heq.symm hne
        · exact absurd ((htree.kids _ _).mpr hkid) (hkids ▸ List.not_mem_nil)
      · exact absurd hrefusal hrefused
      · obtain ⟨node, hnode, -⟩ := hfits.parent
        exact nomatch hparent.symm.trans hnode

/-- An empty package that becomes a folder has nothing to lose. -/
theorem kind_change_keeps_empty :
    (new.applyAll [.root "r", .upsert ⟨"p", "r", "p", .opaq⟩]).KeepsBelow "p"
      ((new.applyAll [.root "r", .upsert ⟨"p", "r", "p", .opaq⟩]).apply
        (.upsert ⟨"p", "r", "p", .folder none⟩)).1 := by
  have hprev : (new.applyAll [.root "r", .upsert ⟨"p", "r", "p", .opaq⟩]).nodes.lookup "p"
      = some ⟨some "r", "p", .opaq⟩ := by decide +kernel
  exact (kind_change_keeps_iff _ ⟨"p", "r", "p", .folder none⟩ hprev nofun).mpr
    (Or.inl (by decide +kernel))

/-- **A notebook that turns out to be a folder has lost the folder in it.** -/
theorem kind_change_loses : ¬ (new.applyAll notebookItems).KeepsBelow "p"
    ((new.applyAll notebookItems).apply (.upsert ⟨"p", "r", "p", .folder none⟩)).1 := by
  intro hkeeps
  have hup : (new.applyAll notebookItems).up "d" = some "p" := by decide +kernel
  obtain ⟨node, hnode⟩ := hkeeps.nodes "d" (by decide) (Under.step hup (Under.refl _ _))
  have hnone : ((new.applyAll notebookItems).apply
      (.upsert ⟨"p", "r", "p", .folder none⟩)).1.nodes.lookup "d" = none := by decide +kernel
  exact nomatch hnone.symm.trans hnode

end Namespace

end HydrationAPI.Client
