import HydrationAPI.Graph.Mapping

/-!
# The round

A round feeds pages, possibly of several drives, to the mapper and what the mapper makes of them to
the namespace. It is the layer that may decide that a state is one to stop for: it completes, with
the changes it has collected and the link at the end of the feed, or it escalates.
-/

namespace HydrationAPI.Graph

open HydrationAPI.Client (Namespace Change Problem)

structure Report where
  /-- Permanent: a human has to do something. -/
  refusals : List Refusal
  /-- Transient: a scanner will clear the flag, an upload will finish. -/
  deferred : List (ObjectKey × Unmappable)
  /-- What the namespace itself could not settle. -/
  unresolvedProblems : List (String × Problem)
  /-- Items still waiting on a parent when the round ended. -/
  pendingAfterRound : List String

structure CompletedRound where
  changes : List Change
  token : String
  report : Report

/-- A condition the round refuses to advance past. -/
inductive Escalation where
  | rootDeleted
  | shapeFlipWithChildren (key : ObjectKey) (children : ℕ)
  | foreignRoot (key : ObjectKey)
  | stalledRetryable (passes : ℕ) (failed : List String)
  | blastRadius (removals known : ℕ)
  | incomplete (refusals pending : ℕ)
  deriving DecidableEq

structure Round where
  tags : TagSource
  tree : Namespace
  index : TreeIndex
  changes : List Change
  report : Report
  token : Option String
  escalation : Option Escalation
  /-- How many items the feed handed this round, mapped and applied. -/
  applied : ℕ
  /-- Every placeholder-to-far-drive pair the round has seen. -/
  mounts : List MountPoint

namespace Round

def new (tags : TagSource) (ns : Namespace) : Round :=
  ⟨tags, ns, .new, [], ⟨[], [], [], []⟩, none, none, 0, []⟩

/-- The same placeholder twice is one mount. -/
def addMount (mounts : List MountPoint) (m : MountPoint) : List MountPoint :=
  if mounts.any (·.placeholder = m.placeholder) then mounts else mounts ++ [m]

/-- File a refusal: to stop for, to wait for, or for a human. -/
def fileRefusal (r : Round) (refusal : Refusal) : Round :=
  match refusal.why with
  | .rootDeleted => { r with escalation := r.escalation.or (some .rootDeleted) }
  | .shapeFlip _ _ children =>
    if 0 < children then
      match refusal.key with
      | none => r
      | some key =>
        { r with escalation := r.escalation.or (some (.shapeFlipWithChildren key children)) }
    else { r with report := { r.report with refusals := r.report.refusals ++ [refusal] } }
  | .blocked | .unsettled =>
    match refusal.key with
    | none => r
    | some key =>
      { r with report := { r.report with deferred := r.report.deferred ++ [(key, refusal.why)] } }
  | _ => { r with report := { r.report with refusals := r.report.refusals ++ [refusal] } }

/-- The later occurrence of an object is authoritative: what was recorded of it before goes. -/
def retain (changes later : List Change) : List Change :=
  changes.filter fun c ↦ c.id ∉ later.map Change.id

def applyItem (r : Round) (item : Client.Item) : Round :=
  let (ns, changes) := r.tree.apply item
  { r with
    applied := r.applied + 1
    tree := ns
    changes := retain r.changes changes ++ changes }

/-- The scope travels with the page, so that one round can span several drives. -/
def feed (r : Round) (scope : DriveScope) (page : DeltaPage) : Round :=
  let (ix, mapped) := mapPage scope r.index r.tags page
  let r := { r with index := ix, mounts := mapped.mounts.foldl addMount r.mounts }
  let r := mapped.refusals.foldl fileRefusal r
  let r := mapped.items.foldl applyItem r
  match page.pageEnd with
  | .more _ => r
  | .done link => { r with token := some link }

/-- The report, with what the namespace could not settle. -/
def closing (r : Round) : Report :=
  { r.report with
    unresolvedProblems := (r.tree.problems.entries.map fun e ↦ (e.1, e.2)).insertionSort
      fun a b ↦ ¬ b.1 < a.1
    pendingAfterRound := r.tree.pendingIds }

def finish (r : Round) : Except (Escalation × Report) CompletedRound :=
  let report := r.closing
  match r.escalation with
  | some e => .error (e, report)
  | none =>
    if report.refusals ≠ [] ∨ report.pendingAfterRound ≠ [] then
      .error (.incomplete report.refusals.length report.pendingAfterRound.length, report)
    else match r.token with
      | none => .error (.incomplete 0 0, report)
      | some token => .ok ⟨r.changes, token, report⟩

/-- Feed the pages of a round. -/
def run (r : Round) (feeds : List (DriveScope × DeltaPage)) : Round :=
  feeds.foldl (fun r f ↦ r.feed f.1 f.2) r

/-! ## What a round has been fed -/

/-- The items of a page that go to the namespace. -/
def pageItems (r : Round) (scope : DriveScope) (page : DeltaPage) : List Client.Item :=
  (mapPage scope r.index r.tags page).2.items

/-- The items of all pages that go to the namespace. -/
def itemsOf : Round → List (DriveScope × DeltaPage) → List Client.Item
  | _, [] => []
  | r, f :: feeds => r.pageItems f.1 f.2 ++ itemsOf (r.feed f.1 f.2) feeds

variable {r : Round} {scope : DriveScope} {page : DeltaPage} {feeds : List (DriveScope × DeltaPage)}

/-- Filing refusals changes the report and the escalation alone. -/
theorem foldl_fileRefusal (refusals : List Refusal) (r : Round) :
    refusals.foldl fileRefusal r = { r with
      report := (refusals.foldl fileRefusal r).report
      escalation := (refusals.foldl fileRefusal r).escalation } := by
  induction refusals generalizing r with
  | nil => rfl
  | cons refusal refusals ih =>
    have hone : r.fileRefusal refusal = { r with
        report := (r.fileRefusal refusal).report
        escalation := (r.fileRefusal refusal).escalation } := by
      unfold fileRefusal
      split
      · rfl
      · split
        · split <;> rfl
        · rfl
      · split <;> rfl
      · split <;> rfl
      · rfl
    rw [List.foldl_cons, ih, hone]

/-- Applying items changes the namespace, the changes and their number alone. -/
theorem foldl_applyItem (items : List Client.Item) (r : Round) :
    items.foldl applyItem r = { r with
      tree := r.tree.applyAll items
      changes := (items.foldl applyItem r).changes
      applied := r.applied + items.length } := by
  induction items generalizing r with
  | nil => rfl
  | cons item items ih =>
    rw [List.foldl_cons, ih, applyItem]
    dsimp only
    rw [List.length_cons, Nat.add_assoc, Nat.add_comm 1]
    rfl

/-- The round before the items of a page are applied: what was refused has been filed. -/
def filed (r : Round) (scope : DriveScope) (page : DeltaPage) : Round :=
  (mapPage scope r.index r.tags page).2.refusals.foldl fileRefusal { r with
    index := (mapPage scope r.index r.tags page).1
    mounts := (mapPage scope r.index r.tags page).2.mounts.foldl addMount r.mounts }

theorem filed_eq : r.filed scope page = { r with
    index := (mapPage scope r.index r.tags page).1
    mounts := (mapPage scope r.index r.tags page).2.mounts.foldl addMount r.mounts
    report := (r.filed scope page).report
    escalation := (r.filed scope page).escalation } := foldl_fileRefusal _ _

theorem feed_eq (r : Round) (scope : DriveScope) (page : DeltaPage) :
    r.feed scope page = { (r.pageItems scope page).foldl applyItem (r.filed scope page) with
      token := match page.pageEnd with | .more _ => r.token | .done link => some link } := by
  rw [feed]
  dsimp only
  have htoken : ((r.pageItems scope page).foldl applyItem (r.filed scope page)).token = r.token := by
    rw [foldl_applyItem, filed_eq]
  change (match page.pageEnd with
    | .more _ => (r.pageItems scope page).foldl applyItem (r.filed scope page)
    | .done link => _) = _
  split
  · rw [← htoken]
  · rfl

theorem filed_tree : (r.filed scope page).tree = r.tree := by rw [filed_eq]

theorem filed_changes : (r.filed scope page).changes = r.changes := by rw [filed_eq]

@[simp] theorem feed_tree : (r.feed scope page).tree
    = r.tree.applyAll (r.pageItems scope page) := by
  rw [feed_eq, foldl_applyItem, filed_tree]

@[simp] theorem feed_tags : (r.feed scope page).tags = r.tags := by
  rw [feed_eq, foldl_applyItem, filed_eq]

@[simp] theorem feed_index : (r.feed scope page).index
    = (mapPage scope r.index r.tags page).1 := by
  rw [feed_eq, foldl_applyItem, filed_eq]

theorem feed_report : (r.feed scope page).report = (r.filed scope page).report := by
  rw [feed_eq, foldl_applyItem]

theorem feed_escalation : (r.feed scope page).escalation = (r.filed scope page).escalation := by
  rw [feed_eq, foldl_applyItem]

@[simp] theorem run_nil : r.run [] = r := rfl

@[simp] theorem run_cons {f : DriveScope × DeltaPage} :
    r.run (f :: feeds) = (r.feed f.1 f.2).run feeds := rfl

theorem run_append (before after : List (DriveScope × DeltaPage)) :
    r.run (before ++ after) = (r.run before).run after := List.foldl_append

theorem itemsOf_append (r : Round) (before after : List (DriveScope × DeltaPage)) :
    itemsOf r (before ++ after) = itemsOf r before ++ itemsOf (r.run before) after := by
  induction before generalizing r with
  | nil => rfl
  | cons f before ih => rw [List.cons_append, itemsOf, itemsOf, ih, run_cons, List.append_assoc]

/-- Every item that was fed was fed with a page. -/
theorem itemsOf_split {first last : List Client.Item} {it : Client.Item}
    (h : itemsOf r feeds = first ++ it :: last) :
    ∃ before f after first' last', feeds = before ++ f :: after
      ∧ first = itemsOf r before ++ first'
      ∧ (r.run before).pageItems f.1 f.2 = first' ++ it :: last' := by
  induction feeds generalizing r first with
  | nil =>
    rw [itemsOf] at h
    exact absurd h.symm (List.append_ne_nil_of_right_ne_nil _ (List.cons_ne_nil it last))
  | cons f feeds ih =>
    rw [itemsOf] at h
    have hlater : ∀ rest, first = r.pageItems f.1 f.2 ++ rest →
        itemsOf (r.feed f.1 f.2) feeds = rest ++ it :: last →
        ∃ before f' after first' last', f :: feeds = before ++ f' :: after
          ∧ first = itemsOf r before ++ first'
          ∧ (r.run before).pageItems f'.1 f'.2 = first' ++ it :: last' := by
      rintro rest rfl hrest
      obtain ⟨before, f', after, first', last', rfl, rfl, hpage⟩ := ih hrest
      exact ⟨f :: before, f', after, first', last', rfl, (List.append_assoc _ _ _).symm, hpage⟩
    rcases List.append_eq_append_iff.mp h with ⟨rest, hfirst, hrest⟩ | ⟨rest, hpage, hrest⟩
    · exact hlater rest hfirst hrest
    · cases rest with
      | nil =>
        rw [List.append_nil] at hpage
        exact hlater [] (hpage.symm.trans (List.append_nil _).symm) hrest.symm
      | cons it' rest =>
        obtain ⟨rfl, -⟩ := List.cons.inj hrest
        exact ⟨[], f, feeds, first, rest, rfl, rfl, hpage⟩

/-- **The namespace of a round** is the one it began with, with all items applied. -/
theorem run_tree (r : Round) (feeds : List (DriveScope × DeltaPage)) :
    (r.run feeds).tree = r.tree.applyAll (itemsOf r feeds) := by
  induction feeds generalizing r with
  | nil => rfl
  | cons f feeds ih =>
    rw [run_cons, ih, feed_tree, itemsOf, Namespace.applyAll, Namespace.applyAll,
      Namespace.applyAll, List.foldl_append]

@[simp] theorem run_tags (r : Round) (feeds : List (DriveScope × DeltaPage)) :
    (r.run feeds).tags = r.tags := by
  induction feeds generalizing r with
  | nil => rfl
  | cons f feeds ih => rw [run_cons, ih, feed_tags]

/-! ## What stops a round -/

/-- The round will not complete, whatever it is fed. -/
def Stopped (r : Round) : Prop := r.escalation ≠ none ∨ r.report.refusals ≠ []

theorem Stopped.finish (h : r.Stopped) : ∃ e, r.finish = .error e := by
  rw [Round.finish]
  split
  · exact ⟨_, rfl⟩
  · rename_i hnone
    have hrefusals : r.closing.refusals ≠ [] := h.resolve_left fun hne ↦ hne hnone
    rw [if_pos (Or.inl hrefusals)]
    exact ⟨_, rfl⟩

/-- **A round that completes** has not been stopped, and leaves nothing waiting. -/
theorem finish_ok {c : CompletedRound} (h : r.finish = .ok c) :
    ¬ r.Stopped ∧ r.tree.waiting = [] ∧ r.token = some c.token ∧ c.changes = r.changes := by
  refine ⟨fun hstop ↦ ?_, ?_⟩
  · obtain ⟨e, he⟩ := hstop.finish
    cases h.symm.trans he
  · rw [Round.finish] at h
    split at h
    · cases h
    · split at h
      · cases h
      · rename_i hpending
        rw [not_or, not_not, not_not] at hpending
        split at h
        · cases h
        · rename_i token htoken
          cases h
          refine ⟨?_, htoken, rfl⟩
          have hids : r.tree.pendingIds = [] := hpending.2
          have hlength := List.length_insertionSort (fun a b ↦ ¬ b < a)
            (r.tree.waiting.map Client.Upsert.id)
          rw [Namespace.pendingIds] at hids
          rw [hids, List.length_map] at hlength
          exact List.length_eq_zero_iff.mp hlength.symm

theorem exists_of_isOk (h : r.finish.isOk = true) : ∃ completed, r.finish = .ok completed := by
  match hfinish : r.finish with
  | .ok completed => exact ⟨completed, rfl⟩
  | .error e =>
    rw [hfinish] at h
    cases h

theorem Stopped.fileRefusal (h : r.Stopped) (refusal : Refusal) : (r.fileRefusal refusal).Stopped := by
  rw [Stopped] at h ⊢
  unfold Round.fileRefusal
  split
  · exact Or.inl (by cases hesc : r.escalation <;> simp)
  · split
    · split
      · exact h
      · exact Or.inl (by cases hesc : r.escalation <;> simp)
    · exact Or.inr (by simp)
  · split
    · exact h
    · exact h
  · split
    · exact h
    · exact h
  · exact Or.inr (by simp)

theorem Stopped.foldl_fileRefusal (h : r.Stopped) (refusals : List Refusal) :
    (refusals.foldl Round.fileRefusal r).Stopped := by
  induction refusals generalizing r with
  | nil => exact h
  | cons refusal refusals ih => exact ih (h.fileRefusal refusal)

/-- A refusal that is neither of an item to wait for nor of one without a key stops the round. -/
def Refusal.Stops (refusal : Refusal) : Prop :=
  refusal.key ≠ none ∧ refusal.why ≠ .blocked ∧ refusal.why ≠ .unsettled

theorem stopped_fileRefusal {refusal : Refusal} (h : Refusal.Stops refusal) :
    (r.fileRefusal refusal).Stopped := by
  obtain ⟨hkey, hblocked, hunsettled⟩ := h
  rw [Stopped]
  unfold fileRefusal
  split
  · exact Or.inl (by cases hesc : r.escalation <;> simp)
  · split
    · split
      · rename_i hnone
        exact absurd hnone hkey
      · exact Or.inl (by cases hesc : r.escalation <;> simp)
    · exact Or.inr (by simp)
  · rename_i hwhy
    exact absurd hwhy hblocked
  · rename_i hwhy
    exact absurd hwhy hunsettled
  · exact Or.inr (by simp)

theorem stopped_of_mem {refusals : List Refusal} {refusal : Refusal} (hmem : refusal ∈ refusals)
    (h : Refusal.Stops refusal) (r : Round) : (refusals.foldl Round.fileRefusal r).Stopped := by
  induction refusals generalizing r with
  | nil => cases hmem
  | cons other refusals ih =>
    rcases List.mem_cons.mp hmem with rfl | hmem
    · exact (stopped_fileRefusal h).foldl_fileRefusal refusals
    · exact ih hmem _

theorem Stopped.feed (h : r.Stopped) (scope : DriveScope) (page : DeltaPage) :
    (r.feed scope page).Stopped := by
  rw [Stopped, feed_escalation, feed_report]
  rw [Stopped] at h
  exact Stopped.foldl_fileRefusal (r := { r with
    index := (mapPage scope r.index r.tags page).1
    mounts := (mapPage scope r.index r.tags page).2.mounts.foldl addMount r.mounts }) h _

theorem Stopped.run (h : r.Stopped) (feeds : List (DriveScope × DeltaPage)) :
    (r.run feeds).Stopped := by
  induction feeds generalizing r with
  | nil => exact h
  | cons f feeds ih => exact ih (h.feed f.1 f.2)

/-- **An item that is refused for good stops the round.** -/
theorem stopped_feed {refusal : Refusal}
    (hmem : refusal ∈ (mapPage scope r.index r.tags page).2.refusals) (h : Refusal.Stops refusal) :
    (r.feed scope page).Stopped := by
  rw [Stopped, feed_escalation, feed_report]
  exact stopped_of_mem hmem h _

end Round

end HydrationAPI.Graph
