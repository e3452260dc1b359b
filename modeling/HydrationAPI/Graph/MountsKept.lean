import HydrationAPI.Graph.Discover
import HydrationAPI.Graph.RoundBudget

/-!
# Mounts, and the folders they hang on

A shared folder is described by a placeholder in the drive it is mounted in, and its contents by the
feed of its own drive. The mounts of a round are kept beside the tree: those that are stored with it
are enumerated again in every round, and to them come those the round has seen. Nothing takes a
mount out but a listing from nothing, so that a placeholder may go, and its mount may stay.
-/

namespace HydrationAPI.Graph

open HydrationAPI.Client (Namespace)
open GraphDiscover

/-- The feed of the drive ends with this page. -/
def DeltaPage.last (page : DeltaPage) : Bool :=
  match page.pageEnd with
  | .more _ => false
  | .done _ => true

/-! ## The mounts of a pass -/

namespace MountPoint

/-- The placeholder is in the tree. -/
def Hangs (m : MountPoint) (ns : Namespace) : Prop :=
  (ns.nodes.lookup m.placeholder.toCloudId).isSome = true

instance (m : MountPoint) (ns : Namespace) : Decidable (m.Hangs ns) :=
  inferInstanceAs (Decidable (_ = true))

/-- What is enumerated for the mount. -/
def scope (m : MountPoint) : DriveScope :=
  ⟨m.remote.drive, some ⟨m.placeholder, m.remote.item⟩⟩

/-- What hangs in the tree is in its snapshot. -/
theorem Hangs.mem_snapshot {m : MountPoint} {ns : Namespace} (h : m.Hangs ns) (hns : ns.Tree) :
    m.placeholder.toCloudId ∈ ns.snapshot.map Client.Item.id :=
  hns.mem_snapshot_ids.mpr (Option.isSome_iff_exists.mp h)

/-- Nothing waits for what hangs in the tree. -/
theorem Hangs.not_awaited {m : MountPoint} {ns : Namespace} (h : m.Hangs ns) (hns : ns.Sound)
    {u : Client.Upsert} (hu : u ∈ ns.waiting) : u.parent ≠ m.placeholder.toCloudId := by
  intro hparent
  have hunmet := hns.unmet u hu
  rw [Hangs, ← hparent, hunmet] at h
  cases h

end MountPoint

namespace GraphDiscover

section Queue

variable {queue : List DriveScope} {mounts : List MountPoint} {m k : MountPoint} {s : DriveScope}

theorem mem_queueMount (h : k ∈ (queueMount (queue, mounts) m).2) : k ∈ mounts ∨ k = m := by
  unfold queueMount at h
  dsimp only at h
  split at h
  · exact Or.inl h
  · split at h
    · exact List.mem_append.mp h |>.imp_right List.mem_singleton.mp
    · exact List.mem_append.mp h |>.imp_right List.mem_singleton.mp

theorem queueMount_mono (h : k ∈ mounts) : k ∈ (queueMount (queue, mounts) m).2 := by
  unfold queueMount
  dsimp only
  split
  · exact h
  · split
    · exact List.mem_append_left _ h
    · exact List.mem_append_left _ h

/-- A scope is queued with the mount it is of. -/
theorem scope_of_mem_queueMount (h : s ∈ (queueMount (queue, mounts) m).1) :
    s ∈ queue ∨ s = m.scope ∧ m ∈ (queueMount (queue, mounts) m).2 := by
  unfold queueMount at h ⊢
  dsimp only at h ⊢
  split at h
  · exact Or.inl h
  · rename_i hnew
    rw [if_neg hnew]
    split at h
    · exact Or.inl h
    · rename_i hfar
      rw [if_neg hfar]
      refine (List.mem_append.mp h).imp_right fun hs ↦ ⟨List.mem_singleton.mp hs, ?_⟩
      exact List.mem_append_right _ (List.mem_singleton_self m)

variable {queued : List DriveScope × List MountPoint} {ms : List MountPoint}

theorem mem_foldl_queueMount (h : k ∈ (ms.foldl queueMount queued).2) : k ∈ queued.2 ∨ k ∈ ms := by
  induction ms generalizing queued with
  | nil => exact Or.inl h
  | cons m ms ih =>
    rcases ih h with hk | hk
    · rcases mem_queueMount hk with hk | rfl
      · exact Or.inl hk
      · exact Or.inr List.mem_cons_self
    · exact Or.inr (List.mem_cons_of_mem m hk)

theorem foldl_queueMount_mono (h : k ∈ queued.2) : k ∈ (ms.foldl queueMount queued).2 := by
  induction ms generalizing queued with
  | nil => exact h
  | cons m ms ih => exact ih (queueMount_mono h)

theorem scope_of_mem_foldl_queueMount (h : s ∈ (ms.foldl queueMount queued).1) :
    s ∈ queued.1 ∨ ∃ m ∈ (ms.foldl queueMount queued).2, s = m.scope := by
  induction ms generalizing queued with
  | nil => exact Or.inl h
  | cons m ms ih =>
    rcases ih h with hs | hs
    · rcases scope_of_mem_queueMount hs with hs | ⟨rfl, hm⟩
      · exact Or.inl hs
      · have hkept : m ∈ (ms.foldl queueMount (queueMount queued m)).2 := foldl_queueMount_mono hm
        exact Or.inr ⟨m, hkept, rfl⟩
    · exact Or.inr hs

end Queue

/-! ## The tree of a pass -/

/-- No item takes the placeholder of one of the mounts out of the tree. -/
def Undisturbed (mounts : List MountPoint) (ns : Namespace) (items : List Client.Item) : Prop :=
  ∀ i < items.length, ∀ m ∈ mounts, m.Hangs (ns.applyAll (items.take i)) →
    m.Hangs (ns.applyAll (items.take (i + 1)))

instance (mounts : List MountPoint) (ns : Namespace) (items : List Client.Item) :
    Decidable (Undisturbed mounts ns items) := inferInstanceAs (Decidable (∀ i < _, _))

/-- What hangs in a tree hangs in it after the items. -/
theorem Undisturbed.hangs {mounts : List MountPoint} {ns : Namespace} {items : List Client.Item}
    {m : MountPoint} (h : Undisturbed mounts ns items) (hm : m ∈ mounts) (hhangs : m.Hangs ns) :
    m.Hangs (ns.applyAll items) := by
  have hall : ∀ i ≤ items.length, m.Hangs (ns.applyAll (items.take i)) := by
    intro i hi
    induction i with
    | zero => exact hhangs
    | succ i ih => exact h i hi m hm (ih (Nat.le_of_lt hi))
  have hlast := hall items.length le_rfl
  rwa [List.take_length] at hlast

section Tree

variable (source : PageSource) (stored : StoredView) (enumerate : Bool)

namespace Pass

/-- The tree a pass has come to. -/
def tree (p : Pass) : Namespace := (p.round.map Round.tree).getD (groundNamespace stored enumerate)

/-- The round a page is fed to: the first one pins the source of the tags. -/
def current (p : Pass) (page : DeltaPage) : Round :=
  p.round.getD (.new ((p.tags.or (probeTagSource page)).getD .cTag)
    (groundNamespace stored enumerate))

/-- What a page comes to. -/
def items (p : Pass) (scope : DriveScope) (page : DeltaPage) : List Client.Item :=
  (p.current stored enumerate page).pageItems scope page

/-- The mounts the round has seen once it is fed the page. -/
def seen (p : Pass) (scope : DriveScope) (page : DeltaPage) : List MountPoint :=
  ((p.current stored enumerate page).feed scope page).mounts

end Pass

/-- A page that is asked for in the feed of a drive, with the pass as it was, and the reply. -/
structure Visit where
  pass : Pass
  scope : DriveScope
  reply : Except Fault DeltaPage

/-- The pages a pass asks for. -/
def Pass.visits : ℕ → Pass → DriveScope → Fetch → List Event → List Visit
  | 0, _, _, _, _ => []
  | pages + 1, p, scope, what, log =>
    match fetch source what maxThrottleRetries log with
    | (.error fault, _) => [⟨p, scope, .error fault⟩]
    | (.ok page, log) =>
      ⟨p, scope, .ok page⟩ :: match p.turn stored enumerate scope page with
        | .ok (p', some (scope, what)) => visits pages p' scope what log
        | _ => []

/-- The page leaves the mounts of the pass where they hang, and when the feed of the drive has
ended, those that have been seen hang in the tree. -/
def Visit.Keeps (v : Visit) : Prop :=
  match v.reply with
  | .error _ => True
  | .ok page =>
    Undisturbed v.pass.mounts (v.pass.tree stored enumerate)
        (v.pass.items stored enumerate v.scope page)
      ∧ (page.last = true → ∀ m ∈ v.pass.seen stored enumerate v.scope page,
        m.Hangs ((v.pass.tree stored enumerate).applyAll
          (v.pass.items stored enumerate v.scope page)))

instance : ∀ v : Visit, Decidable (v.Keeps stored enumerate)
  | ⟨_, _, .error _⟩ => isTrue trivial
  | ⟨_, _, .ok _⟩ => inferInstanceAs (Decidable (_ ∧ _))

/-- The mounts of a pass hang in its tree, and what is queued is the drive of the round, or that of
a mount. -/
structure Pass.Hung (p : Pass) (scope : DriveScope) : Prop where
  hangs : ∀ m ∈ p.mounts, m.Hangs (p.tree stored enumerate)
  queue : ∀ s ∈ p.queue, s = scope ∨ ∃ m ∈ p.mounts, s = m.scope
  sound : (p.tree stored enumerate).Sound

end Tree

namespace Pass

variable {source : PageSource} {stored : StoredView} {enumerate : Bool} {what : Fetch}
  {primary scope scope' : DriveScope} {log : List Event} {p p' : Pass} {page : DeltaPage}
  {pages : ℕ}

theorem feed_round (p : Pass) (scope : DriveScope) (page : DeltaPage) :
    (p.feed stored enumerate scope page).round
      = some ((p.current stored enumerate page).feed scope page) := by
  rw [feed, current]
  cases p.round <;> rfl

theorem feed_frame (stored : StoredView) (enumerate : Bool) (p : Pass) (scope : DriveScope)
    (page : DeltaPage) :
    (p.feed stored enumerate scope page).mounts = p.mounts
      ∧ (p.feed stored enumerate scope page).queue = p.queue := by
  unfold feed
  split <;> exact ⟨rfl, rfl⟩

theorem current_tree (p : Pass) (page : DeltaPage) :
    (p.current stored enumerate page).tree = p.tree stored enumerate := by
  rw [current, tree]
  cases p.round <;> rfl

/-- The tree goes by the round alone. -/
theorem tree_congr (h : p'.round = p.round) :
    p'.tree stored enumerate = p.tree stored enumerate := by
  rw [tree, tree, h]

theorem feed_tree (stored : StoredView) (enumerate : Bool) (p : Pass) (scope : DriveScope)
    (page : DeltaPage) :
    (p.feed stored enumerate scope page).tree stored enumerate
      = (p.tree stored enumerate).applyAll (p.items stored enumerate scope page) := by
  rw [tree, feed_round, Option.map_some, Option.getD_some, Round.feed_tree, current_tree]
  rfl

theorem enter_frame (stored : StoredView) (enumerate : Bool) (p : Pass) (scope : DriveScope) :
    (p.enter stored enumerate scope).mounts = p.mounts
      ∧ (p.enter stored enumerate scope).queue = p.queue := by
  unfold enter
  split <;> exact ⟨rfl, rfl⟩

theorem Hung.congr (h : p.Hung stored enumerate primary) (hround : p'.round = p.round)
    (hmounts : p'.mounts = p.mounts) (hqueue : p'.queue = p.queue) :
    p'.Hung stored enumerate primary := by
  have htree : p'.tree stored enumerate = p.tree stored enumerate := tree_congr hround
  constructor
  · rw [hmounts, htree]
    exact h.hangs
  · rw [hmounts, hqueue]
    exact h.queue
  · rw [htree]
    exact h.sound

/-- A page is fed. -/
theorem Hung.feed (h : p.Hung stored enumerate primary)
    (hpage : Undisturbed p.mounts (p.tree stored enumerate)
      (p.items stored enumerate scope page)) :
    (p.feed stored enumerate scope page).Hung stored enumerate primary := by
  obtain ⟨hmounts, hqueue⟩ := feed_frame stored enumerate p scope page
  have htree := feed_tree stored enumerate p scope page
  constructor
  · rw [hmounts, htree]
    exact fun m hm ↦ hpage.hangs hm (h.hangs m hm)
  · rw [hmounts, hqueue]
    exact h.queue
  · rw [htree]
    exact h.sound.applyAll _

/-- The feed of a drive has ended. -/
theorem Hung.close {link : String} (h : p.Hung stored enumerate primary)
    (hseen : ∀ m ∈ (p.round.map Round.mounts).getD [], m.Hangs (p.tree stored enumerate)) :
    (p.close scope link).Hung stored enumerate primary := by
  have htree : (p.close scope link).tree stored enumerate = p.tree stored enumerate :=
    tree_congr rfl
  constructor
  · rw [htree]
    exact fun m hm ↦ (mem_foldl_queueMount hm).elim (h.hangs m) (hseen m)
  · intro s hs
    rcases scope_of_mem_foldl_queueMount hs with hs | hs
    · refine (h.queue s hs).imp_right ?_
      rintro ⟨m, hm, rfl⟩
      exact ⟨m, foldl_queueMount_mono hm, rfl⟩
    · exact Or.inr hs
  · rw [htree]
    exact h.sound

/-- **What a page leads to**, if it leaves the mounts where they hang. -/
theorem Hung.turn {next : Option (DriveScope × Fetch)} (h : p.Hung stored enumerate primary)
    (hscope : scope = primary ∨ ∃ m ∈ p.mounts, scope = m.scope)
    (hkeeps : (⟨p, scope, .ok page⟩ : Visit).Keeps stored enumerate)
    (hturn : p.turn stored enumerate scope page = .ok (p', next)) :
    p'.Hung stored enumerate primary
      ∧ ∀ n ∈ next, n.1 = primary ∨ ∃ m ∈ p'.mounts, n.1 = m.scope := by
  rw [Visit.Keeps] at hkeeps
  obtain ⟨hpage, hlast⟩ := hkeeps
  have hfed := h.feed hpage
  have hseen : ((p.feed stored enumerate scope page).round.map Round.mounts).getD []
      = p.seen stored enumerate scope page := by
    rw [feed_round, Option.map_some, Option.getD_some, seen]
  unfold Pass.turn at hturn
  dsimp only at hturn
  split at hturn
  · rename_i link hend
    have hclosed : ((p.feed stored enumerate scope page).close scope link).Hung stored enumerate
        primary := by
      have hdone : page.last = true := by rw [DeltaPage.last, hend]
      refine hfed.close fun m hm ↦ ?_
      rw [hseen] at hm
      rw [feed_tree]
      exact hlast hdone m hm
    split at hturn
    · cases hturn
    · split at hturn
      · cases hturn
        exact ⟨hclosed, nofun⟩
      · rename_i scope' hqueue
        cases hturn
        set closed := (p.feed stored enumerate scope page).close scope link
        obtain ⟨hmounts, hsame⟩ := enter_frame stored enumerate
          { closed with entered := closed.entered + 1 } scope'
        have hround : ({ closed with entered := closed.entered + 1 }.enter stored enumerate
          scope').round = closed.round := (enter_round _ scope').1
        refine ⟨hclosed.congr hround hmounts hsame, fun n hn ↦ ?_⟩
        cases hn
        rw [hmounts]
        exact hclosed.queue scope' (List.mem_of_getElem? hqueue)
  · split at hturn
    · cases hturn
    · split at hturn
      · cases hturn
      · cases hturn
        refine ⟨hfed.congr rfl rfl rfl, fun n hn ↦ ?_⟩
        cases hn
        rw [(feed_frame stored enumerate p scope page).1]
        exact hscope

/-- **A pass whose pages all leave the mounts where they hang.** -/
theorem Hung.run (h : p.Hung stored enumerate primary)
    (hscope : scope = primary ∨ ∃ m ∈ p.mounts, scope = m.scope)
    (hkeeps : ∀ v ∈ visits source stored enumerate pages p scope what log,
      v.Keeps stored enumerate) :
    (∀ p' log', run source stored enumerate pages p scope what log = (.ok p', log') →
      p'.Hung stored enumerate primary)
    ∧ ∀ v ∈ visits source stored enumerate pages p scope what log,
      v.pass.Hung stored enumerate primary
        ∧ (v.scope = primary ∨ ∃ m ∈ v.pass.mounts, v.scope = m.scope) := by
  induction pages generalizing p scope what log with
  | zero =>
    refine ⟨fun p' log' hrun ↦ ?_, fun v hv ↦ ?_⟩
    · rw [Pass.run] at hrun
      cases (Prod.mk.inj hrun).1
    · rw [visits] at hv
      exact (List.not_mem_nil hv).elim
  | succ pages ih =>
    rw [run_succ]
    rw [visits] at hkeeps ⊢
    generalize fetch source what maxThrottleRetries log = reply at hkeeps ⊢
    rcases reply with ⟨fault | page, log₁⟩
    · refine ⟨fun p' log' hrun ↦ (by cases (Prod.mk.inj hrun).1), fun v hv ↦ ?_⟩
      rw [List.mem_singleton.mp hv]
      exact ⟨h, hscope⟩
    dsimp only at hkeeps ⊢
    have hone := hkeeps _ List.mem_cons_self
    rcases hturn : p.turn stored enumerate scope page with fault | ⟨q, _ | ⟨scope', what'⟩⟩
    · rw [hturn] at hkeeps
      refine ⟨fun p' log' hrun ↦ (by cases (Prod.mk.inj hrun).1), fun v hv ↦ ?_⟩
      rw [List.mem_singleton.mp hv]
      exact ⟨h, hscope⟩
    · refine ⟨fun p' log' hrun ↦ ?_, fun v hv ↦ ?_⟩
      · cases hrun
        exact (h.turn hscope hone hturn).1
      · rw [List.mem_singleton.mp hv]
        exact ⟨h, hscope⟩
    · rw [hturn] at hkeeps
      obtain ⟨hq, hnext⟩ := h.turn hscope hone hturn
      obtain ⟨hend, hlater⟩ := ih hq (hnext _ rfl) fun v hv ↦
        hkeeps v (List.mem_cons_of_mem _ hv)
      refine ⟨hend, fun v hv ↦ ?_⟩
      rcases List.mem_cons.mp hv with rfl | hv
      · exact ⟨h, hscope⟩
      · exact hlater v hv

theorem start_mounts : (Pass.start stored enumerate scope).mounts ⊆ stored.mounts := by
  intro m hm
  rw [Pass.start] at hm
  cases enumerate with
  | true => exact (List.not_mem_nil hm).elim
  | false => exact (mem_foldl_queueMount hm).resolve_left List.not_mem_nil

theorem Hung.start (h : ∀ m ∈ (Pass.start stored enumerate scope).mounts,
    m.Hangs (groundNamespace stored enumerate)) :
    ((Pass.start stored enumerate scope).enter stored enumerate scope).Hung stored enumerate
      scope := by
  have hground : (groundNamespace stored enumerate).Sound := by
    rw [groundNamespace]
    split
    · exact Client.Namespace.Sound.new
    · exact Client.Namespace.Sound.restore stored.items
  have hstart : (Pass.start stored enumerate scope).Hung stored enumerate scope := by
    refine ⟨h, fun s hs ↦ ?_, hground⟩
    rw [Pass.start] at hs ⊢
    cases enumerate with
    | true => exact Or.inl (List.mem_singleton.mp hs)
    | false =>
      exact (scope_of_mem_foldl_queueMount hs).imp_left List.mem_singleton.mp
  obtain ⟨hmounts, hqueue⟩ := enter_frame stored enumerate (Pass.start stored enumerate scope) scope
  exact hstart.congr (enter_round _ scope).1 hmounts hqueue

/-- What a pass comes to is its tree and those of its mounts whose drives are in its queue. -/
theorem conclude_tree {done : Attempt} (h : conclude stored enumerate p = .ok done) :
    done.items = (p.tree stored enumerate).snapshot ∧ done.mounts ⊆ p.mounts := by
  have hround : (p.round.getD (.new .cTag (groundNamespace stored enumerate))).tree
      = p.tree stored enumerate := by
    rw [tree]
    cases p.round <;> rfl
  unfold conclude at h
  dsimp only at h
  split at h
  · cases h
  · split at h <;> cases h <;> exact ⟨congrArg Namespace.snapshot hround, List.filter_subset_self _⟩

end Pass

/-! ## Rounds -/

section Round

variable (source : PageSource) (scope : DriveScope) (stored : StoredView)

/-- Whether the attempt lists the drive from nothing. -/
def enumerates (force : Bool) : Bool := force || (stored.tokens.get scope.drive).isNone

/-- The pages an attempt asks for. -/
def attemptVisits (force : Bool) (log : List Event) : List Visit :=
  let enumerate := enumerates scope stored force
  let p := (Pass.start stored enumerate scope).enter stored enumerate scope
  Pass.visits source stored enumerate maxPagesPerRound p scope (entry stored enumerate scope) log

/-- The attempts of a round. -/
def attempts : List (Bool × List Event) :=
  (false, []) :: match attempt source scope stored false [] with
    | (.error .resync, log) => [(true, log)]
    | _ => []

/-- A round begins with the placeholders of its mounts that are stored, and its pages leave them in
the tree. -/
def Keeping : Prop :=
  ∀ a ∈ attempts source scope stored,
    (∀ m ∈ (Pass.start stored (enumerates scope stored a.1) scope).mounts,
      m.placeholder.toCloudId ∈ stored.items.map Client.Item.id →
      m.Hangs (groundNamespace stored (enumerates scope stored a.1)))
    ∧ ∀ v ∈ attemptVisits source scope stored a.1 a.2,
      v.Keeps stored (enumerates scope stored a.1)

instance : Decidable (Keeping source scope stored) := inferInstanceAs (Decidable (∀ a ∈ _, _))

/-- A round keeps its mounts and the tree in step. -/
structure Consistent : Prop where
  /-- What is stored with a tree hangs in it. -/
  persisted : ∀ done, (attempted source scope stored).1 = .ok done →
    ∀ m ∈ done.mounts, m.placeholder.toCloudId ∈ done.items.map Client.Item.id
  /-- What is enumerated hangs in the tree of the round. -/
  enumerated : ∀ a ∈ attempts source scope stored,
    ∀ v ∈ attemptVisits source scope stored a.1 a.2, v.scope = scope
      ∨ ∃ m ∈ v.pass.mounts, v.scope = m.scope
        ∧ m.Hangs (v.pass.tree stored (enumerates scope stored a.1))
  /-- Nothing comes to wait for a placeholder. -/
  waiting : ∀ a ∈ attempts source scope stored,
    ∀ v ∈ attemptVisits source scope stored a.1 a.2, ∀ page, v.reply = .ok page →
    ∀ m ∈ v.pass.mounts, ∀ u ∈ ((v.pass.feed stored (enumerates scope stored a.1) v.scope
      page).tree stored (enumerates scope stored a.1)).waiting,
    u.parent ≠ m.placeholder.toCloudId

end Round

/-- Nothing was applied, and nothing else is new. -/
def Attempt.unchanged (done : Attempt) (stored : StoredView) : Bool :=
  ¬ done.enumerated ∧ done.applied = 0 ∧ done.removals = [] ∧ done.mounts = stored.mounts
    ∧ stored.tags = some done.tags

theorem derived_tree (text : Serde.Text) (scope : DriveScope) (serial : ℕ) (stored : StoredView)
    (done : Attempt) : (derived text scope serial stored done).tree.isNone
      = done.unchanged stored := by
  rw [derived, Attempt.unchanged]
  dsimp only
  split <;> simp_all

/-- What may be stored once a round has completed: its token, if the tree on disk is still the tree,
and otherwise its tree, with its token or with the one from before. -/
inductive Saved (stored : StoredView) (done : Attempt) : StoredView → Prop
  | unchanged : done.unchanged stored = true →
    Saved stored done { stored with tokens := done.tokens }
  | changed (tokens : TokenBlob) : done.unchanged stored = false →
    tokens = done.tokens ∨ tokens = stored.tokens →
    Saved stored done
      ⟨done.items, some done.tags, done.mounts, tokens, stored.generation + 1⟩

/-- What is stored after some rounds that meet a condition, from nothing on. A round that fails, or
whose writes are lost, leaves what is stored alone. -/
inductive StoredAfter (scope : DriveScope) (meets : PageSource → StoredView → Prop) :
    StoredView → Prop
  | nothing : StoredAfter scope meets .nothing
  | round {stored stored' : StoredView} {done : Attempt} (source : PageSource) :
    StoredAfter scope meets stored → meets source stored →
    (attempted source scope stored).1 = .ok done → Saved stored done stored' →
    StoredAfter scope meets stored'

section Kept

variable {source : PageSource} {scope : DriveScope} {stored : StoredView} {done : Attempt}
  {force : Bool} {log : List Event}

/-- The attempt a round ends with is one of its attempts. -/
theorem exists_attempt (h : (attempted source scope stored).1 = .ok done) :
    ∃ a ∈ attempts source scope stored, (attempt source scope stored a.1 a.2).1 = .ok done := by
  by_cases hresync : ∃ log, attempt source scope stored false [] = (.error .resync, log)
  · obtain ⟨log, hlog⟩ := hresync
    rw [attempted, hlog] at h
    rw [attempts, hlog]
    exact ⟨(true, log), List.mem_cons_of_mem _ List.mem_cons_self, h⟩
  · have hfirst : attempted source scope stored = attempt source scope stored false [] := by
      unfold attempted
      split
      · rename_i log hlog
        exact absurd ⟨log, hlog⟩ hresync
      · rfl
    rw [hfirst] at h
    exact ⟨(false, []), List.mem_cons_self, h⟩

/-- **A round whose pages leave the mounts where they hang** keeps them and the tree in step. -/
theorem Keeping.consistent (h : Keeping source scope stored)
    (hstored : ∀ m ∈ stored.mounts, m.placeholder.toCloudId ∈ stored.items.map Client.Item.id) :
    Consistent source scope stored := by
  have hall (a : Bool × List Event) (ha : a ∈ attempts source scope stored) :=
    (Pass.Hung.start fun m hm ↦ (h a ha).1 m hm (hstored m (Pass.start_mounts hm))).run (Or.inl rfl)
      (h a ha).2
  constructor
  · intro done hdone m hm
    obtain ⟨a, ha, hattempt⟩ := exists_attempt hdone
    unfold attempt at hattempt
    dsimp only at hattempt
    split at hattempt
    · cases hattempt
    · rename_i p log' hrun
      have hp := (hall a ha).1 p log' hrun
      obtain ⟨hitems, hmounts⟩ := Pass.conclude_tree hattempt
      rw [hitems]
      exact (hp.hangs m (hmounts hm)).mem_snapshot hp.sound.tree
  · intro a ha v hv
    obtain ⟨hp, hscope⟩ := (hall a ha).2 v hv
    refine hscope.imp_right ?_
    rintro ⟨m, hm, heq⟩
    exact ⟨m, hm, heq, hp.hangs m hm⟩
  · intro a ha v hv page hreply m hm u hu
    obtain ⟨hp, -⟩ := (hall a ha).2 v hv
    have hkeeps := (h a ha).2 v hv
    rw [Visit.Keeps, hreply] at hkeeps
    have hfed := hp.feed hkeeps.1
    have hhangs := hfed.hangs m ((Pass.feed_frame _ _ v.pass v.scope page).1 ▸ hm)
    exact hhangs.not_awaited hfed.sound hu

/-- **Mounts and trees over all rounds**: as long as no page of a round takes the placeholder of a
mount away, every mount that is stored with a tree hangs in it, and so does in the tree of a round
every mount that is enumerated in it, and nothing waits for it. -/
theorem mounts_kept (h : StoredAfter scope (Keeping · scope ·) stored) :
    (∀ m ∈ stored.mounts, m.placeholder.toCloudId ∈ stored.items.map Client.Item.id)
      ∧ ∀ source, Keeping source scope stored → Consistent source scope stored := by
  have hstored : ∀ m ∈ stored.mounts,
      m.placeholder.toCloudId ∈ stored.items.map Client.Item.id := by
    induction h with
    | nothing => exact nofun
    | round source hbefore hkeeping hdone hsaved ih =>
      cases hsaved with
      | unchanged => exact ih
      | changed tokens => exact (hkeeping.consistent ih).persisted _ hdone
  exact ⟨hstored, fun source hkeeping ↦ hkeeping.consistent hstored⟩

end Kept

/-! ### A shared folder that comes and goes -/

/-- A folder of another drive, as the drive shows it that it is shared with. -/
def sharedFolder : DriveItem :=
  { sampleFolder "p" "r" with
    remoteItem := some ⟨some "x", none, none, none, true, false, false, false,
      some ⟨some "far", none⟩⟩ }

/-- A reply with these items, which ends the feed. -/
def lastPage (items : List DriveItem) (link : String) : Except IoError RawPage :=
  .ok (.read (.ok ⟨items, .done link⟩))

/-- The folder is there when the drive is listed, and has been deleted since. -/
def sharingPages : PageSource := fun _ what ↦
  match what with
  | .first ⟨_, none⟩ => lastPage [{ sampleFolder "r" "r" with
      root := true, parentReference := none }, sharedFolder] "https://graph.microsoft.com/t"
  | .resume "https://graph.microsoft.com/t" =>
    lastPage [sampleTombstone "p" "r"] "https://graph.microsoft.com/t"
  | _ => lastPage [] "https://graph.microsoft.com/f"

/-- A file arrives in the shared folder. -/
def arrivingPages : PageSource := fun _ what ↦
  match what with
  | .resume "https://graph.microsoft.com/f" =>
    lastPage [sampleFile "n" "x"] "https://graph.microsoft.com/f"
  | _ => lastPage [] "https://graph.microsoft.com/t"

/-- What is stored once the drive has been listed. -/
def sharedStored : StoredView :=
  match (attempted sharingPages sampleDrive .nothing).1 with
  | .ok done => ⟨done.items, some done.tags, done.mounts, done.tokens, 1⟩
  | .error _ => .nothing

theorem storedAfter_sharedStored {meets : PageSource → StoredView → Prop}
    (h : meets sharingPages .nothing) : StoredAfter sampleDrive meets sharedStored := by
  have hchanged : (attempted sharingPages sampleDrive .nothing).1.toOption.all
      (fun done ↦ done.unchanged .nothing = false) = true := by
    decide +kernel
  rw [sharedStored]
  cases hdone : (attempted sharingPages sampleDrive .nothing).1 with
  | error e => exact .nothing
  | ok done =>
    rw [hdone] at hchanged
    exact .round sharingPages .nothing h hdone
      (.changed done.tokens (of_decide_eq_true hchanged) (Or.inl rfl))

theorem mounts_kept_arriving : sharedStored.mounts ≠ []
    ∧ (∀ m ∈ sharedStored.mounts,
      m.placeholder.toCloudId ∈ sharedStored.items.map Client.Item.id)
    ∧ Consistent arrivingPages sampleDrive sharedStored := by
  have hsharing : Keeping sharingPages sampleDrive .nothing := by decide +kernel
  have harriving : Keeping arrivingPages sampleDrive sharedStored := by decide +kernel
  obtain ⟨hhangs, hround⟩ := mounts_kept (storedAfter_sharedStored hsharing)
  exact ⟨by decide +kernel, hhangs, hround arrivingPages harriving⟩

/-- The folder has gone, and its mount is stored without it. -/
theorem mount_outlives_placeholder :
    ¬ ∀ stored, StoredAfter sampleDrive (fun _ _ ↦ True) stored →
      ∀ source, Consistent source sampleDrive stored := by
  intro h
  have hgone : (attempted sharingPages sampleDrive sharedStored).1.toOption.any
      (fun done ↦ ∃ m ∈ done.mounts,
        m.placeholder.toCloudId ∉ done.items.map Client.Item.id) = true := by
    decide +kernel
  have hround := h sharedStored (storedAfter_sharedStored trivial) sharingPages
  cases hdone : (attempted sharingPages sampleDrive sharedStored).1 with
  | error e =>
    rw [hdone] at hgone
    cases hgone
  | ok done =>
    rw [hdone] at hgone
    obtain ⟨m, hm, hnot⟩ := of_decide_eq_true hgone
    exact hnot (hround.persisted done hdone m hm)

end GraphDiscover

end HydrationAPI.Graph
