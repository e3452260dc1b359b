import HydrationAPI.Client.Inotify

/-!
# Removals that are reported where they were made

The map from watches to paths says of a directory where a walk has met it last. A removal that is
read while that is where it was made is reported under the path of what was removed, in the drain
that reads it or, of a name that was moved away, in the one after. What has moved on since it was
met, or has left the tree with its watch, is reported under a path that it was not removed from.
-/

namespace HydrationAPI.Client

namespace Removals

variable {r : Removals}

/-! ## The map from watches to paths -/

@[simp] theorem dirs_rememberFolder (rel cloudId : String) (etag : Option String) :
    (r.rememberFolder rel cloudId etag).dirs = r.dirs := by
  rw [rememberFolder]
  split <;> rfl

@[simp] theorem dirs_recordFolder (w : Walked) : (r.recordFolder w).dirs = r.dirs := by
  rw [recordFolder]
  split
  · rfl
  · split
    · rfl
    · exact dirs_rememberFolder ..

theorem dirs_restore (gone : List FolderGone) : (r.restore gone).dirs = r.dirs := by
  induction gone generalizing r with
  | nil => rfl
  | cons folder gone ih =>
    rw [restore, List.foldl_cons, ← restore, ih]
    split
    · exact dirs_rememberFolder ..
    · rfl

theorem dirs_moveRecords (renamed : List Renamed) : (r.moveRecords renamed).dirs = r.dirs := by
  induction renamed generalizing r with
  | nil => rfl
  | cons item renamed ih =>
    rw [moveRecords, List.foldl_cons, ← moveRecords, ih]
    split
    · split
      · exact dirs_rememberFolder ..
      · rfl
    · rfl

theorem dirs_reportMovedOut (out : Batch) (items : List MoveHalf) :
    (r.reportMovedOut out items).1.dirs = r.dirs := by
  induction items generalizing r out with
  | nil => rfl
  | cons item items ih =>
    rw [reportMovedOut]
    split
    · exact ih _
    · exact ih _

/-- A drain leaves the map as reading has made it. -/
theorem dirs_take (d : Drain) : (r.take d).1.dirs = (r.reading d).removals.dirs := by
  rw [take]
  dsimp only
  split
  · exact dirs_restore _
  · exact (dirs_moveRecords _).trans (dirs_reportMovedOut _ _)

theorem locate_eq_some {e : Event} {path : String} (h : r.locate e = some path) :
    ∃ dir name, r.dirs.lookup e.wd = some dir ∧ e.name = some name
      ∧ path = Inotify.join dir name := by
  cases hname : e.name with
  | none =>
    rw [locate, hname] at h
    cases hdir : r.dirs.lookup e.wd <;> simp [hdir] at h
  | some name =>
    rw [locate, hname, Option.getD_some] at h
    cases hdir : r.dirs.lookup e.wd with
    | none => simp [hdir] at h
    | some dir =>
      refine ⟨dir, name, rfl, rfl, ?_⟩
      rw [hdir] at h
      by_cases hempty : name = ""
      · simp [hempty] at h
      · by_cases hroot : dir = ""
        · simpa [hempty, hroot, Inotify.join, eq_comm] using h
        · simpa [hempty, hroot, Inotify.join, eq_comm] using h

end Removals

namespace Inotify

variable {past : List (Files × Op)} {met : Places} {r : Removals} {s : Reading} {e : Event}

theorem Removed.mono {more : List (Files × Op)} {path : String} {isDir : Bool}
    (h : Removed past path isDir) : Removed (past ++ more) path isDir := by
  obtain ⟨fs, o, d, p, n, node, hpast, hrest⟩ := h
  exact ⟨fs, o, d, p, n, node, List.mem_append_left _ hpast, hrest⟩

/-- A walk takes the directories that it meets into the map, each where it is met. -/
theorem lookup_addTree (walk : List Walked)
    (h : ∀ d p, r.dirs.lookup d = some p → met d = some p) :
    ∀ d p, (r.addTree walk).dirs.lookup d = some p → met.meet walk d = some p := by
  induction walk generalizing r met with
  | nil => exact h
  | cons w walk ih =>
    rw [Removals.addTree, List.foldl_cons, ← Removals.addTree, Places.meet, List.foldl_cons,
      ← Places.meet]
    refine ih fun d p hd ↦ ?_
    rw [Removals.dirs_recordFolder, Removals.addOne] at hd
    cases hwd : w.wd with
    | none =>
      rw [hwd] at hd
      exact h d p hd
    | some k =>
      rw [hwd] at hd
      dsimp only at hd ⊢
      by_cases hdk : d = k
      · rw [hdk, AList.lookup_insert] at hd
        rw [hdk, Function.update_self, ← hd]
      · rw [AList.lookup_insert_ne hdk] at hd
        rw [Function.update_of_ne hdk]
        exact h d p hd

/-! ## Reading -/

/-- What has been read of a drain names what was removed, and the map has the directories where
walks have met them. -/
structure Faithful (past : List (Files × Op)) (met : Places) (s : Reading) : Prop where
  dirs : ∀ d p, s.removals.dirs.lookup d = some p → met d = some p
  gone : ∀ g ∈ s.out.gone, Removed past g.path false
  folders : ∀ g ∈ s.out.foldersGone, Removed past g.path true
  moved : ∀ c v, s.movedFrom.lookup c = some v → Removed past v.path v.isDir

namespace Faithful

theorem mono {more : List (Files × Op)} (h : Faithful past met s) :
    Faithful (past ++ more) met s :=
  ⟨h.dirs, fun g hg ↦ (h.gone g hg).mono, fun g hg ↦ (h.folders g hg).mono,
    fun c v hv ↦ (h.moved c v hv).mono⟩

/-- Nothing has been read yet. -/
theorem start (h : ∀ d p, r.dirs.lookup d = some p → met d = some p) :
    Faithful past met r.start :=
  ⟨h, fun _ hg ↦ absurd hg List.not_mem_nil, fun _ hg ↦ absurd hg List.not_mem_nil,
    fun _ _ hv ↦ by cases hv⟩

/-- An event about a path, which of a removal is that of what was removed. -/
theorem readAt (h : Faithful past met s) {path : String}
    (hwalk : e.walk = [] ∨ e.isDir = true ∧ (e.kind = .create ∨ e.kind = .movedTo))
    (hremoved : e.kind = .delete ∨ e.kind = .movedFrom → Removed past path e.isDir) :
    Faithful past (met.meet e.walk) (s.readAt e path) := by
  -- only what comes into the tree is walked
  have hquiet : ¬(e.isDir = true ∧ (e.kind = .create ∨ e.kind = .movedTo)) →
      met.meet e.walk = met := by
    intro hnot
    rw [hwalk.resolve_right hnot]
    rfl
  rw [Reading.readAt]
  split
  · rename_i hkind
    split
    · exact ⟨lookup_addTree _ h.dirs, h.gone, h.folders, h.moved⟩
    · rename_i hfile
      rw [hquiet fun hdir ↦ hfile hdir.1]
      exact h
  · rename_i hkind
    split
    · exact ⟨lookup_addTree _ h.dirs, h.gone, h.folders, h.moved⟩
    · rename_i hfile
      rw [hquiet fun hdir ↦ hfile hdir.1]
      exact ⟨h.dirs, h.gone, h.folders, h.moved⟩
  · rename_i hkind
    rw [hquiet (by simp [hkind])]
    refine ⟨h.dirs, h.gone, h.folders, fun c v hv ↦ ?_⟩
    by_cases hc : c = e.cookie
    · dsimp only at hv
      rw [hc, AList.lookup_insert, Option.some_inj] at hv
      rw [← hv]
      exact hremoved (.inr hkind)
    · dsimp only at hv
      rw [AList.lookup_insert_ne hc] at hv
      exact h.moved c v hv
  · rename_i hkind
    rw [hquiet (by simp [hkind])]
    have hpath := hremoved (.inl hkind)
    split
    · rename_i hdir
      rw [hdir] at hpath
      refine ⟨h.dirs, h.gone, fun g hg ↦ ?_, h.moved⟩
      rcases List.mem_append.mp hg with hg | hg
      · exact h.folders g hg
      · rw [List.mem_singleton.mp hg]
        exact hpath
    · rename_i hfile
      rw [Bool.eq_false_of_not_eq_true hfile] at hpath
      refine ⟨h.dirs, fun g hg ↦ ?_, h.folders, h.moved⟩
      rcases List.mem_append.mp hg with hg | hg
      · exact h.gone g hg
      · rw [List.mem_singleton.mp hg]
        exact hpath
  · rename_i hkind
    rw [hquiet (by simp [hkind])]
    exact h
  · rename_i hkind
    rw [hquiet (by simp [hkind])]
    exact h

/-- **One event.** -/
theorem read (h : Faithful past met s)
    (hwalk : e.walk = [] ∨ (∃ path, s.removals.locate e = some path) ∧ e.isDir = true
      ∧ (e.kind = .create ∨ e.kind = .movedTo))
    (hremoved : e.kind = .delete ∨ e.kind = .movedFrom →
      ∀ path, s.removals.locate e = some path → Removed past path e.isDir) :
    Faithful past (met.meet e.walk) (s.read e) := by
  rw [Reading.read]
  split
  · rename_i hkind
    rw [hwalk.resolve_right (by simp [hkind])]
    exact ⟨h.dirs, h.gone, h.folders, h.moved⟩
  · rename_i hkind
    rw [hwalk.resolve_right (by simp [hkind])]
    refine ⟨fun d p hd ↦ ?_, h.gone, h.folders, h.moved⟩
    dsimp only at hd
    by_cases hdk : d = e.wd
    · rw [hdk, AList.lookup_erase] at hd
      cases hd
    · rw [AList.lookup_erase_ne hdk] at hd
      exact h.dirs d p hd
  · cases hlocate : s.removals.locate e with
    | none =>
      rw [hwalk.resolve_right (by simp [hlocate])]
      exact h
    | some path =>
      exact h.readAt (hwalk.imp_right And.right) fun hkind ↦ hremoved hkind path hlocate

end Faithful

/-! ## Settling -/

/-- What is reported has been removed. -/
def Real (past : List (Files × Op)) (b : Batch) : Prop :=
  (∀ g ∈ b.gone, Removed past g.path false) ∧ ∀ g ∈ b.foldersGone, Removed past g.path true

theorem Real.mono {more : List (Files × Op)} {b : Batch} (h : Real past b) :
    Real (past ++ more) b :=
  ⟨fun g hg ↦ (h.1 g hg).mono, fun g hg ↦ (h.2 g hg).mono⟩

variable {d : Drain}

/-- What is taken for moved out is left over from the drain before. -/
theorem mem_movedOut {v : MoveHalf} (h : v ∈ (r.settled d).movedOut) :
    ∃ c, r.pendingMoves.lookup c = some v := by
  rw [Removals.settled, settleMoves] at h
  split at h
  · cases h
  · obtain ⟨e, he, rfl⟩ := List.mem_map.mp h
    have hlookup := AList.mem_lookup_iff.mpr ((d.order.perm _).mem_iff.mp he)
    exact ⟨e.1, (Pairing.lookup_previous_foldl.mp hlookup).2⟩

theorem lookup_current_pair_some {p : Pairing} {e : Sigma fun _ : UInt32 ↦ MoveHalf} {c : UInt32}
    {v : MoveHalf} (h : (p.pair e).current.lookup c = some v) : p.current.lookup c = some v := by
  rw [Pairing.pair] at h
  split at h
  · exact h
  · dsimp only at h
    by_cases hc : c = e.1
    · rw [hc, AList.lookup_erase] at h
      cases h
    · rwa [AList.lookup_erase_ne hc] at h
  · exact h

/-- What is kept for another drain was read in this one. -/
theorem lookup_pending {c : UInt32} {v : MoveHalf}
    (h : (r.settled d).pending.lookup c = some v) :
    (r.reading d).movedFrom.lookup c = some v := by
  rw [Removals.settled, settleMoves] at h
  split at h
  · cases h
  · dsimp only at h
    have hfold : ∀ (es : List (Sigma fun _ : UInt32 ↦ MoveHalf)) (p : Pairing),
        (es.foldl Pairing.pair p).current.lookup c = some v → p.current.lookup c = some v := by
      intro es
      induction es with
      | nil => exact fun _ h ↦ h
      | cons e es ih => exact fun p h ↦ lookup_current_pair_some (ih _ h)
    exact hfold _ _ h

/-- **One drain.** -/
theorem Faithful.take (h : Faithful past met (r.reading d))
    (hpending : ∀ c v, r.pendingMoves.lookup c = some v → Removed past v.path v.isDir) :
    Real past (r.take d).2
      ∧ ∀ c v, (r.take d).1.pendingMoves.lookup c = some v → Removed past v.path v.isDir := by
  by_cases hlost : (r.reading d).removals.lost = true
  · rw [Removals.take]
    dsimp only
    rw [if_pos hlost]
    refine ⟨⟨fun _ hg ↦ absurd hg List.not_mem_nil, fun _ hg ↦ absurd hg List.not_mem_nil⟩, ?_⟩
    intro c v hv
    rw [Removals.pendingMoves_restore, Removals.plain_reading.1] at hv
    cases hv
  · obtain ⟨hheld, -, hgone, folders, hfolders, -, hpaths⟩ := Removals.reportMovedOut_eq
      { (r.reading d).removals with pendingMoves := (r.settled d).pending } (r.reading d).out
      (r.settled d).movedOut
    have hout : ∀ v ∈ (r.settled d).movedOut, Removed past v.path v.isDir := by
      intro v hv
      obtain ⟨c, hc⟩ := mem_movedOut hv
      exact hpending c v hc
    rw [Removals.take]
    dsimp only
    rw [if_neg hlost]
    refine ⟨⟨fun g hg ↦ ?_, fun g hg ↦ ?_⟩, fun c v hv ↦ ?_⟩
    · dsimp only at hg
      rw [hgone] at hg
      rcases List.mem_append.mp hg with hg | hg
      · exact h.gone g hg
      · obtain ⟨v, hv, rfl⟩ := List.mem_map.mp hg
        obtain ⟨hv, hfile⟩ := List.mem_filter.mp hv
        have hfalse : v.isDir = false := by simpa using hfile
        have hremoved := hout v hv
        rwa [hfalse] at hremoved
    · dsimp only at hg
      rw [hfolders] at hg
      rcases List.mem_append.mp hg with hg | hg
      · exact h.folders g hg
      · have hpath := List.mem_map_of_mem (f := FolderGone.path) hg
        rw [hpaths] at hpath
        obtain ⟨v, hv, hpath⟩ := List.mem_map.mp hpath
        obtain ⟨hv, hdir⟩ := List.mem_filter.mp hv
        have hremoved := hout v hv
        rwa [hpath, hdir] at hremoved
    · rw [Removals.pendingMoves_moveRecords, hheld] at hv
      exact h.moved c v (lookup_pending hv)

/-! ## The session -/

/-- A removal in the queue was made of a name that was there. -/
def Made.Backed (past : List (Files × Op)) (m : Made) : Prop :=
  m.kind = .delete ∨ m.kind = .movedFrom → ∃ o node, (m.fs, o) ∈ past
    ∧ m.fs.find m.wd m.name = some node ∧ node.isDir = m.isDir ∧ o.Takes m.wd m.name

theorem Made.Backed.mono {m : Made} {more : List (Files × Op)} (h : m.Backed past) :
    m.Backed (past ++ more) := by
  intro hkind
  obtain ⟨o, node, hpast, hrest⟩ := h hkind
  exact ⟨o, node, List.mem_append_left _ hpast, hrest⟩

/-- **What an operation queues.** -/
theorem Op.backed_events {o : Op} {fs : Files} {watched : List Dir} :
    ∀ m ∈ o.events watched fs, m.Backed (past ++ [(fs, o)]) := by
  have hlast : (fs, o) ∈ past ++ [(fs, o)] := by simp
  intro m hm
  cases o with
  | create d n node =>
    rw [events] at hm
    split at hm
    · rw [List.mem_singleton.mp hm]
      rintro (h | h) <;> cases h
    · cases hm
  | delete d n =>
    rw [events] at hm
    split at hm
    · rename_i node hfind
      split at hm
      · rw [List.mem_singleton.mp hm]
        exact fun _ ↦ ⟨_, node, hlast, hfind, rfl, rfl, rfl⟩
      · cases hm
    · cases hm
  | rename d n d' n' cookie =>
    rw [events] at hm
    split at hm
    · rename_i node hfind
      rcases List.mem_append.mp hm with hm | hm
      · split at hm
        · rw [List.mem_singleton.mp hm]
          exact fun _ ↦ ⟨_, node, hlast, hfind, rfl, rfl, rfl⟩
        · cases hm
      · split at hm
        · rw [List.mem_singleton.mp hm]
          rintro (h | h) <;> cases h
        · cases hm
    · cases hm

/-- The path that is made up of a removal in its place is that of what was removed. -/
theorem Made.Backed.removed {m : Made} {walk : List Walked} {path : String} (h : m.Backed past)
    (hkind : m.kind = .delete ∨ m.kind = .movedFrom) (hs : Faithful past met s)
    (hplace : ∀ p, met m.wd = some p → Placed m.fs m.wd p)
    (hlocate : s.removals.locate (m.event walk) = some path) : Removed past path m.isDir := by
  obtain ⟨o, node, hpast, hfind, hdir, htakes⟩ := h hkind
  obtain ⟨dir, name, hlookup, hname, rfl⟩ := Removals.locate_eq_some hlocate
  have hplaced : Placed m.fs m.wd dir := hplace dir (hs.dirs m.wd dir hlookup)
  have htext : m.name = .text name := by
    cases hm : m.name with
    | raw bytes => simp [event, hm, Name.toText] at hname
    | text n => simpa [event, hm, Name.toText] using hname
  rw [htext] at hfind htakes
  exact ⟨m.fs, o, m.wd, dir, name, node, hpast, hplaced, rfl, hfind, hdir, htakes⟩

/-- What a session keeps to: what is read, held over, queued and reported is of names that were
removed. -/
structure Session.Sound (s : Session) : Prop where
  reading : Faithful s.past s.met s.reading
  pending : ∀ c v, s.removals.pendingMoves.lookup c = some v → Removed s.past v.path v.isDir
  queue : ∀ m ∈ s.queue, m.Backed s.past
  reported : ∀ b ∈ s.reported, Real s.past b

theorem sound_start {fs : Files} {walk : List Walked} : (Session.start fs walk).Sound where
  reading := Faithful.start (lookup_addTree walk fun _ _ h ↦ by cases h)
  pending := fun c v hv ↦ by
    rw [Session.start, Removals.watch, Removals.pendingMoves_addTree] at hv
    cases hv
  queue := fun _ h ↦ absurd h List.not_mem_nil
  reported := fun _ h ↦ absurd h List.not_mem_nil

/-- **One step.** -/
theorem Session.Sound.step {s s' : Session} (h : s.Sound) (hstep : Step InPlace s s') :
    s'.Sound := by
  cases hstep with
  | op o _ =>
    refine ⟨h.reading.mono, fun c v hv ↦ (h.pending c v hv).mono, fun m hm ↦ ?_,
      fun b hb ↦ (h.reported b hb).mono⟩
    rcases List.mem_append.mp hm with hm | hm
    · exact (h.queue m hm).mono
    · exact Op.backed_events m hm
  | dropped o _ =>
    refine ⟨h.reading.mono, fun c v hv ↦ (h.pending c v hv).mono, fun m hm ↦ ?_,
      fun b hb ↦ (h.reported b hb).mono⟩
    rcases List.mem_append.mp hm with hm | hm
    · exact (h.queue m hm).mono
    · rw [List.mem_singleton.mp hm]
      rintro (hkind | hkind) <;> cases hkind
  | expire d _ _ _ =>
    refine ⟨h.reading, h.pending, fun m hm ↦ ?_, h.reported⟩
    rcases List.mem_append.mp hm with hm | hm
    · exact h.queue m hm
    · rw [List.mem_singleton.mp hm]
      rintro (hkind | hkind) <;> cases hkind
  | recorded records hidle =>
    have hreading := h.reading
    rw [Session.reading, hidle] at hreading
    refine ⟨?_, h.pending, h.queue, h.reported⟩
    rw [Session.reading, hidle]
    exact Faithful.start hreading.dirs
  | drain hidle =>
    have hreading := h.reading
    rw [Session.reading, hidle] at hreading
    exact ⟨hreading, h.pending, h.queue, h.reported⟩
  | read m queue events walk hdraining hqueue hwalk hplace =>
    have hread : s.removals.readOf (events ++ [m.event walk]) = s.reading.read (m.event walk) := by
      rw [Session.reading, hdraining, Option.getD_some, Removals.readOf, List.foldl_append,
        ← Removals.readOf]
      rfl
    have hback : m.Backed s.past := h.queue m (by rw [hqueue]; exact List.mem_cons_self)
    refine ⟨?_, h.pending, fun m' hm' ↦ ?_, h.reported⟩
    · rw [Session.reading, Option.getD_some]
      dsimp only
      rw [hread]
      refine h.reading.read (e := m.event walk) ?_ fun hkind path hlocate ↦ ?_
      · cases hwalk with
        | nothing => exact .inl rfl
        | beneath path hlocate hdir hkind _ _ => exact .inr ⟨⟨path, hlocate⟩, hdir, hkind⟩
      · exact hback.removed hkind h.reading (hplace hkind) hlocate
    · exact h.queue m' (by rw [hqueue]; exact List.mem_cons_of_mem _ hm')
  | finish events order hdraining hqueue =>
    have hreading : Faithful s.past s.met (s.removals.reading ⟨events, order⟩) := by
      have hreading := h.reading
      rwa [Session.reading, hdraining] at hreading
    obtain ⟨hreal, hpending⟩ := hreading.take h.pending
    refine ⟨Faithful.start fun d p hd ↦ ?_, hpending, h.queue, fun b hb ↦ ?_⟩
    · dsimp only at hd
      rw [Removals.dirs_take] at hd
      exact hreading.dirs d p hd
    · rcases List.mem_append.mp hb with hb | hb
      · exact h.reported b hb
      · rw [List.mem_singleton.mp hb]
        exact hreal

/-- **What is reported as gone was removed there**, in every session in which removals are read in
their place. -/
theorem real_of_inPlace {s : Session} (h : Run InPlace s) : ∀ b ∈ s.reported, Real s.past b := by
  have hsound : s.Sound := by
    induction h with
    | start fs walk _ => exact sound_start
    | step _ hstep ih => exact ih.step hstep
  exact hsound.reported

/-! ## A directory that is met again -/

/-- A directory in the sync root is where its name is. -/
theorem placed_of_mem {fs : Files} {c : Dir} {n : String} (h : ⟨syncRoot, .text n, .dir c⟩ ∈ fs) :
    Placed fs c n := Placed.sub .root h

theorem truthful_cons {fs : Files} {c : Dir} {p : String} {walk : List Walked}
    (hplaced : Placed fs c p) (h : Truthful fs walk) :
    Truthful fs (⟨some c, p, none⟩ :: walk) := by
  intro w hw d hd
  rcases List.mem_cons.mp hw with rfl | hw
  · rwa [← Option.some.inj hd]
  · exact h w hw d hd

theorem truthful_nil {fs : Files} : Truthful fs [] := fun _ h ↦ absurd h List.not_mem_nil

/-- A directory with a file in it. -/
def metFiles : Files := [⟨syncRoot, .text "d", .dir 2⟩, ⟨2, .text "f", .file⟩]

/-- The directory is renamed, and its file deleted, before the queue is read. -/
theorem real_of_met_again : ∃ s : Session, (∃ b ∈ s.reported, ⟨"e/f", false⟩ ∈ b.gone)
    ∧ ∀ b ∈ s.reported, Real s.past b := by
  have hrename : Op.Possible metFiles (.rename syncRoot (.text "d") syncRoot (.text "e") 5) := by
    refine ⟨.dir 2, by decide +kernel, by decide, by decide, ?_, by decide +kernel⟩
    rintro c ⟨⟩ hunder
    rcases Relation.ReflTransGen.cases_tail hunder with heq | ⟨b, -, e, he, -, hnode⟩
    · cases heq
    · simp only [metFiles, List.mem_cons, List.not_mem_nil, or_false] at he
      rcases he with rfl | rfl <;> cases hnode
  have h0 := Run.start (C := InPlace) metFiles [⟨some syncRoot, "", none⟩, ⟨some 2, "d", none⟩]
    (truthful_cons .root (truthful_cons (placed_of_mem (by decide)) truthful_nil))
  have h1 := h0.step (.op _ hrename)
  have h2 := h1.step (.op (.delete 2 (.text "f")) ⟨.file, by decide +kernel, rfl⟩)
  have h3 := h2.step (.drain rfl)
  have h4 := h3.step (.read _ _ _ [] rfl rfl .nothing
    fun _ p hp ↦ Option.some.inj (show some "" = some p from hp) ▸ .root)
  have h5 := h4.step (.read _ _ _ [⟨some 2, "e", none⟩] rfl rfl
    (.beneath "e" (by decide +kernel) rfl (.inr rfl)
      (truthful_cons (placed_of_mem (by decide +kernel)) truthful_nil)
      fun w hw ↦ .inl (by rw [List.mem_singleton.mp hw])) (by rintro (h | h) <;> cases h))
  have h6 := h5.step (.read _ _ _ [] rfl rfl .nothing fun _ p hp ↦
    Option.some.inj (show some "e" = some p from hp) ▸ placed_of_mem (by decide +kernel))
  have h7 := h6.step (.finish _ ⟨id, fun _ ↦ .refl _⟩ rfl rfl)
  exact ⟨_, ⟨_, List.mem_append_right _ (List.mem_singleton.mpr rfl), by decide +kernel⟩,
    real_of_inPlace h7⟩

/-! ## A directory that has left -/

theorem Placed.inv {fs : Files} {c : Dir} {p : String} (h : Placed fs c p) :
    c = syncRoot ∧ p = "" ∨ ∃ d q n, Placed fs d q ∧ ⟨d, .text n, .dir c⟩ ∈ fs ∧ p = join q n := by
  cases h with
  | root => exact .inl ⟨rfl, rfl⟩
  | sub hd hmem => exact .inr ⟨_, _, _, hd, hmem, rfl⟩

/-- A directory in the sync root. -/
def strayFiles : Files := [⟨syncRoot, .text "d", .dir 2⟩]

/-- The walk at the start. -/
def strayWalk : List Walked := [⟨some syncRoot, "", none⟩, ⟨some 2, "d", none⟩]

theorem truthful_strayWalk : Truthful strayFiles strayWalk :=
  truthful_cons .root (truthful_cons (placed_of_mem (by decide)) truthful_nil)

/-- What happens to the directory and to the one that is made in its place. -/
def strayPast : List (Files × Op) :=
  [(strayFiles, .rename syncRoot (.text "d") 9 (.text "d") 5),
    ([⟨9, .text "d", .dir 2⟩], .create syncRoot (.text "d") (.dir 3)),
    ([⟨9, .text "d", .dir 2⟩, ⟨syncRoot, .text "d", .dir 3⟩], .create 3 (.text "g") .file),
    ([⟨9, .text "d", .dir 2⟩, ⟨syncRoot, .text "d", .dir 3⟩, ⟨3, .text "g", .file⟩],
      .create 2 (.text "g") .file),
    ([⟨9, .text "d", .dir 2⟩, ⟨syncRoot, .text "d", .dir 3⟩, ⟨3, .text "g", .file⟩,
      ⟨2, .text "g", .file⟩], .delete 2 (.text "g"))]

/-- Nothing was removed at the path of the file that is there. -/
theorem not_removed_stray : ¬ Removed strayPast "d/g" false := by
  rintro ⟨fs, o, d, p, n, node, hpast, hplaced, hpath, -, -, htakes⟩
  simp only [strayPast, List.mem_cons, List.not_mem_nil, or_false, Prod.mk.injEq] at hpast
  rcases hpast with ⟨rfl, rfl⟩ | ⟨rfl, rfl⟩ | ⟨rfl, rfl⟩ | ⟨rfl, rfl⟩ | ⟨rfl, rfl⟩
  · -- the directory was moved away from the sync root
    obtain ⟨rfl, hname⟩ := htakes
    obtain rfl := Name.text.inj hname
    rcases hplaced.inv with ⟨-, rfl⟩ | ⟨d, q, n, -, hmem, -⟩
    · exact absurd hpath (by decide)
    · simp [strayFiles, syncRoot] at hmem
  · exact htakes
  · exact htakes
  · exact htakes
  · -- the file was deleted outside of it
    obtain ⟨rfl, -⟩ := htakes
    rcases hplaced.inv with ⟨hroot, -⟩ | ⟨d, q, n, hd, hmem, -⟩
    · exact absurd hroot (by decide)
    · obtain ⟨rfl, -⟩ : d = 9 ∧ n = "d" := by simpa [syncRoot] using hmem
      rcases hd.inv with ⟨hroot, -⟩ | ⟨d, q, n, -, hmem, -⟩
      · exact absurd hroot (by decide)
      · simp [syncRoot] at hmem

/-- The directory is moved out of the sync root, another is made in its place with a file in it,
and in the one that has left a file of that name is made and deleted. -/
theorem stray_reported : ∃ s, Run (fun _ _ ↦ True) s ∧ ∃ b ∈ s.reported, ¬ Real s.past b := by
  have hout : Op.Possible strayFiles (.rename syncRoot (.text "d") 9 (.text "d") 5) := by
    refine ⟨.dir 2, by decide +kernel, by decide, by decide, ?_, by decide +kernel⟩
    rintro c ⟨⟩ hunder
    rcases Relation.ReflTransGen.cases_tail hunder with heq | ⟨b, -, e, he, -, hnode⟩
    · cases heq
    · rw [List.mem_singleton.mp he] at hnode
      cases hnode
  have h0 := Run.start (C := fun _ _ ↦ True) _ _ truthful_strayWalk
  have h1 := h0.step (.op _ hout)
  have h2 := h1.step (.op (.create syncRoot (.text "d") (.dir 3))
    ⟨by decide, by decide +kernel, by decide +kernel⟩)
  have h3 := h2.step (.op (.create 3 (.text "g") .file) ⟨by decide, by decide +kernel, rfl⟩)
  have h4 := h3.step (.op (.create 2 (.text "g") .file) ⟨by decide, by decide +kernel, rfl⟩)
  have h5 := h4.step (.op (.delete 2 (.text "g")) ⟨.file, by decide +kernel, rfl⟩)
  have h6 := h5.step (.drain rfl)
  have h7 := h6.step (.read _ _ _ [] rfl rfl .nothing trivial)
  have h8 := h7.step (.read _ _ _ [⟨some 3, "d", none⟩] rfl rfl
    (.beneath "d" (by decide +kernel) rfl (.inl rfl)
      (truthful_cons (placed_of_mem (by decide +kernel)) truthful_nil)
      fun w hw ↦ .inl (by rw [List.mem_singleton.mp hw])) trivial)
  have h9 := h8.step (.read _ _ _ [] rfl rfl .nothing trivial)
  have h10 := h9.step (.read _ _ _ [] rfl rfl .nothing trivial)
  have h11 := h10.step (.finish _ ⟨id, fun _ ↦ .refl _⟩ rfl rfl)
  refine ⟨_, h11, _, List.mem_append_right _ (List.mem_singleton.mpr rfl), fun hreal ↦ ?_⟩
  have hgone := hreal.1 ⟨"d/g", false⟩ (by decide +kernel)
  exact not_removed_stray hgone

end Inotify

end HydrationAPI.Client
