import HydrationAPI.Helper.Fill

/-!
# What one event leaves behind

The effect of serving an event, stage by stage: finishing or settling, the fill before it, and the
decision what on disk is still ours. `Served` collects what holds when the event has been
answered: every file but the one served changes only by writes of the remote object; the one
served loses its mark only with the whole of its content in place, or on the one path where the
mark goes before the hydration is refused; and what is on record was taken of the file as it is,
and is present.
-/

namespace HydrationAPI.Worker

open Placeholder World

variable {V : Type*} {S G : Source V} {w : World V} {id : FileId} {size : ℕ} {demanded : Span}
  {c : Calls V}

/-! ## Finishing and settling -/

/-- The mark is removed, and then the backup flag cannot be cleared. -/
def Slips (f : File V) (c : Calls V) : Prop :=
  c.closing.fsync = none ∧ (unmarkFd f c.closing.unmark).1 = .ok () ∧ c.closing.flags.Refuse f

/-- **The four ways `complete` ends**: finished; put back, with its mark; put back when the mark
was already gone; settled. -/
theorem complete_cases (w : World V) (id : FileId) (size : ℕ) (demanded : Span) (r : Ranges)
    (c : Calls V) :
    (r.covers (Span.whole size) = true ∧ ¬Slips (w.disk id) c
        ∧ ∃ f, File.Same f { w.disk id with marked := false }
          ∧ complete w id size demanded r c = (.hydrated size, (w.setFile id f).forget id))
      ∨ ((r.covers (Span.whole size) = true → ¬Slips (w.disk id) c)
        ∧ ∃ f reason, Punched 0 size (w.disk id) f
          ∧ complete w id size demanded r c = (.failed reason, (w.setFile id f).forget id))
      ∨ (r.covers (Span.whole size) = true ∧ Slips (w.disk id) c
        ∧ ∃ g reason, File.Same g { w.disk id with marked := false }
          ∧ complete w id size demanded r c = (.failed reason,
            (w.setFile id (abandon g c.abandon c.abandonStamp size).2).forget id))
      ∨ (r.covers (Span.whole size) = false
        ∧ ∃ f, File.Same f (w.disk id)
          ∧ (complete w id size demanded r c).1 = .served demanded.len r.total size
          ∧ ((complete w id size demanded r c).2 = (w.setFile id f).record id f.witness r
            ∨ (complete w id size demanded r c).2 = (w.setFile id f).forget id)) := by
  rw [complete]
  by_cases hcov : r.covers (Span.whole size) = true
  · rw [if_pos hcov]
    rcases finishHydration_cases (w.disk id) c.closing size with
      ⟨hok, hsame, -, -, hno⟩ | ⟨⟨e, he⟩, hpunch, hearly⟩ | ⟨⟨e, he⟩, hsame, hsync, hun, href⟩
    · refine Or.inl ⟨hcov, fun h ↦ hno h.2.2, ?_⟩
      generalize finishHydration (w.disk id) c.closing size = p at hok hsame
      obtain ⟨res, f⟩ := p
      dsimp only at hok
      subst hok
      refine ⟨if c.path.isSome && c.ignore then { f with ignored := true } else f, ?_, rfl⟩
      split
      · exact ⟨hsame.cells, hsame.size, hsame.mtime, hsame.marked⟩
      · exact hsame
    · refine Or.inr (Or.inl ⟨fun _ h ↦ hearly.elim (fun h' ↦ h' h.1) fun h' ↦ h' h.2.1, ?_⟩)
      generalize finishHydration (w.disk id) c.closing size = p at he hpunch
      obtain ⟨res, f⟩ := p
      dsimp only at he
      subst he
      exact ⟨_, _, hpunch.trans (abandon_punched _ _ _ _), rfl⟩
    · refine Or.inr (Or.inr (Or.inl ⟨hcov, ⟨hsync, hun, href⟩, ?_⟩))
      generalize finishHydration (w.disk id) c.closing size = p at he hsame
      obtain ⟨res, f⟩ := p
      dsimp only at he
      subst he
      exact ⟨f, _, hsame, rfl⟩
  · rw [if_neg hcov]
    have hsame := settleRange_same (w.disk id) c.closing
    have hnodump := settleRange_nodump (w.disk id) c.closing
    generalize settleRange (w.disk id) c.closing = p at hsame hnodump
    obtain ⟨res, f⟩ := p
    cases res with
    | ok _ =>
      refine Or.inr (Or.inr (Or.inr ⟨by simpa using hcov, f, hsame, rfl, ?_⟩))
      cases c.settledWitness with
      | none => exact Or.inl rfl
      | some _ => exact Or.inr rfl
    | error e =>
      refine Or.inr (Or.inl ⟨fun h ↦ absurd h hcov, _, _, ?_, rfl⟩)
      exact (punched_of_same 0 size hsame hnodump).trans (abandon_punched _ _ _ _)

/-- Completing a file makes holes at most. -/
theorem complete_cells (w : World V) (id : FileId) (size : ℕ) (demanded : Span) (r : Ranges)
    (c : Calls V) (x : ℕ) :
    ((complete w id size demanded r c).2.disk id).cells x = (w.disk id).cells x
      ∨ ((complete w id size demanded r c).2.disk id).cells x = .hole := by
  have hself : ∀ f, ((w.setFile id f).forget id).disk id = f := setFile_disk_self w id
  rcases complete_cases w id size demanded r c with
    ⟨-, -, f, hsame, heq⟩ | ⟨-, f, reason, hpunch, heq⟩ |
    ⟨-, -, g, reason, hsame, heq⟩ | ⟨-, f, hsame, -, heq⟩
  · rw [heq, hself, hsame.cells]
    exact Or.inl rfl
  · rw [heq, hself]
    exact (hpunch.cells x).imp_right fun h ↦ h.2.2
  · rw [heq, hself]
    refine ((abandon_punched g c.abandon c.abandonStamp size).cells x).imp (fun h ↦ ?_) fun h ↦ h.2.2
    exact h.trans (congrFun hsame.cells x)
  · rcases heq with heq | heq
    all_goals
      rw [heq]
      exact Or.inl ((congrArg (fun f ↦ File.cells f x) (setFile_disk_self w id f)).trans
        (congrFun hsame.cells x))

theorem slips_congr {f g : File V} (h : f.nodump = g.nodump) : Slips f c ↔ Slips g c := by
  rw [Slips, Slips, Flags.Refuse, Flags.Refuse, unmarkFd_fst f g, setNodumpFd_fst_congr h]

/-- **A complete file keeps its mark or its content, but for the one path**: the mark is removed,
the backup flag is not, and what then puts the placeholder back takes a byte of it. -/
theorem complete_sealed_iff {r : Ranges}
    (hcov : r.covers (Span.whole size) = true) (hmark : (w.disk id).marked = true)
    (hall : ∀ x, x < size → ∃ v, (w.disk id).cells x = .remote v) :
    (((complete w id size demanded r c).2.disk id).marked = true
        ∨ ∀ x, x < size → ∃ v, ((complete w id size demanded r c).2.disk id).cells x = .remote v)
      ↔ ¬(Slips (w.disk id) c
        ∧ ∃ x, x < size ∧ (c.abandon.error = none ∨ c.abandon.gone x = true)) := by
  rcases complete_cases w id size demanded r c with
    ⟨-, hno, f, hsame, heq⟩ | ⟨hno, f, reason, hpunch, heq⟩ |
    ⟨-, hslip, g, reason, hsame, heq⟩ | ⟨hno, -⟩
  · rw [heq]
    have hself : ((w.setFile id f).forget id).disk id = f := setFile_disk_self w id f
    refine iff_of_true (Or.inr fun x hx ↦ ?_) fun h ↦ hno h.1
    rw [hself, hsame.cells]
    exact hall x hx
  · rw [heq]
    refine iff_of_true (Or.inl ?_) fun h ↦ hno hcov h.1
    exact (congrArg File.marked (setFile_disk_self w id f)).trans (hpunch.marked.trans hmark)
  · rw [heq]
    have hself : ((w.setFile id (abandon g c.abandon c.abandonStamp size).2).forget id).disk id
        = (abandon g c.abandon c.abandonStamp size).2 := setFile_disk_self w id _
    have hcells := fun x ↦ abandon_cells g c.abandon c.abandonStamp size x
    have hunmarked : (abandon g c.abandon c.abandonStamp size).2.marked = false :=
      (abandon_punched g c.abandon c.abandonStamp size).marked.trans hsame.marked
    rw [hself, hunmarked]
    constructor
    · rintro (h | h) ⟨-, x, hx, hgone⟩
      · cases h
      · obtain ⟨v, hv⟩ := h x hx
        rw [hcells, if_pos ⟨hx, hgone⟩] at hv
        cases hv
    · refine fun hno ↦ Or.inr fun x hx ↦ ?_
      rw [hcells, if_neg fun h ↦ hno ⟨hslip, x, hx, h.2⟩, hsame.cells]
      exact hall x hx
  · cases hno.symm.trans hcov

/-! ## What is to be fetched -/

theorem demand_within (range : Option (ℕ × ℕ)) (size : ℕ) : (demand range size).Within size :=
  Span.within_clampedTo _ _

/-- The window starts where the demand does, contains it, and stays inside the object. -/
theorem window_spec {r : Ranges} {frontier : ℕ} (hsize : size ≤ u64Max)
    (hd : demanded.Within size) :
    (window demanded size r frontier).offset = demanded.offset
      ∧ (window demanded size r frontier).Within size
      ∧ ∀ x, demanded.Mem x → (window demanded size r frontier).Mem x := by
  rw [window]
  split
  · have hle : demanded.end' ≤ size := hd.end'_le
    have hoff : demanded.offset ≤ demanded.end' := by
      rw [hd.end'_eq hsize]
      omega
    have hstart : demanded.offset
        ≤ min (max demanded.end' (saturatingAdd frontier readahead)) size := by omega
    have hend := Span.end'_mk_sub hstart ((min_le_right _ _).trans hsize)
    refine ⟨rfl, Span.within_of_end'_eq hstart (min_le_right _ _), fun x hx ↦ ⟨hx.1, ?_⟩⟩
    rw [hend]
    have hx2 := hx.2
    omega
  · exact ⟨rfl, hd, fun x hx ↦ hx⟩

theorem todo_missing {r : Ranges} (hsize : size ≤ u64Max) (hd : demanded.Within size)
    (frontier : ℕ) :
    Todo demanded (r.missing (window demanded size r frontier)) r := by
  obtain ⟨hoff, -, hin⟩ := window_spec (r := r) hsize hd
  refine ⟨fun s hs ↦ ?_, fun s hs ↦ ?_, Ranges.pairwise_missing _ _,
    fun s hs x hx ↦ Ranges.not_mem_of_mem_missing hs hx, fun x hx ↦ ?_⟩
  · obtain ⟨-, h1, -, h2⟩ := Ranges.bounds_of_mem_missing hs
    exact ⟨h1, h2⟩
  · rw [← hoff]
    exact (Ranges.bounds_of_mem_missing hs).1
  · by_cases hr : r.Mem x
    · exact Or.inl hr
    · exact Or.inr (Ranges.mem_missing.mpr ⟨hin x hx, hr⟩)

/-- What is missing of the window lies inside the object. -/
theorem within_missing {r : Ranges} (hsize : size ≤ u64Max) (hd : demanded.Within size)
    (frontier : ℕ) :
    ∀ s ∈ r.missing (window demanded size r frontier), s.Within size := by
  intro s hs
  obtain ⟨-, -, hstop, hend⟩ := Ranges.bounds_of_mem_missing hs
  have hwin : (window demanded size r frontier).end' ≤ size := (window_spec hsize hd).2.1.end'_le
  rw [Span.Within]
  omega

/-- The window makes up the demand, so where some of the demand is missing there is something
missing from the window. -/
theorem missing_window_ne_nil {r : Ranges} (hsize : size ≤ u64Max) (hd : demanded.Within size)
    (frontier : ℕ) (h : r.missing demanded ≠ []) :
    r.missing (window demanded size r frontier) ≠ [] := by
  intro hnil
  rw [Ranges.missing_eq_nil_iff] at hnil
  exact h (Ranges.missing_eq_nil_iff.mpr fun x hx ↦ hnil x ((window_spec hsize hd).2.2 x hx))

/-! ## The answer -/

/-- The files change only by writes that satisfy the source, and in the file `id` by holes; no
other file loses its mark. -/
structure Frame (S : Source V) (id : FileId) (w w' : World V) : Prop where
  cells : ∀ g x, (w'.disk g).cells x = (w.disk g).cells x
    ∨ (g = id ∧ (w'.disk g).cells x = .hole) ∨ ∃ v, (w'.disk g).cells x = .remote v ∧ S g x v
  marked : ∀ g, g ≠ id → (w'.disk g).marked = (w.disk g).marked
  size : ∀ g, (w.disk g).size ≤ (w'.disk g).size
  bound : ∀ g n, (∀ x v, S g x v → x < n) → (w.disk g).size ≤ n → (w'.disk g).size ≤ n
  mtime : ∀ g, (w.disk g).mtime ≤ (w'.disk g).mtime
  policy : w'.policy = w.policy

theorem Frame.of_disk_eq {w' : World V} (hdisk : w'.disk = w.disk) (hpolicy : w'.policy = w.policy) :
    Frame S id w w' := by
  refine ⟨fun g x ↦ Or.inl ?_, fun g _ ↦ ?_, fun g ↦ ?_, fun g n _ hn ↦ ?_, fun g ↦ ?_, hpolicy⟩
  all_goals rw [hdisk]
  exact hn

theorem Frame.trans {w' w'' : World V} (h₁ : Frame S id w w') (h₂ : Frame S id w' w'') :
    Frame S id w w'' := by
  refine ⟨fun g x ↦ ?_, fun g hg ↦ (h₂.marked g hg).trans (h₁.marked g hg),
    fun g ↦ (h₁.size g).trans (h₂.size g), fun g n hS hn ↦ h₂.bound g n hS (h₁.bound g n hS hn),
    fun g ↦ (h₁.mtime g).trans (h₂.mtime g), h₂.policy.trans h₁.policy⟩
  rcases h₂.cells g x with heq | h
  · rw [heq]
    exact h₁.cells g x
  · exact Or.inr h

theorem Frame.setFile {f : File V}
    (hcells : ∀ x, f.cells x = (w.disk id).cells x ∨ f.cells x = .hole)
    (hsize : f.size = (w.disk id).size) (hmtime : (w.disk id).mtime ≤ f.mtime) :
    Frame S id w (w.setFile id f) := by
  have hother : ∀ g, g ≠ id → (w.setFile id f).disk g = w.disk g :=
    fun g hne ↦ setFile_disk_ne w f hne
  refine ⟨fun g x ↦ ?_, fun g hg ↦ by rw [hother g hg], fun g ↦ ?_, fun g n _ hn ↦ ?_, fun g ↦ ?_,
    rfl⟩
  all_goals rcases eq_or_ne g id with rfl | hne
  all_goals first | rw [setFile_disk_self] | rw [hother g hne]
  · exact (hcells x).imp_right fun h ↦ Or.inl ⟨rfl, h⟩
  · exact Or.inl rfl
  · exact hsize.ge
  · exact hsize.trans_le hn
  · exact hn
  · exact hmtime

theorem frame_of_kept {H : ℕ → Prop} {w' : World V} (h : Kept S id H w w') : Frame S id w w' := by
  refine ⟨fun g x ↦ ?_, fun g _ ↦ h.marked g, h.size, h.bound, h.mtime, h.policy⟩
  exact (h.cells g x).imp_right fun h ↦ h.imp_left fun h ↦ ⟨h.1, h.2.2⟩

/-- What holds when an event on the file `id` has been answered with `o`. The ranges `r₀` were
trusted when the world was `w₀`; `w` is the world before, `w'` the world after. -/
structure Answered (S G : Source V) (id : FileId) (r₀ : Ranges) (w₀ : World V) (demanded : Span)
    (w : World V) (o : Handled) (w' : World V) : Prop extends Frame S id w w' where
  pending : ∀ wr ∈ w'.pending, wr.From S
  /-- No record of another file is made up. -/
  records : ∀ g, g ≠ id → w'.partials.KeepsFrom w.partials g
  /-- What is on record for the file was taken of it as it is, and is present. -/
  record : ∀ h, w'.partials.get id = some h →
    h.witness = (w'.disk id).witness ∧ Present G id r₀ w₀ w' h.have'
  /-- When the mark is gone, so is every write that was queued. -/
  drained : (w'.disk id).marked = false → w'.pending = []
  hydrated : ∀ n, o = .hydrated n → (w'.disk id).marked = false
  /-- An allow means that the demand is present. -/
  allowed : o.allowed = true → ∀ x, demanded.Mem x →
    (r₀.Mem x ∧ (w'.disk id).cells x = (w₀.disk id).cells x)
      ∨ ∃ v, (w'.disk id).cells x = .remote v ∧ G id x v

theorem Answered.after {r₀ : Ranges} {w₀ w₁ w' : World V} {o : Handled}
    (h : Answered S G id r₀ w₀ demanded w₁ o w') (hframe : Frame S id w w₁)
    (hrecs : ∀ g, g ≠ id → w₁.partials.KeepsFrom w.partials g) :
    Answered S G id r₀ w₀ demanded w o w' :=
  { hframe.trans h.toFrame with
    pending := h.pending
    records := fun g hg ↦ (h.records g hg).trans (hrecs g hg)
    record := h.record
    drained := h.drained
    hydrated := h.hydrated
    allowed := h.allowed }

/-- The file is replaced and its record dropped. -/
private theorem answered_setFile {f : File V} {r₀ : Ranges} {w₀ : World V} {o : Handled}
    (hpend : ∀ wr ∈ w.pending, wr.From S)
    (hframe : Frame S id w (w.setFile id f))
    (hdrained : f.marked = false → w.pending = [])
    (hhydrated : ∀ n, o = .hydrated n → f.marked = false)
    (hallowed : o.allowed = true → ∀ x, demanded.Mem x →
      (r₀.Mem x ∧ f.cells x = (w₀.disk id).cells x) ∨ ∃ v, f.cells x = .remote v ∧ G id x v) :
    Answered S G id r₀ w₀ demanded w o ((w.setFile id f).forget id) := by
  have hself : ((w.setFile id f).forget id).disk id = f := setFile_disk_self w id f
  have hnone : ((w.setFile id f).forget id).partials.get id = none := Partial.get_forget_self _ _
  exact
    { hframe.trans (Frame.of_disk_eq rfl rfl) with
      pending := hpend
      records := fun g _ ↦ Partial.forget_keepsFrom _ _ _
      record := fun h hh ↦ by rw [hnone] at hh; cases hh
      drained := by rw [hself]; exact hdrained
      hydrated := by rw [hself]; exact hhydrated
      allowed := by rw [hself]; exact hallowed }

/-- Keeping a record that is present, instead of none, changes nothing else. -/
private theorem Answered.record_of_forget {f : File V} {r₀ r : Ranges} {w₀ : World V}
    {o : Handled} (h : Answered S G id r₀ w₀ demanded w o ((w.setFile id f).forget id))
    (hpres : Present G id r₀ w₀ (w.setFile id f) r) :
    Answered S G id r₀ w₀ demanded w o ((w.setFile id f).record id f.witness r) := by
  refine
    { h.toFrame.trans (Frame.of_disk_eq rfl rfl) with
      pending := h.pending
      records := fun g hg ↦ Partial.record_keepsFrom hg
      record := fun k hk ↦ ?_
      drained := h.drained
      hydrated := h.hydrated
      allowed := h.allowed }
  obtain ⟨hwit, hhave⟩ := Partial.get_record_self hk
  rw [hwit, hhave]
  exact ⟨congrArg File.witness (setFile_disk_self w id f).symm, hpres.disk_eq rfl rfl⟩

theorem complete_answered {r₀ r : Ranges} {w₀ : World V}
    (hpend : ∀ wr ∈ w.pending, wr.From S) (hpres : Present G id r₀ w₀ w r)
    (hdem : ∀ x, demanded.Mem x → r.Mem x) (hmark : (w.disk id).marked = true)
    (hq : r.covers (Span.whole size) = true → w.pending = []) :
    Answered S G id r₀ w₀ demanded w (complete w id size demanded r c).1
      (complete w id size demanded r c).2 := by
  rcases complete_cases w id size demanded r c with
    ⟨hcov, -, f, hsame, heq⟩ | ⟨-, f, reason, hpunch, heq⟩ |
    ⟨hcov, -, g, reason, hsame, heq⟩ | ⟨-, f, hsame, ho, heq⟩
  · rw [heq]
    have hcells : f.cells = (w.disk id).cells := hsame.cells
    refine answered_setFile hpend (Frame.setFile (fun x ↦ Or.inl (by rw [hcells])) hsame.size
      hsame.mtime.ge) (fun _ ↦ hq hcov) (fun _ _ ↦ hsame.marked) fun _ x hx ↦ ?_
    rw [hcells]
    exact hpres.cells x (hdem x hx)
  · rw [heq]
    refine answered_setFile hpend (Frame.setFile (fun x ↦ (hpunch.cells x).imp_right fun h ↦ h.2.2)
      hpunch.size hpunch.mtime) (fun h ↦ ?_) (by rintro n ⟨⟩) (by rintro ⟨⟩)
    rw [hpunch.marked, hmark] at h
    cases h
  · rw [heq]
    have hab := abandon_punched g c.abandon c.abandonStamp size
    refine answered_setFile hpend (Frame.setFile (fun x ↦ ?_) (hab.size.trans hsame.size)
      (hsame.mtime.ge.trans hab.mtime)) (fun _ ↦ hq hcov) (by rintro n ⟨⟩) (by rintro ⟨⟩)
    rcases hab.cells x with h | h
    · exact Or.inl (h.trans (congrFun hsame.cells x))
    · exact Or.inr h.2.2
  · have hforget : Answered S G id r₀ w₀ demanded w (complete w id size demanded r c).1
        ((w.setFile id f).forget id) := by
      refine answered_setFile hpend (Frame.setFile (fun x ↦ Or.inl (by rw [hsame.cells]))
        hsame.size hsame.mtime.ge) (fun h ↦ ?_) (fun n hn ↦ ?_) fun _ x hx ↦ ?_
      · rw [hsame.marked, hmark] at h
        cases h
      · rw [ho] at hn
        cases hn
      · rw [hsame.cells]
        exact hpres.cells x (hdem x hx)
    rcases heq with heq | heq
    · rw [heq]
      exact hforget.record_of_forget (hpres.disk_eq (by rw [setFile_disk_self, hsame.cells]) rfl)
    · rw [heq]
      exact hforget

theorem whole_covered_iff {r : Ranges} (hsize : size ≤ u64Max) :
    r.covers (Span.whole size) = true ↔ ∀ x, x < size → r.Mem x := by
  constructor
  · exact fun h x hx ↦ Ranges.mem_of_covers h ((Span.mem_whole hsize).mpr hx)
  · refine fun h ↦ Ranges.covers_of_forall_mem (by simpa [Span.whole] using hsize) fun x hx ↦ ?_
    exact h x ((Span.mem_whole hsize).mp hx)

theorem fillMissing_answered {r₀ r : Ranges} {w₀ : World V} (hsize : size ≤ u64Max)
    (hd : demanded.Within size) (hpend : ∀ wr ∈ w.pending, wr.From S)
    (hsrc : c.From S id size) (hgood : c.Leave G id size) (hpres : Present G id r₀ w₀ w r)
    (hrec : ∀ h, w.partials.get id = some h →
      h.witness = (w.disk id).witness ∧ Present G id r₀ w₀ w h.have')
    (hmark : (w.disk id).marked = true) :
    Answered S G id r₀ w₀ demanded w (fillMissing w id size demanded r c).1
      (fillMissing w id size demanded r c).2 := by
  rw [fillMissing]
  split
  · rename_i hnil
    exact
      { Frame.of_disk_eq rfl rfl with
        pending := hpend
        records := fun g _ ↦ Partial.KeepsFrom.refl _ g
        record := hrec
        drained := fun h ↦ by rw [hmark] at h; cases h
        hydrated := by rintro n ⟨⟩
        allowed := fun _ x hx ↦ hpres.cells x (Ranges.missing_eq_nil_iff.mp hnil x hx) }
  · rename_i first rest hfirst
    dsimp only
    have hne := missing_window_ne_nil (r := r) hsize hd first.offset (by rw [hfirst]; simp)
    have hwithin := within_missing (r := r) hsize hd first.offset
    have hfill := fill_filled (k := 0) hsrc hgood hwithin hpend (todo_missing hsize hd first.offset) hpres
      fun h ↦ absurd h hne
    have hin : ∀ s ∈ r.missing (window demanded size r first.offset), ∀ x, s.Mem x → x < size := by
      intro s hs x hx
      have hwin := ((Ranges.mem_missing.mp ⟨s, hs, hx⟩).1).2
      exact hwin.trans_le (window_spec hsize hd).2.1.end'_le
    generalize fill w id size demanded c 0 (r.missing (window demanded size r first.offset)) r = p
      at hfill
    obtain ⟨res, w'⟩ := p
    obtain ⟨hkept, hranges, hanswer⟩ := hfill
    cases res with
    | inl r' =>
      obtain ⟨hpart, hpres', hdem, -, hq⟩ := hranges r' rfl
      have hmark' : (w'.disk id).marked = true := (hkept.marked id).trans hmark
      refine (complete_answered hkept.pending hpres' hdem hmark' fun hcov ↦ hq ?_).after
        (frame_of_kept hkept) fun g _ ↦ hpart ▸ Partial.KeepsFrom.refl _ g
      rintro x ⟨s, hs, hx⟩
      exact (whole_covered_iff hsize).mp hcov x (hin s hs x hx)
    | inr o =>
      obtain ⟨ho, hrecs, hrec'⟩ := hanswer o rfl
      exact
        { frame_of_kept hkept with
          pending := hkept.pending
          records := hrecs
          record := hrec'
          drained := fun h ↦ by rw [hkept.marked id, hmark] at h; cases h
          hydrated := by rintro n ⟨⟩; cases ho
          allowed := fun h ↦ by cases ho.symm.trans h }

/-- The fill completes the file: something of the demand is missing, what is held and the window
make up the object, and every transfer delivers. -/
def Completes (t : Timed) (id : FileId) (size : ℕ) (demanded : Span) (r : Ranges) (c : Calls V) :
    Prop :=
  ∃ first rest, r.missing demanded = first :: rest
    ∧ (∀ x, x < size → r.Mem x ∨ (window demanded size r first.offset).Mem x)
    ∧ AllDeliver id size c t 0 (r.missing (window demanded size r first.offset))

/-- **A fill either completes the file or leaves it its mark.** -/
theorem fillMissing_completes {r₀ r : Ranges} {w₀ : World V} (hsize : size ≤ u64Max)
    (hd : demanded.Within size) (hpend : ∀ wr ∈ w.pending, wr.From S)
    (hsrc : c.From S id size) (hgood : c.Leave G id size) (hpres : Present G id r₀ w₀ w r)
    (hmark : (w.disk id).marked = true) :
    (Completes w.fetch id size demanded r c
        ∧ ∃ r' w', fillMissing w id size demanded r c = complete w' id size demanded r' c
          ∧ r'.covers (Span.whole size) = true ∧ Present G id r₀ w₀ w' r'
          ∧ (w'.disk id).nodump = (w.disk id).nodump ∧ (w'.disk id).marked = true)
      ∨ (¬Completes w.fetch id size demanded r c
        ∧ ((fillMissing w id size demanded r c).2.disk id).marked = true) := by
  rw [fillMissing]
  split
  · rename_i hnil
    refine Or.inr ⟨?_, hmark⟩
    rintro ⟨first, rest, h, -⟩
    rw [hnil] at h
    cases h
  · rename_i first rest hfirst
    dsimp only
    have hne := missing_window_ne_nil (r := r) hsize hd first.offset (by rw [hfirst]; simp)
    have htodo := todo_missing (r := r) hsize hd first.offset
    have hwithin := within_missing (r := r) hsize hd first.offset
    have hfill := fill_filled (k := 0) hsrc hgood hwithin hpend htodo hpres fun h ↦ absurd h hne
    by_cases hcomp : (∀ x, x < size → r.Mem x ∨ (window demanded size r first.offset).Mem x)
        ∧ AllDeliver id size c w.fetch 0 (r.missing (window demanded size r first.offset))
    · obtain ⟨r', hr', hmem⟩ := fill_of_allDeliver htodo hcomp.2
      obtain ⟨-, hpres', -⟩ := hfill.ranges r' hr'
      refine Or.inl ⟨⟨first, rest, hfirst, hcomp⟩, r', _, ?_, ?_, hpres', hfill.kept.nodump id,
        (hfill.kept.marked id).trans hmark⟩
      · rw [← Prod.eta (fill w id size demanded c 0 _ r), hr']
      · refine (whole_covered_iff hsize).mpr fun x hx ↦ hmem x ?_
        rcases hcomp.1 x hx with h | h
        · exact Or.inl h
        · by_cases hr : r.Mem x
          · exact Or.inl hr
          · exact Or.inr (Ranges.mem_missing.mpr ⟨h, hr⟩)
    · refine Or.inr ⟨?_, ?_⟩
      · rintro ⟨first', rest', h, hcomp'⟩
        rw [hfirst, List.cons.injEq] at h
        rw [← h.1] at hcomp'
        exact hcomp hcomp'
      · have hmark' := (hfill.kept.marked id).trans hmark
        -- had the loop left nothing out, every transfer would have been delivered
        have hpart : ∀ r', (fill w id size demanded c 0
            (r.missing (window demanded size r first.offset)) r).1 = .inl r' →
            r'.covers (Span.whole size) = false := by
          intro r' hr'
          obtain ⟨-, -, -, hsub, -⟩ := hfill.ranges r' hr'
          rw [Bool.eq_false_iff]
          intro hcov
          have hall := (whole_covered_iff hsize).mp hcov
          refine hcomp ⟨fun x hx ↦ ?_, allDeliver_of_fill htodo hr' ?_⟩
          · refine (hsub x (hall x hx)).imp_right fun h ↦ (Ranges.mem_missing.mp h).1
          · intro x hx
            have hwin := (Ranges.mem_missing.mp hx).1
            exact hall x (hwin.2.trans_le (window_spec hsize hd).2.1.end'_le)
        generalize fill w id size demanded c 0 _ r = p at hmark' hpart
        obtain ⟨res, w'⟩ := p
        cases res with
        | inr o => exact hmark'
        | inl r' =>
          have hno := hpart r' rfl
          dsimp only at hmark' ⊢
          rcases complete_cases w' id size demanded r' c with
            ⟨hcov, -⟩ | ⟨-, f, reason, hpunch, heq⟩ | ⟨hcov, -⟩ | ⟨-, f, hsame, -, heq⟩
          · cases hno.symm.trans hcov
          · rw [heq]
            exact (congrArg File.marked (setFile_disk_self w' id f)).trans
              (hpunch.marked.trans hmark')
          · cases hno.symm.trans hcov
          · have hset : ((w'.setFile id f).disk id).marked = true := by
              rw [setFile_disk_self, hsame.marked, hmark']
            rcases heq with heq | heq
            · rw [heq]
              exact hset
            · rw [heq]
              exact hset

/-- The ranges of the file the worker believes to be its own. -/
def trusted (w : World V) (id : FileId) : Ranges :=
  match (w.partials.standing id (w.disk id).witness).1 with
  | .ours r => r
  | .unknown => .empty

/-- What the decision about the record leaves: it changes nothing but the records. -/
theorem believe_spec (w : World V) (id : FileId) :
    (believe w id (w.disk id).witness).2.disk = w.disk
      ∧ (believe w id (w.disk id).witness).2.pending = w.pending
      ∧ (believe w id (w.disk id).witness).2.policy = w.policy
      ∧ (believe w id (w.disk id).witness).2.fetch = w.fetch
      ∧ (∀ g, (believe w id (w.disk id).witness).2.partials.KeepsFrom w.partials g)
      ∧ (((believe w id (w.disk id).witness).1 = .ours (trusted w id)
          ∧ (w.partials.standing id (w.disk id).witness).1 ≠ .unknown
          ∧ ∃ k, (believe w id (w.disk id).witness).2.partials.get id = some k
            ∧ k.witness = (w.disk id).witness ∧ k.have' = trusted w id)
        ∨ ((believe w id (w.disk id).witness).1 = .unknown
          ∧ (w.partials.standing id (w.disk id).witness).1 = .unknown
          ∧ (believe w id (w.disk id).witness).2.partials.get id = none
          ∧ trusted w id = .empty)) := by
  refine ⟨rfl, rfl, rfl, rfl, w.partials.standing_keepsFrom id _, ?_⟩
  rw [trusted]
  cases hst : (w.partials.standing id (w.disk id).witness).1 with
  | ours r =>
    obtain ⟨-, k, hget, hwit, hhave⟩ := Partial.standing_ours hst
    exact Or.inl ⟨hst, by simp, k, hget, hwit, hhave⟩
  | unknown => exact Or.inr ⟨hst, rfl, (Partial.standing_unknown hst).1, rfl⟩

/-- The world from which the fill of an event starts, or in which it could not be started. -/
structure Begun (S : Source V) (id : FileId) (w w₁ : World V) : Prop extends Frame S id w w₁ where
  pending : w₁.pending = w.pending
  fetch : w₁.fetch = w.fetch
  records : ∀ g, w₁.partials.KeepsFrom w.partials g
  sealed : (w₁.disk id).marked = (w.disk id).marked
  nodump : (w₁.disk id).nodump = (w.disk id).nodump

/-- **How serving begins**: the record is believed, and nothing on disk has changed; or it is not,
and the file could not be cleared; or it could, and has no byte left. -/
theorem serve_cases (S : Source V) (w : World V) (id : FileId) (demanded : Span) (c : Calls V) :
    ∃ w₁, Begun S id w w₁
      ∧ (((w.partials.standing id (w.disk id).witness).1 ≠ .unknown ∧ w₁.disk = w.disk
          ∧ (∃ k, w₁.partials.get id = some k ∧ k.witness = (w.disk id).witness
            ∧ k.have' = trusted w id)
          ∧ serve w id (w.disk id).size demanded (w.disk id).witness c
            = fillMissing w₁ id (w.disk id).size demanded (trusted w id) c)
        ∨ ((w.partials.standing id (w.disk id).witness).1 = .unknown
          ∧ (clearResidue (w.disk id) c.residue (w.disk id).size).1 ≠ .ok ()
          ∧ w₁.partials.get id = none
          ∧ ∃ reason, serve w id (w.disk id).size demanded (w.disk id).witness c
            = (.failed reason, w₁))
        ∨ ((w.partials.standing id (w.disk id).witness).1 = .unknown
          ∧ (clearResidue (w.disk id) c.residue (w.disk id).size).1 = .ok ()
          ∧ trusted w id = .empty ∧ w₁.partials.get id = none
          ∧ (∀ x, x < (w.disk id).size → (w₁.disk id).cells x = .hole)
          ∧ serve w id (w.disk id).size demanded (w.disk id).witness c
            = fillMissing w₁ id (w.disk id).size demanded .empty c)) := by
  obtain ⟨hdisk, hpending, hpolicy, hfetch, hkeeps, hstand⟩ := believe_spec w id
  rw [serve]
  generalize believe w id (w.disk id).witness = b at hdisk hpending hpolicy hfetch hkeeps hstand
  obtain ⟨st, w₁⟩ := b
  dsimp only at hdisk hpending hpolicy hfetch hkeeps hstand
  have hframe : Frame S id w w₁ := Frame.of_disk_eq hdisk hpolicy
  rcases hstand with ⟨rfl, hknown, hrec⟩ | ⟨rfl, hunknown, hnone, hempty⟩
  · exact ⟨w₁, { hframe with
      pending := hpending
      fetch := hfetch
      records := hkeeps
      sealed := by rw [hdisk]
      nodump := by rw [hdisk] }, Or.inl ⟨hknown, hdisk, hrec, rfl⟩⟩
  · have hpunch : Punched 0 (w.disk id).size (w.disk id)
        (clearResidue (w.disk id) c.residue (w.disk id).size).2 := punchFd_punched _ _ _
    have hholes : (clearResidue (w.disk id) c.residue (w.disk id).size).1 = .ok () →
        ∀ x, x < (w.disk id).size →
          (clearResidue (w.disk id) c.residue (w.disk id).size).2.cells x = .hole :=
      fun h x hx ↦ clearResidue_ok h hx
    dsimp only
    rw [hdisk]
    generalize clearResidue (w.disk id) c.residue (w.disk id).size = p at hpunch hholes
    obtain ⟨res, f⟩ := p
    dsimp only at hpunch hholes
    have hframe₂ : Frame S id w (w₁.setFile id f) := by
      refine hframe.trans (Frame.setFile (fun x ↦ ?_) ?_ ?_)
      all_goals rw [hdisk]
      · exact (hpunch.cells x).imp_right fun h ↦ h.2.2
      · exact hpunch.size
      · exact hpunch.mtime
    refine ⟨w₁.setFile id f, { hframe₂ with
      pending := hpending
      fetch := hfetch
      records := hkeeps
      sealed := by rw [setFile_disk_self, hpunch.marked]
      nodump := by rw [setFile_disk_self, hpunch.nodump] }, Or.inr ?_⟩
    cases res with
    | error e => exact Or.inl ⟨hunknown, by simp, hnone, _, rfl⟩
    | ok _ =>
      refine Or.inr ⟨hunknown, rfl, hempty, hnone, fun x hx ↦ ?_, rfl⟩
      rw [setFile_disk_self]
      exact hholes rfl x hx

theorem serve_answered (hd : demanded.Within (w.disk id).size)
    (hpend : ∀ wr ∈ w.pending, wr.From S) (hsrc : c.From S id (w.disk id).size)
    (hgood : c.Leave G id (w.disk id).size) (hspare : w.Spares G id (trusted w id))
    (hmark : (w.disk id).marked = true) :
    Answered S G id (trusted w id) w demanded w
      (serve w id (w.disk id).size demanded (w.disk id).witness c).1
      (serve w id (w.disk id).size demanded (w.disk id).witness c).2 := by
  have hsize := (w.disk id).size_le
  obtain ⟨w₁, hbegun, h⟩ := serve_cases S w id demanded c
  have hpend₁ : ∀ wr ∈ w₁.pending, wr.From S := hbegun.pending ▸ hpend
  have hmark₁ : (w₁.disk id).marked = true := hbegun.sealed.trans hmark
  rcases h with ⟨-, hdisk, ⟨k, hget, hwit, hhave⟩, heq⟩ | ⟨-, -, hnone, reason, heq⟩ |
    ⟨-, -, hempty, hnone, -, heq⟩
  · rw [heq]
    have hpres : Present G id (trusted w id) w w₁ (trusted w id) :=
      (present_self hspare).disk_eq (by rw [hdisk]) hbegun.pending
    refine (fillMissing_answered hsize hd hpend₁ hsrc hgood hpres (fun h hh ↦ ?_) hmark₁).after
      hbegun.toFrame fun g _ ↦ hbegun.records g
    rw [hget, Option.some_inj] at hh
    rw [← hh, hwit, hhave, hdisk]
    exact ⟨rfl, hpres⟩
  · rw [heq]
    exact
      { hbegun.toFrame with
        pending := hpend₁
        records := fun g _ ↦ hbegun.records g
        record := fun h hh ↦ by cases hnone.symm.trans hh
        drained := fun h ↦ by cases hmark₁.symm.trans h
        hydrated := by rintro n ⟨⟩
        allowed := by rintro ⟨⟩ }
  · rw [heq, hempty]
    refine (fillMissing_answered hsize hd hpend₁ hsrc hgood ?_ (fun h hh ↦ ?_) hmark₁).after
      hbegun.toFrame fun g _ ↦ hbegun.records g
    · exact present_empty G id .empty w w₁
    · cases hnone.symm.trans hh

/-- The serving of the event completes the file: what has to be cleared can be, and the fill of
what is then missing completes it. -/
def ServeCompletes (w : World V) (id : FileId) (demanded : Span) (c : Calls V) : Prop :=
  ((w.partials.standing id (w.disk id).witness).1 = .unknown →
      (clearResidue (w.disk id) c.residue (w.disk id).size).1 = .ok ())
    ∧ Completes w.fetch id (w.disk id).size demanded (trusted w id) c

/-- **Serving an event completes the file or leaves it its mark.** -/
theorem serve_completes (hd : demanded.Within (w.disk id).size)
    (hpend : ∀ wr ∈ w.pending, wr.From S) (hsrc : c.From S id (w.disk id).size)
    (hgood : c.Leave G id (w.disk id).size) (hspare : w.Spares G id (trusted w id))
    (hmark : (w.disk id).marked = true) :
    (ServeCompletes w id demanded c
        ∧ ∃ r' w', serve w id (w.disk id).size demanded (w.disk id).witness c
            = complete w' id (w.disk id).size demanded r' c
          ∧ r'.covers (Span.whole (w.disk id).size) = true
          ∧ Present G id (trusted w id) w w' r'
          ∧ (w'.disk id).nodump = (w.disk id).nodump ∧ (w'.disk id).marked = true)
      ∨ (¬ServeCompletes w id demanded c
        ∧ ((serve w id (w.disk id).size demanded (w.disk id).witness c).2.disk id).marked
          = true) := by
  have hsize := (w.disk id).size_le
  obtain ⟨w₁, hbegun, h⟩ := serve_cases S w id demanded c
  have hpend₁ : ∀ wr ∈ w₁.pending, wr.From S := hbegun.pending ▸ hpend
  have hmark₁ : (w₁.disk id).marked = true := hbegun.sealed.trans hmark
  rw [ServeCompletes, ← hbegun.fetch, ← hbegun.nodump]
  rcases h with ⟨hknown, hdisk, -, heq⟩ | ⟨hunknown, hfails, -, reason, heq⟩ |
    ⟨hunknown, hclear, hempty, -, -, heq⟩
  · rw [heq]
    have hpres : Present G id (trusted w id) w w₁ (trusted w id) :=
      (present_self hspare).disk_eq (by rw [hdisk]) hbegun.pending
    rcases fillMissing_completes hsize hd hpend₁ hsrc hgood hpres hmark₁ with
      ⟨hcomp, hrest⟩ | ⟨hno, hmarked⟩
    · exact Or.inl ⟨⟨fun h ↦ absurd h hknown, hcomp⟩, hrest⟩
    · exact Or.inr ⟨fun h ↦ hno h.2, hmarked⟩
  · rw [heq]
    exact Or.inr ⟨fun h ↦ hfails (h.1 hunknown), hmark₁⟩
  · rw [heq, hempty]
    have hpres : Present G id .empty w w₁ .empty := present_empty G id .empty w w₁
    rcases fillMissing_completes hsize hd hpend₁ hsrc hgood hpres hmark₁ with
      ⟨hcomp, hrest⟩ | ⟨hno, hmarked⟩
    · exact Or.inl ⟨⟨fun _ ↦ hclear, hcomp⟩, hrest⟩
    · exact Or.inr ⟨fun h ↦ hno h.2, hmarked⟩

/-! ## The whole event -/

/-- An event that is answered without a fill. Nothing that matters has changed, and an allow is
given to a file that has no mark or no bytes. -/
structure Idle (id : FileId) (w : World V) (o : Handled) (w' : World V) : Prop where
  same : ∀ g, File.Same (w'.disk g) (w.disk g)
  pending : w'.pending = w.pending
  partials : w'.partials = w.partials
  policy : w'.policy = w.policy
  hydrated : ∀ n, o ≠ .hydrated n
  allowed : o.allowed = true → (w.disk id).marked = false ∨ (w.disk id).size = 0

private theorem idle_self {o : Handled} (hydrated : ∀ n, o ≠ .hydrated n)
    (allowed : o.allowed = true → (w.disk id).marked = false ∨ (w.disk id).size = 0) :
    Idle id w o w :=
  ⟨fun _ ↦ File.Same.refl _, rfl, rfl, rfl, hydrated, allowed⟩

private theorem nothingToServe_eq_some {f : File V} {o : Handled}
    (h : nothingToServe f c = some o) : o = .empty ∧ f.size = 0 := by
  rw [nothingToServe] at h
  split at h
  · cases h
  · split at h
    · rename_i hsize
      exact ⟨(Option.some_inj.mp h).symm, hsize.2⟩
    · cases h

/-- The event of a marked file gets as far as being served. -/
def Reaches (w : World V) (id : FileId) (c : Calls V) : Prop :=
  c.mark = none ∧ nothingToServe (w.disk id) c = none ∧ w.policy.decide c.cgroup = .hydrate
    ∧ c.idAndSize = none ∧ c.witness = none

/-- **An event is answered without a fill, or served from a file that carries the mark.** -/
theorem decideAndFill_cases (w : World V) (id : FileId) (range : Option (ℕ × ℕ)) (c : Calls V) :
    (Idle id w (decideAndFill w id range c).1 (decideAndFill w id range c).2
        ∧ ¬((w.disk id).marked = true ∧ Reaches w id c))
      ∨ ((w.disk id).marked = true ∧ Reaches w id c
        ∧ decideAndFill w id range c = serve w id (w.disk id).size
            (demand range (w.disk id).size) (w.disk id).witness c) := by
  rw [decideAndFill, Reaches]
  cases hm : c.mark with
  | some e => exact Or.inl ⟨idle_self (by rintro n ⟨⟩) (by rintro ⟨⟩), by simp⟩
  | none =>
    dsimp only
    by_cases hmark : (w.disk id).marked = false
    · rw [if_pos hmark]
      refine Or.inl ⟨⟨fun g ↦ ?_, ?_, ?_, ?_, by rintro n ⟨⟩, fun _ ↦ Or.inl hmark⟩, ?_⟩
      rotate_right
      · simp [hmark]
      all_goals dsimp only; split
      · rcases eq_or_ne g id with rfl | hne
        · rw [setFile_disk_self]
          exact ⟨rfl, rfl, rfl, rfl⟩
        · rw [setFile_disk_ne w _ hne]
          exact File.Same.refl _
      · exact File.Same.refl _
      all_goals rfl
    · rw [if_neg hmark]
      cases hnothing : nothingToServe (w.disk id) c with
      | some o =>
        obtain ⟨rfl, hzero⟩ := nothingToServe_eq_some hnothing
        exact Or.inl ⟨idle_self (by rintro n ⟨⟩) fun _ ↦ Or.inr hzero, by simp⟩
      | none =>
        dsimp only
        cases w.policy.decide c.cgroup with
        | deny rule => exact Or.inl ⟨idle_self (by rintro n ⟨⟩) (by rintro ⟨⟩), by simp⟩
        | hydrate =>
          cases c.idAndSize with
          | some e => exact Or.inl ⟨idle_self (by rintro n ⟨⟩) (by rintro ⟨⟩), by simp⟩
          | none =>
            cases c.witness with
            | some e => exact Or.inl ⟨idle_self (by rintro n ⟨⟩) (by rintro ⟨⟩), by simp⟩
            | none => exact Or.inr ⟨by simpa using hmark, by simp, rfl⟩

end HydrationAPI.Worker
