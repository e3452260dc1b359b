import HydrationAPI.Helper.Run
import HydrationAPI.Helper.Remote

/-!
# What a reader and a writer are promised

Three properties of serving an event. An allow means that what the reader demanded is there. A
file loses its mark only when all of it is there, but for the one path on which the mark is
removed before the hydration is refused. And the bytes of a file that has lost its mark belong to
its users: nothing the worker does later touches them, whereas in a file that still carries the
mark whatever the record does not vouch for is residue.
-/

namespace HydrationAPI

open Worker World

variable {V : Type*} {w : World V} {id : FileId} {range : Option (ℕ × ℕ)} {c : Calls V}

/-! ## A placeholder to try things on

The inputs of the runs below: a file of `size` holes that carries the mark, and a daemon that
answers every request of the helper in one chunk. -/

/-- The device and inode of the file. -/
def sampleId : FileId := ⟨1, 2⟩

def placeholder {V : Type*} (size : ℕ) (h : size ≤ u64Max) (nodump : Bool) : File V :=
  ⟨size, h, 1, 10, fun _ ↦ .hole, true, nodump, false, none, none⟩

theorem eight_le_u64Max : 8 ≤ u64Max := by decide

/-- A fetch over a connection on which the span arrives whole. -/
def wholeFetch (span : Span) : SocketFetch Unit where
  mountFsid := .ok 1
  dead := false
  reconnect := false
  nextId := 7
  first := ⟨none, none, [.ready 7 span.len, .chunk 7 span.len () 20 none, .done 7]⟩
  second := ⟨none, none, []⟩

def wholeAttempt : Attempt Unit where
  dup := none
  heard := false
  refused := false
  deliver := fun file size span ↦ (wholeFetch span).deliver file size span
  waits := [.own, .own]
  carried := 0

def calmPunch : Punch := ⟨none, fun _ ↦ true, 20⟩

/-- Every system call succeeds, but that the `nodump` flag may not be cleared; the transfers are
all carried out as `a` says. -/
def calmly {V : Type*} (a : Attempt V) (setFlags : Option IoError) : Calls V where
  path := none
  mark := none
  strippedStat := none
  holdsData := .ok true
  ignore := true
  emptyStat := none
  cgroup := none
  idAndSize := none
  witness := none
  residue := calmPunch
  attempt := fun _ ↦ a
  rollback := fun _ ↦ calmPunch
  retry := a
  retryRollback := calmPunch
  failStamp := true
  failWitness := none
  closing := ⟨none, calmPunch, none, ⟨none, setFlags⟩, true, true, 20⟩
  abandon := calmPunch
  abandonStamp := true
  settledWitness := none

/-- The same where every transfer delivers the span in one chunk. -/
def calm (setFlags : Option IoError) : Calls Unit := calmly wholeAttempt setFlags

/-- A worker that has just been started, over placeholders of eight bytes. -/
def sampleWorld (nodump : Bool) : World Unit :=
  World.start (fun _ ↦ placeholder 8 eight_le_u64Max nodump) Policy.permissive

/-! ## An allow means that the demand is there -/

/-- A transfer that can be made for the event puts the byte at `x` down as one of version `v`. -/
def Calls.Delivers (c : Calls V) (id : FileId) (size x : ℕ) (v : V) : Prop :=
  ∃ span, (∃ k, ∃ ch ∈ ((c.attempt k).deliver id size span).chunks, ch.Covers x ∧ ch.version = v)
    ∨ ∃ ch ∈ (c.retry.deliver id size span).chunks, ch.Covers x ∧ ch.version = v

/-- The writes of the transfers still running when the event is served, and of its own. -/
def FromRemote (w : World V) (id : FileId) (c : Calls V) : Source V := fun g x v ↦
  (∃ wr ∈ w.pending, wr.file = g ∧ wr.chunk.Covers x ∧ wr.chunk.version = v)
    ∨ (g = id ∧ c.Delivers id (w.disk id).size x v)

theorem pending_fromRemote (w : World V) (id : FileId) (c : Calls V) :
    ∀ wr ∈ w.pending, wr.From (FromRemote w id c) :=
  fun wr hwr _ hx ↦ Or.inl ⟨wr, hwr, rfl, hx, rfl⟩

theorem calls_fromRemote (w : World V) (id : FileId) (c : Calls V) :
    c.From (FromRemote w id c) id (w.disk id).size :=
  fun span _ ↦ ⟨fun k ch hch _ hx ↦ Or.inr ⟨rfl, span, Or.inl ⟨k, ch, hch, hx, rfl⟩⟩,
    fun ch hch _ hx ↦ Or.inr ⟨rfl, span, Or.inr ⟨ch, hch, hx, rfl⟩⟩⟩

/-- The byte at `x` has been written from the remote: earlier, and it is in the ranges held under
a witness that matches the file, and is untouched; or while the event was served. -/
def Written (w : World V) (id : FileId) (c : Calls V) (w' : World V) (x : ℕ) : Prop :=
  (∃ h, w.partials.get id = some h ∧ h.witness = (w.disk id).witness ∧ h.have'.Mem x
      ∧ (w'.disk id).cells x = (w.disk id).cells x)
    ∨ ∃ v, (w'.disk id).cells x = .remote v ∧ FromRemote w id c id x v

theorem exists_held_of_trusted {x : ℕ} (hx : (trusted w id).Mem x) :
    ∃ h, w.partials.get id = some h ∧ h.witness = (w.disk id).witness ∧ h.have'.Mem x := by
  rw [trusted] at hx
  split at hx
  · rename_i r hours
    obtain ⟨⟨k, hget, hwit, rfl⟩, -⟩ := Partial.standing_ours hours
    exact ⟨k, hget, hwit, hx⟩
  · exact absurd hx (Ranges.not_mem_empty x)

/-- What serving a marked file leaves behind, with the source of its bytes. -/
private theorem served_fromRemote (hmark : (w.disk id).marked = true)
    (heq : decideAndFill w id range c = serve w id (w.disk id).size
      (demand range (w.disk id).size) (w.disk id).witness c) :
    Answered (FromRemote w id c) (FromRemote w id c) id (trusted w id) w (demand range (w.disk id).size) w
      (decideAndFill w id range c).1 (decideAndFill w id range c).2 := by
  rw [heq]
  have hpend := pending_fromRemote w id c
  have hsrc := calls_fromRemote w id c
  exact serve_answered (demand_within _ _) hpend hsrc hsrc.leave (spares_of_from hpend id _) hmark

private theorem written_of_present {w' : World V} {x : ℕ}
    (h : ((trusted w id).Mem x ∧ (w'.disk id).cells x = (w.disk id).cells x)
      ∨ ∃ v, (w'.disk id).cells x = .remote v ∧ FromRemote w id c id x v) :
    Written w id c w' x := by
  rcases h with ⟨hr, hc⟩ | h
  · obtain ⟨k, hget, hwit, hmem⟩ := exists_held_of_trusted hr
    exact Or.inl ⟨k, hget, hwit, hmem, hc⟩
  · exact Or.inr h

/-- **Allow implies present.** When the event of a marked placeholder is answered with an allow,
every byte it demanded that lies within the file has been written from the remote; and what is on
record for the file afterwards is the record that was there, of a file that is as it was, or names
only bytes that have been written from the remote and are there. -/
theorem allow_implies_present (hmark : (w.disk id).marked = true) :
    ((decideAndFill w id range c).1.allowed = true →
        ∀ x, x < (w.disk id).size → (∀ r, range = some r → (Span.mk r.1 r.2).Mem x) →
          Written w id c (decideAndFill w id range c).2 x)
      ∧ ∀ h, (decideAndFill w id range c).2.partials.get id = some h →
        (w.partials.get id = some h
            ∧ File.Same ((decideAndFill w id range c).2.disk id) (w.disk id))
          ∨ ∀ x, h.have'.Mem x → Written w id c (decideAndFill w id range c).2 x := by
  rcases decideAndFill_cases w id range c with ⟨hidle, -⟩ | ⟨-, -, heq⟩
  · refine ⟨fun ho x hx _ ↦ ?_, fun h hh ↦ Or.inl ⟨hidle.partials ▸ hh, hidle.same id⟩⟩
    rcases hidle.allowed ho with h | h
    · cases hmark.symm.trans h
    · omega
  · have hans := served_fromRemote hmark heq
    refine ⟨fun ho x hx hr ↦ written_of_present (hans.allowed ho x ?_), fun h hh ↦ Or.inr ?_⟩
    · refine (Span.mem_clampedTo (w.disk id).size_le).mpr ⟨?_, hx⟩
      cases range with
      | none => exact (Span.mem_whole (w.disk id).size_le).mpr hx
      | some r => exact hr r rfl
    · obtain ⟨-, hpres⟩ := hans.record h hh
      exact fun x hx ↦ written_of_present (hpres.cells x hx)

/-- A read of two of the eight bytes is served, and both have been written. -/
theorem allow_implies_present_two :
    (decideAndFill (sampleWorld true) sampleId (some (4, 2)) (calm none)).1 = .served 2 2 8
      ∧ Written (sampleWorld true) sampleId (calm none)
        (decideAndFill (sampleWorld true) sampleId (some (4, 2)) (calm none)).2 5 := by
  have hserved : (decideAndFill (sampleWorld true) sampleId (some (4, 2)) (calm none)).1
      = .served 2 2 8 := by decide
  refine ⟨hserved, (allow_implies_present rfl).1 (by rw [hserved]; rfl) 5 (by decide) ?_⟩
  rintro r ⟨⟩
  decide

/-! ## Failing closed -/

/-- The event completes the file and removes its mark, cannot clear the backup flag though the
filesystem has one, and puts the placeholder back: what is then punched has a byte in it. -/
def Strips (w : World V) (id : FileId) (range : Option (ℕ × ℕ)) (c : Calls V) : Prop :=
  Reaches w id c ∧ ServeCompletes w id (demand range (w.disk id).size) c ∧ Slips (w.disk id) c
    ∧ ∃ x, x < (w.disk id).size ∧ (c.abandon.error = none ∨ c.abandon.gone x = true)

/-- **Failing closed.** Whatever fails while the event of a marked placeholder is served, the file
keeps its mark or holds all of its remote content when the event has been answered, exactly unless
the event strips it. -/
theorem sealed_iff_not_strips (hw : Honest w) (hmark : (w.disk id).marked = true) :
    (((decideAndFill w id range c).2.disk id).marked = true
        ∨ ∀ x, x < (w.disk id).size →
          ∃ v, ((decideAndFill w id range c).2.disk id).cells x = .remote v)
      ↔ ¬Strips w id range c := by
  rcases decideAndFill_cases w id range c with ⟨hidle, hno⟩ | ⟨-, hreach, heq⟩
  · refine iff_of_true (Or.inl ?_) fun h ↦ hno ⟨hmark, h.1⟩
    rw [(hidle.same id).marked, hmark]
  · rw [heq, Strips]
    have hpend := pending_fromRemote w id c
    have hsrc := calls_fromRemote w id c
    rcases serve_completes (demand_within range _) hpend hsrc hsrc.leave
      (spares_of_from hpend id _) hmark with
      ⟨hcomp, r', w', hserve, hcov, hpres, hnodump, hmark'⟩ | ⟨hno, h⟩
    · rw [hserve]
      have hall : ∀ x, x < (w.disk id).size → ∃ v, (w'.disk id).cells x = .remote v := by
        intro x hx
        rcases hpres.cells x ((whole_covered_iff (w.disk id).size_le).mp hcov x hx) with
          ⟨hr, hc⟩ | ⟨v, hv, -⟩
        · rw [hc]
          exact hw.trusted hr
        · exact ⟨v, hv⟩
      rw [complete_sealed_iff hcov hmark' hall, slips_congr hnodump]
      constructor
      · rintro hno ⟨-, -, hlost⟩
        exact hno hlost
      · rintro hno hlost
        exact hno ⟨hreach, hcomp, hlost⟩
    · exact iff_of_true (Or.inl h) fun hs ↦ hno hs.2.1

/-- `EIO`, as the ioctl that sets the flags of a file reports it. -/
def flagsError : IoError := ⟨.other, some 5, "Input/output error"⟩

/-- **A placeholder that is stripped**: the object has been fetched in full, the mark is removed,
the backup flag cannot be cleared, and eight holes are left without a mark. -/
theorem not_sealed_of_flags_error :
    (sampleWorld true).disk sampleId = placeholder 8 (by decide) true
      ∧ ((sampleWorld true).disk sampleId).marked = true
      ∧ (decideAndFill (sampleWorld true) sampleId none (calm (some flagsError))).1.allowed = false
      ∧ ¬(((decideAndFill (sampleWorld true) sampleId none
            (calm (some flagsError))).2.disk sampleId).marked = true
        ∨ ∀ x, x < 8 → ∃ v, ((decideAndFill (sampleWorld true) sampleId none
            (calm (some flagsError))).2.disk sampleId).cells x = .remote v) := by
  have hmark : ((decideAndFill (sampleWorld true) sampleId none
      (calm (some flagsError))).2.disk sampleId).marked = false := by decide
  have hcell : ((decideAndFill (sampleWorld true) sampleId none
      (calm (some flagsError))).2.disk sampleId).cells 0 = .hole := by decide
  refine ⟨rfl, rfl, by decide, ?_⟩
  rintro (h | h)
  · cases hmark.symm.trans h
  · obtain ⟨v, hv⟩ := h 0 (by decide)
    cases hcell.symm.trans hv

/-- With the flag cleared the same event is not stripped, and the file is complete. -/
theorem sealed_of_flag_cleared :
    ¬Strips (sampleWorld true) sampleId none (calm none) := by
  refine (sealed_iff_not_strips (Honest.start _ _) rfl).mp (Or.inr fun x hx ↦ ?_)
  have hall : ∀ y ∈ List.range 8, ((decideAndFill (sampleWorld true) sampleId none
      (calm none)).2.disk sampleId).cells y = .remote () := by decide
  exact ⟨(), hall x (List.mem_range.mpr hx)⟩

/-! ## What users wrote -/

/-- Only a file that carries its mark has bytes for it: the source of the writes that are
queued. -/
def IntoMarked (w : World V) : Source V := fun g _ _ ↦ (w.disk g).marked = true

/-- Nothing is queued for a file that has lost its mark. -/
def OwesMarked (w : World V) : Prop := ∀ wr ∈ w.pending, wr.From (IntoMarked w)

private theorem served_intoMarked (hw : OwesMarked w) (hmark : (w.disk id).marked = true)
    (range : Option (ℕ × ℕ)) (c : Calls V) :
    Answered (IntoMarked w) (IntoMarked w) id (trusted w id) w (demand range (w.disk id).size) w
      (serve w id (w.disk id).size (demand range (w.disk id).size) (w.disk id).witness c).1
      (serve w id (w.disk id).size (demand range (w.disk id).size) (w.disk id).witness c).2 := by
  have hsrc : c.From (IntoMarked w) id (w.disk id).size :=
    fun _ _ ↦ ⟨fun _ _ _ _ _ ↦ hmark, fun _ _ _ _ ↦ hmark⟩
  exact serve_answered (demand_within _ _) hw hsrc hsrc.leave (spares_of_from hw id _) hmark

/-- What is queued for marked files is so in a world in which no file has lost its mark. -/
private theorem owesMarked_of_marked {w' : World V}
    (hpend : ∀ wr ∈ w'.pending, wr.From (IntoMarked w))
    (hmark : ∀ g, (w.disk g).marked = true → (w'.disk g).marked = true) : OwesMarked w' :=
  fun wr hwr x hx ↦ hmark wr.file (hpend wr hwr x hx)

private theorem marked_setFile {f : File V} (hf : f.marked = (w.disk id).marked) (g : FileId)
    (hg : (w.disk g).marked = true) : ((w.setFile id f).disk g).marked = true := by
  rcases eq_or_ne g id with rfl | hne
  · rw [setFile_disk_self, hf, hg]
  · rw [setFile_disk_ne w f hne, hg]

/-- **Nothing is ever queued for a file that has lost its mark.** -/
theorem OwesMarked.next (hw : OwesMarked w) (l : Label V) : OwesMarked (w.next l) := by
  cases l with
  | event id range c =>
    rw [World.next]
    rcases decideAndFill_cases w id range c with ⟨hidle, -⟩ | ⟨hmark, -, heq⟩
    · refine owesMarked_of_marked (w := w) (hidle.pending ▸ hw) fun g hg ↦ ?_
      rw [(hidle.same g).marked, hg]
    · have hans := served_intoMarked hw hmark range c
      rw [heq]
      intro wr hwr x hx
      have hfrom : (w.disk wr.file).marked = true := hans.pending wr hwr x hx
      rcases eq_or_ne wr.file id with hid | hne
      · -- had the mark gone, the queue would be empty
        by_contra hgone
        rw [IntoMarked, hid, Bool.not_eq_true] at hgone
        rw [hans.drained hgone] at hwr
        cases hwr
      · exact (hans.marked wr.file hne).trans hfrom
  | ghost =>
    refine owesMarked_of_marked (w := w) (fun wr hwr ↦ hw wr (List.mem_of_mem_drop hwr)) ?_
    intro g hg
    exact ((foldl_apply_frame _ _ g).1).trans hg
  | write id offset bytes time => exact owesMarked_of_marked (w := w) hw (marked_setFile rfl)
  | truncate id size time => exact owesMarked_of_marked (w := w) hw (marked_setFile rfl)

theorem OwesMarked.run (hw : OwesMarked w) (ls : List (Label V)) : OwesMarked (w.run ls) := by
  induction ls generalizing w with
  | nil => exact hw
  | cons l ls ih => exact ih (hw.next l)

end HydrationAPI
