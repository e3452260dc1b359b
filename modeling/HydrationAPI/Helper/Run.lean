import HydrationAPI.Helper.Serve

/-!
# Runs of the worker

The mount as the worker sees it over time: events are served one after the other, transfers that
were given up on go on writing, and users write to files and truncate them. A write of a user is
admitted by the allow that answered its event, and between two writes of the worker's own nothing
tells it that a user wrote; what it can notice is that the modification time has moved.

The invariant of the records is that they are *honest*: none was taken after the file was last
written, and one that was taken of the file as it is now names only bytes of the remote object.
-/

namespace HydrationAPI

variable {V : Type*}

/-- The modification time a witness was taken at, in nanoseconds. -/
def Witness.nanos (w : Witness) : ℤ := w.mtime * 10 ^ 9 + w.mtimeNsec

namespace File

@[simp] theorem nanos_witness (f : File V) : f.witness.nanos = f.mtime := by
  rw [Witness.nanos, witness]
  dsimp only
  omega

/-- `pwrite` of a user's bytes. -/
def userWrite (f : File V) (offset : ℕ) (bytes : List UInt8) (time : ℕ) : File V :=
  { f with
    size := max f.size (min (offset + bytes.length) u64Max)
    size_le := max_le f.size_le (min_le_right _ _)
    mtime := time
    cells := fun x ↦
      if offset ≤ x then (bytes[x - offset]?.map Cell.user).getD (f.cells x) else f.cells x }

/-- `ftruncate`: what lies behind the new end is gone, and growing a file adds a hole. -/
def truncate (f : File V) (size time : ℕ) : File V :=
  { f with
    size := min size u64Max
    size_le := min_le_right _ _
    mtime := time
    cells := fun x ↦ if x < size then f.cells x else .hole }

end File

/-- A step of the mount. -/
inductive Label (V : Type*) where
  /-- An event on a file, with the range it carries. -/
  | event (id : FileId) (range : Option (ℕ × ℕ)) (c : Calls V)
  /-- The fetch thread makes the next queued write. -/
  | ghost
  | write (id : FileId) (offset : ℕ) (bytes : List UInt8) (time : ℕ)
  | truncate (id : FileId) (size time : ℕ)

namespace World

open Worker

def next (w : World V) : Label V → World V
  | .event id range c => (decideAndFill w id range c).2
  | .ghost => w.carry 1
  | .write id offset bytes time => w.setFile id ((w.disk id).userWrite offset bytes time)
  | .truncate id size time => w.setFile id ((w.disk id).truncate size time)

/-- The world after a sequence of steps. -/
def run (w : World V) (ls : List (Label V)) : World V := ls.foldl next w

@[simp] theorem run_nil (w : World V) : w.run [] = w := rfl

@[simp] theorem run_cons (w : World V) (l : Label V) (ls : List (Label V)) :
    w.run (l :: ls) = (w.next l).run ls := rfl

theorem run_append (w : World V) (ls ms : List (Label V)) :
    w.run (ls ++ ms) = (w.run ls).run ms := List.foldl_append

/-- A worker that has just been started, over any disk. -/
def start (disk : FileId → File V) (policy : Policy) : World V :=
  ⟨disk, [], Timed.new, Partial.new remembered, policy⟩

end World

/-- A write of a user moves the modification time of the file. -/
def Label.Moves (w : World V) : Label V → Prop
  | .write id _ _ time | .truncate id _ time => (w.disk id).mtime < time
  | .event _ _ _ | .ghost => True

/-- The worlds a worker can get to, where every write of a user moves the modification time. -/
inductive Reachable : World V → Prop where
  | start (disk : FileId → File V) (policy : Policy) : Reachable (World.start disk policy)
  | next {w : World V} (l : Label V) : Reachable w → l.Moves w → Reachable (w.next l)

/-! ## Records that are vouched for -/

/-- No record was taken after its file was last written; one that was taken of the file as it is
names bytes of the source; and what is queued spares the bytes a record names. -/
structure Vouched (G : Source V) (w : World V) : Prop where
  past : ∀ id h, w.partials.get id = some h → h.witness.nanos ≤ (w.disk id).mtime
  present : ∀ id h, w.partials.get id = some h → h.witness.nanos = (w.disk id).mtime →
    ∀ x, h.have'.Mem x → ∃ v, (w.disk id).cells x = .remote v ∧ G id x v
  spares : ∀ id h, w.partials.get id = some h → w.Spares G id h.have'

variable {G : Source V} {w : World V}

theorem Vouched.of_forall (h : ∀ id h, w.partials.get id = some h →
    h.witness.nanos ≤ (w.disk id).mtime ∧ (h.witness.nanos = (w.disk id).mtime →
      ∀ x, h.have'.Mem x → ∃ v, (w.disk id).cells x = .remote v ∧ G id x v)
      ∧ w.Spares G id h.have') : Vouched G w :=
  ⟨fun id k hk ↦ (h id k hk).1, fun id k hk ↦ (h id k hk).2.1, fun id k hk ↦ (h id k hk).2.2⟩

/-- A record survives what gives the bytes it names only other bytes of the source. -/
private theorem vouched_of_keepsFrom {w' : World V} {id : FileId} (hw : Vouched G w)
    (hkeeps : w'.partials.KeepsFrom w.partials id)
    (hmtime : (w.disk id).mtime ≤ (w'.disk id).mtime)
    (hcells : ∀ h, w.partials.get id = some h → ∀ x, h.have'.Mem x →
      (w'.disk id).mtime = (w.disk id).mtime →
      (w'.disk id).cells x = (w.disk id).cells x ∨ ∃ v, (w'.disk id).cells x = .remote v ∧ G id x v)
    (hspare : ∀ h, w.partials.get id = some h → w'.Spares G id h.have') :
    ∀ h, w'.partials.get id = some h → h.witness.nanos ≤ (w'.disk id).mtime
      ∧ (h.witness.nanos = (w'.disk id).mtime →
        ∀ x, h.have'.Mem x → ∃ v, (w'.disk id).cells x = .remote v ∧ G id x v)
      ∧ w'.Spares G id h.have' := by
  intro h hh
  obtain ⟨h₀, hh₀, hwit, hhave⟩ := hkeeps h hh
  have hpast := hw.past id h₀ hh₀
  rw [hwit, hhave]
  refine ⟨by omega, fun heq x hx ↦ ?_, hspare h₀ hh₀⟩
  -- the record is not from the future, so the file has not been written since
  have hsame : (w'.disk id).mtime = (w.disk id).mtime := by omega
  rcases hcells h₀ hh₀ x hx hsame with hc | hc
  · rw [hc]
    exact hw.present id h₀ hh₀ (by omega) x hx
  · exact hc

/-- Bytes that are trusted are bytes of the source, -/
theorem Vouched.trusted (hw : Vouched G w) {id : FileId} {x : ℕ}
    (hx : (Worker.trusted w id).Mem x) : ∃ v, (w.disk id).cells x = .remote v ∧ G id x v := by
  rw [Worker.trusted] at hx
  split at hx
  · rename_i r hours
    obtain ⟨⟨k, hget, hwit, rfl⟩, -⟩ := Partial.standing_ours hours
    exact hw.present id k hget (by rw [hwit, File.nanos_witness]) x hx
  · exact absurd hx (Ranges.not_mem_empty x)

/-- and what is queued spares them. -/
theorem Vouched.spares_trusted (hw : Vouched G w) (id : FileId) :
    w.Spares G id (Worker.trusted w id) := by
  rw [Worker.trusted]
  split
  · rename_i r hours
    obtain ⟨⟨k, hget, -, rfl⟩, -⟩ := Partial.standing_ours hours
    exact hw.spares id k hget
  · exact fun _ _ _ x _ hx ↦ absurd hx (Ranges.not_mem_empty x)

/-- The writes that may be made while an event on the file `id` is served: any to that file, and
to another what is queued for it. -/
def Worker.MayWrite (w : World V) (id : FileId) : Source V := fun g x v ↦
  g = id ∨ ∃ wr ∈ w.pending, wr.file = g ∧ wr.chunk.Covers x ∧ wr.chunk.version = v

theorem Worker.pending_mayWrite (w : World V) (id : FileId) :
    ∀ wr ∈ w.pending, wr.From (Worker.MayWrite w id) :=
  fun wr hwr _ hx ↦ Or.inr ⟨wr, hwr, rfl, hx, rfl⟩

theorem Worker.calls_mayWrite (w : World V) (id : FileId) (c : Calls V) (size : ℕ) :
    c.From (Worker.MayWrite w id) id size :=
  fun _ _ ↦ ⟨fun _ _ _ _ _ ↦ Or.inl rfl, fun _ _ _ _ ↦ Or.inl rfl⟩

/-- What serving an event on a marked file leaves behind, as to the source of the bytes held. -/
theorem Vouched.answered (hw : Vouched G w) {id : FileId} {demanded : Span} {c : Calls V}
    (hd : demanded.Within (w.disk id).size) (hgood : c.Leave G id (w.disk id).size)
    (hmark : (w.disk id).marked = true) :
    Worker.Answered (Worker.MayWrite w id) G id (Worker.trusted w id) w demanded w
      (Worker.serve w id (w.disk id).size demanded (w.disk id).witness c).1
      (Worker.serve w id (w.disk id).size demanded (w.disk id).witness c).2 :=
  Worker.serve_answered hd (Worker.pending_mayWrite w id) (Worker.calls_mayWrite w id c _) hgood
    (hw.spares_trusted id) hmark

/-- **Serving an event keeps the records vouched for.** -/
theorem Vouched.event (hw : Vouched G w) (id : FileId) (range : Option (ℕ × ℕ)) (c : Calls V)
    (hgood : c.Leave G id (w.disk id).size) :
    Vouched G (Worker.decideAndFill w id range c).2 := by
  refine Vouched.of_forall fun g ↦ ?_
  rcases Worker.decideAndFill_cases w id range c with ⟨hidle, -⟩ | ⟨hmark, -, heq⟩
  · refine vouched_of_keepsFrom hw (Partial.keepsFrom_of_lookup (Or.inr ?_)) ?_
      (fun _ _ x _ _ ↦ Or.inl ?_) fun h hh wr hwr ↦ ?_
    · rw [hidle.partials]
    · rw [(hidle.same g).mtime]
    · rw [(hidle.same g).cells]
    · exact hw.spares g h hh wr (hidle.pending ▸ hwr)
  · rw [heq]
    have hans := hw.answered (Worker.demand_within range (w.disk id).size) hgood hmark
    generalize Worker.serve w id (w.disk id).size (Worker.demand range (w.disk id).size)
      (w.disk id).witness c = r at hans
    rcases eq_or_ne g id with rfl | hne
    · intro h hh
      obtain ⟨hwit, hpres⟩ := hans.record h hh
      rw [hwit, File.nanos_witness]
      refine ⟨le_rfl, fun _ x hx ↦ ?_, hpres.spares⟩
      rcases hpres.cells x hx with ⟨hr, hc⟩ | hrem
      · rw [hc]
        exact hw.trusted hr
      · exact hrem
    · -- another file changes only by what was queued for it
      have hqueued : ∀ {x : ℕ} {v : V}, Worker.MayWrite w id g x v → ∀ h,
          w.partials.get g = some h → h.have'.Mem x → G g x v := by
        rintro x v (hid | ⟨wr, hwr, hfile, hcov, rfl⟩) h hh hx
        · exact absurd hid hne
        · exact hw.spares g h hh wr hwr hfile x hcov hx
      refine vouched_of_keepsFrom hw (hans.records g hne) (hans.mtime g)
        (fun h hh x hx _ ↦ ?_) fun h hh wr hwr hfile x hcov hx ↦ ?_
      · rcases hans.cells g x with hc | ⟨hg, -⟩ | ⟨v, hv, hsrc⟩
        · exact Or.inl hc
        · exact absurd hg hne
        · exact Or.inr ⟨v, hv, hqueued hsrc h hh hx⟩
      · have hsrc := hans.pending wr hwr x hcov
        rw [hfile] at hsrc
        exact hqueued hsrc h hh hx

/-- **A write of the fetch thread keeps the records vouched for.** -/
theorem Vouched.ghost (hw : Vouched G w) : Vouched G (w.carry 1) := by
  refine Vouched.of_forall fun g ↦ ?_
  refine vouched_of_keepsFrom hw (Partial.KeepsFrom.refl _ g) (World.foldl_apply_frame _ _ g).2.2.2
    (fun h hh x hx _ ↦ ?_) fun h hh ↦ (hw.spares g h hh).carry 1
  exact World.carry_held 1 (hw.spares g h hh) hx

/-- **A file that loses its mark** holds bytes of the source, and holes. -/
theorem Vouched.unmarked (hw : Vouched G w) {id : FileId} {range : Option (ℕ × ℕ)} {c : Calls V}
    (hgood : c.Leave G id (w.disk id).size) (hmark : (w.disk id).marked = true)
    (hgone : ((Worker.decideAndFill w id range c).2.disk id).marked = false) {x : ℕ}
    (hx : x < (w.disk id).size) :
    ((Worker.decideAndFill w id range c).2.disk id).cells x = .hole
      ∨ ∃ v, ((Worker.decideAndFill w id range c).2.disk id).cells x = .remote v ∧ G id x v := by
  rcases Worker.decideAndFill_cases w id range c with ⟨hidle, -⟩ | ⟨-, -, heq⟩
  · cases hmark.symm.trans ((hidle.same id).marked.symm.trans hgone)
  · rw [heq] at hgone ⊢
    rcases Worker.serve_completes (Worker.demand_within range _) (Worker.pending_mayWrite w id)
      (Worker.calls_mayWrite w id c _) hgood (hw.spares_trusted id) hmark with
      ⟨-, r', w', hserve, hcov, hpres, -, -⟩ | ⟨-, hmarked⟩
    · rw [hserve]
      have hin := (Worker.whole_covered_iff (w.disk id).size_le).mp hcov x hx
      rcases Worker.complete_cells w' id (w.disk id).size (Worker.demand range (w.disk id).size) r'
        c x with hc | hc
      · rw [hc]
        rcases hpres.cells x hin with ⟨hr, hc'⟩ | hrem
        · rw [hc']
          exact Or.inr (hw.trusted hr)
        · exact Or.inr hrem
      · exact Or.inl hc
    · cases hmarked.symm.trans hgone

/-- A user's change of one file that moves its modification time. -/
private theorem Vouched.user (hw : Vouched G w) {id : FileId} {f : File V}
    (hmtime : (w.disk id).mtime < f.mtime) : Vouched G (w.setFile id f) := by
  refine Vouched.of_forall fun g k hk ↦ ?_
  have hpast : k.witness.nanos ≤ (w.disk g).mtime := hw.past g k hk
  have hspare : (w.setFile id f).Spares G g k.have' := hw.spares g k hk
  rcases eq_or_ne g id with rfl | hne
  · rw [World.setFile_disk_self]
    exact ⟨by omega, fun heq ↦ by omega, hspare⟩
  · rw [World.setFile_disk_ne w f hne]
    exact ⟨hpast, hw.present g k hk, hspare⟩

/-- The transfers of the event, if it is one, leave bytes of the source. -/
def Label.Leave (G : Source V) (w : World V) : Label V → Prop
  | .event id _ c => c.Leave G id (w.disk id).size
  | .ghost | .write _ _ _ _ | .truncate _ _ _ => True

/-- **Every step keeps the records vouched for.** -/
theorem Vouched.next (hw : Vouched G w) {l : Label V} (hl : l.Moves w) (hgood : l.Leave G w) :
    Vouched G (w.next l) := by
  cases l with
  | event id range c => exact hw.event id range c hgood
  | ghost => exact hw.ghost
  | write id offset bytes time => exact hw.user hl
  | truncate id size time => exact hw.user hl

theorem Vouched.start (G : Source V) (disk : FileId → File V) (policy : Policy) :
    Vouched G (World.start disk policy) := by
  have hnone : ∀ id, (World.start disk policy).partials.get id = none := fun _ ↦ rfl
  refine Vouched.of_forall fun id h hh ↦ ?_
  cases (hnone id).symm.trans hh

/-! ## The size of a file -/

/-- What is queued lies inside its file. -/
def Inside (w : World V) : Prop := ∀ wr ∈ w.pending, wr.From fun g x _ ↦ x < (w.disk g).size

/-- **Serving an event leaves every file as long as it is**, and what is queued inside it. -/
theorem Inside.event (hw : Inside w) (id : FileId) (range : Option (ℕ × ℕ)) (c : Calls V) :
    Inside (Worker.decideAndFill w id range c).2
      ∧ ∀ g, ((Worker.decideAndFill w id range c).2.disk g).size = (w.disk g).size := by
  rcases Worker.decideAndFill_cases w id range c with ⟨hidle, -⟩ | ⟨hmark, -, heq⟩
  · refine ⟨fun wr hwr x hx ↦ ?_, fun g ↦ (hidle.same g).size⟩
    dsimp only
    rw [(hidle.same wr.file).size]
    exact hw wr (hidle.pending ▸ hwr) x hx
  · have hsrc : c.From (fun g x _ ↦ x < (w.disk g).size) id (w.disk id).size := by
      have hin : ∀ {span : Span} {d : Delivery V span}, span.Within (w.disk id).size →
          ∀ ch ∈ d.chunks, (Write.mk id ch).From fun g x _ ↦ x < (w.disk g).size := by
        intro span d hspan ch hch x hx
        obtain ⟨-, hhi⟩ := d.inside ch hch
        exact (hx.2.trans_le hhi).trans_le hspan
      exact fun span hspan ↦ ⟨fun _ ↦ hin hspan, hin hspan⟩
    have hany := (c.from_any id (w.disk id).size).leave
    have hans := Worker.serve_answered (Worker.demand_within range (w.disk id).size) hw hsrc hany
      (World.spares_of_from (Source.from_any w.pending) id _) hmark
    have hsize : ∀ g, _ = (w.disk g).size := fun g ↦
      le_antisymm (hans.bound g _ (fun _ _ h ↦ h) le_rfl) (hans.size g)
    rw [heq]
    refine ⟨fun wr hwr x hx ↦ ?_, hsize⟩
    dsimp only
    rw [hsize]
    exact hans.pending wr hwr x hx

theorem Inside.ghost (hw : Inside w) :
    Inside (w.carry 1) ∧ ∀ g, ((w.carry 1).disk g).size = (w.disk g).size := by
  have hk : ∀ g, World.Kept _ g (fun _ ↦ False) w (w.carry 1) := fun g ↦ World.carry_kept 1 hw
  have hsize : ∀ g, ((w.carry 1).disk g).size = (w.disk g).size := fun g ↦
    le_antisymm ((hk g).bound g _ (fun _ _ h ↦ h) le_rfl) ((hk g).size g)
  refine ⟨fun wr hwr x hx ↦ ?_, hsize⟩
  dsimp only
  rw [hsize]
  exact hw wr (List.mem_of_mem_drop hwr) x hx

/-! ## Honest records -/

/-- No record was taken after its file was last written, and one that was taken of the file as it
is names bytes of the remote object. -/
structure Honest (w : World V) : Prop where
  past : ∀ id h, w.partials.get id = some h → h.witness.nanos ≤ (w.disk id).mtime
  present : ∀ id h, w.partials.get id = some h → h.witness.nanos = (w.disk id).mtime →
    ∀ x, h.have'.Mem x → ∃ v, (w.disk id).cells x = .remote v

/-- A record is honest when nothing is asked of where its bytes come from. -/
theorem honest_iff_vouched : Honest w ↔ Vouched Source.any w := by
  constructor
  · refine fun hw ↦ ⟨hw.past, fun id h hh heq x hx ↦ ?_, fun _ _ _ _ _ _ _ _ _ ↦ trivial⟩
    obtain ⟨v, hv⟩ := hw.present id h hh heq x hx
    exact ⟨v, hv, trivial⟩
  · refine fun hw ↦ ⟨hw.past, fun id h hh heq x hx ↦ ?_⟩
    obtain ⟨v, hv, -⟩ := hw.present id h hh heq x hx
    exact ⟨v, hv⟩

/-- Bytes that are trusted are bytes of the remote object. -/
theorem Honest.trusted (hw : Honest w) {id : FileId} {x : ℕ}
    (hx : (Worker.trusted w id).Mem x) : ∃ v, (w.disk id).cells x = .remote v := by
  obtain ⟨v, hv, -⟩ := (honest_iff_vouched.mp hw).trusted hx
  exact ⟨v, hv⟩

theorem Honest.start (disk : FileId → File V) (policy : Policy) :
    Honest (World.start disk policy) := honest_iff_vouched.mpr (Vouched.start _ disk policy)

/-- **Every step keeps the records honest.** -/
theorem Honest.next (hw : Honest w) {l : Label V} (hl : l.Moves w) : Honest (w.next l) := by
  have hgood : l.Leave Source.any w := by
    cases l with
    | event id range c => exact (c.from_any id _).leave
    | ghost => trivial
    | write id offset bytes time => trivial
    | truncate id size time => trivial
  exact honest_iff_vouched.mpr ((honest_iff_vouched.mp hw).next hl hgood)

/-- **The records are honest in every run.** -/
theorem Reachable.honest (hw : Reachable w) : Honest w := by
  induction hw with
  | start disk policy => exact Honest.start disk policy
  | next l _ hl ih => exact ih.next hl

end HydrationAPI
