import HydrationAPI.Helper.Guarantees
import HydrationAPI.Helper.Split

/-!
# What the two halves guarantee

Whatever the order of the steps, and wherever either half comes to its end, nobody who asked is lost
or answered twice; a read is allowed only by the worker, and only where what it demands has been
fetched; and the kernel lets a read through only when both halves are gone.

The events that the worker has read at once are published one by one, as it comes to them. So the
supervisor, which denies the one that was held and whatever it reads itself, leaves exactly as many
reads unanswered as there were events in the worker's hands that it had not come to.
-/

namespace HydrationAPI.Split

/-! ## What holds of every state -/

namespace Worker

variable {V : Type*} {w : World V} {id : FileId} {range : Option (ℕ × ℕ)} {c : Calls V}

/-- An event on a marked file is allowed only when what it demands has been fetched. -/
theorem remote_of_allowed (hw : Honest w) (hmark : (w.disk id).marked = true)
    (hallowed : (Worker.decideAndFill w id range c).1.allowed = true) {x : ℕ}
    (hx : x < (w.disk id).size) (hrange : ∀ r, range = some r → (Span.mk r.1 r.2).Mem x) :
    ∃ v, ((Worker.decideAndFill w id range c).2.disk id).cells x = .remote v := by
  rcases Worker.decideAndFill_cases w id range c with ⟨hidle, -⟩ | ⟨-, -, heq⟩
  · rcases hidle.allowed hallowed with h | h
    · cases hmark.symm.trans h
    · omega
  · have hvouched := honest_iff_vouched.mp hw
    have hans := hvouched.answered (Worker.demand_within range (w.disk id).size)
      (c.from_any id _).leave hmark
    rw [← heq] at hans
    have hmem : (Worker.demand range (w.disk id).size).Mem x := by
      refine (Span.mem_clampedTo (w.disk id).size_le).mpr ⟨?_, hx⟩
      cases range with
      | none => exact (Span.mem_whole (w.disk id).size_le).mpr hx
      | some r => exact hrange r rfl
    rcases hans.allowed hallowed x hmem with ⟨htrusted, hcell⟩ | ⟨v, hv, -⟩
    · rw [hcell]
      exact hw.trusted htrusted
    · exact ⟨v, hv⟩

end Worker

namespace Decision

variable {V : Type*}

/-- An allow that is founded: what the reader demands of the file is not a hole of a placeholder. -/
structure Grants (d : Decision V) (r : Reader) : Prop where
  reader : d.reader = r
  allowed : d.outcome.1.allowed = true
  present : (d.world.disk r.file).marked = true → ∀ x, x < (d.world.disk r.file).size →
    (∀ p, r.range = some p → (Span.mk p.1 p.2).Mem x) →
      ∃ v, (d.outcome.2.disk r.file).cells x = .remote v

theorem grants_of_allowed {d : Decision V} (hworld : HydrationAPI.Reachable d.world)
    (hallowed : d.outcome.1.allowed = true) : d.Grants d.reader where
  reader := rfl
  allowed := hallowed
  present hmark _ hx hrange := Worker.remote_of_allowed hworld.honest hmark hallowed hx hrange

end Decision

namespace Halves

variable {V : Type*} {s : Halves V}

/-- The worker has decided to allow the read. -/
def Granted (s : Halves V) (r : Reader) : Prop := ∃ d ∈ s.decisions, d.Grants r

/-- What holds of every state the halves can get to. -/
structure Sound (s : Halves V) : Prop where
  nodup : s.asked.Nodup
  ledger : s.asked.Perm s.group.ledger
  world : HydrationAPI.Reachable s.world
  /-- The slot has the descriptor of the event that the worker holds. -/
  slot : s.shared.slot = s.worker.slot
  fds : (s.worker.open'.map Taken.fd).Nodup
  opened : ∀ e ∈ s.worker.open', 0 ≤ e.fd
  decided : ∀ e o rest, s.worker = .handling e (.decided o) rest → o.allowed = true →
    s.Granted e.reader
  answers : ∀ p ∈ s.group.answers, p.2 = denyWith eio ∨ p.2 = fanAllow ∧ s.Granted p.1
  /-- As long as only the worker reads, what waits is what the worker has yet to answer. -/
  alone : s.group.closed = false → s.supervisor.reading = none →
    s.group.access = s.worker.unanswered
  /-- Afterwards, as many as the worker has left and the supervisor has yet to answer. -/
  behind : s.group.closed = false → ∀ events, s.supervisor.reading = some events →
    (s.group.access.map Taken.fd).Perm
      (s.worker.left.map Taken.fd ++ (events.filter (0 ≤ ·.fd)).map Taken.fd)
  gone : s.supervisor ≠ .watching → s.gone = true
  closed : s.group.closed = true → s.gone = true ∧ s.down = true
  through : s.group.through ≠ [] → s.group.closed = true

theorem Sound.start (disk : FileId → File V) (policy : Policy) : Sound (start disk policy) where
  nodup := List.nodup_nil
  ledger := List.Perm.nil
  world := .start disk policy
  slot := rfl
  fds := List.nodup_nil
  opened _ h := absurd h List.not_mem_nil
  decided _ _ _ h := by cases h
  answers _ h := absurd h List.not_mem_nil
  alone _ _ := rfl
  behind _ _ h := by cases h
  gone h := absurd rfl h
  closed h := by cases h
  through h := absurd rfl h

/-- While the worker runs, the supervisor only watches. -/
theorem Sound.watching (hs : Sound s) (hgone : s.gone = false) : s.supervisor = .watching := by
  by_contra h
  cases hgone.symm.trans (hs.gone h)

theorem Sound.open' (hs : Sound s) (hgone : s.gone = false) : s.group.closed = false := by
  rw [Bool.eq_false_iff]
  intro h
  cases hgone.symm.trans (hs.closed h).1

/-- **What a step of the worker has to keep.** -/
theorem Sound.worker (hs : Sound s) (hgone : s.gone = false) {g : Group} {page : Shared}
    {w : World V} {p : Position} {ds : List (Decision V)}
    (ledger : g.ledger.Perm s.group.ledger) (closed : g.closed = s.group.closed)
    (through : g.through = s.group.through) (world : HydrationAPI.Reachable w)
    (slot : page.slot = p.slot) (fds : (p.open'.map Taken.fd).Nodup)
    (opened : ∀ e ∈ p.open', 0 ≤ e.fd) (decisions : s.decisions ⊆ ds)
    (decided : ∀ e o rest, p = .handling e (.decided o) rest → o.allowed = true →
      ∃ d ∈ ds, d.Grants e.reader)
    (answers : ∀ a ∈ g.answers, a ∈ s.group.answers
      ∨ a.2 = denyWith eio ∨ a.2 = fanAllow ∧ ∃ d ∈ ds, d.Grants a.1)
    (access : s.group.access = s.worker.unanswered → g.access = p.unanswered) :
    Sound { s with group := g, shared := page, world := w, worker := p, decisions := ds } where
  nodup := hs.nodup
  ledger := hs.ledger.trans ledger.symm
  world := world
  slot := slot
  fds := fds
  opened := opened
  decided := decided
  answers a ha := by
    rcases answers a ha with h | h
    · rcases hs.answers a h with h | ⟨h, d, hd, hgrants⟩
      · exact Or.inl h
      · exact Or.inr ⟨h, d, decisions hd, hgrants⟩
    · exact h
  alone _ hnone := access (hs.alone (hs.open' hgone) hnone)
  behind _ events h := by
    rw [hs.watching hgone] at h
    cases h
  gone := hs.gone
  closed h := hs.closed (closed ▸ h)
  through h := closed.trans (hs.through (through ▸ h))

/-- **What a step of the supervisor has to keep.** -/
theorem Sound.supervisor (hs : Sound s) {g : Group} {p : Supervisor} {gone down : Bool}
    (ledger : g.ledger.Perm s.group.ledger) (closed : g.closed = s.group.closed)
    (through : g.through = s.group.through)
    (answers : ∀ a ∈ g.answers, a ∈ s.group.answers ∨ a.2 = denyWith eio)
    (hgone : p ≠ .watching → gone = true) (hstays : s.gone = true → gone = true)
    (hdown : s.down = true → down = true)
    (alone : s.group.closed = false → p.reading = none → g.access = s.worker.unanswered)
    (behind : s.group.closed = false → ∀ events, p.reading = some events →
      (g.access.map Taken.fd).Perm
        (s.worker.left.map Taken.fd ++ (events.filter (0 ≤ ·.fd)).map Taken.fd)) :
    Sound { s with group := g, supervisor := p, gone := gone, down := down } where
  nodup := hs.nodup
  ledger := hs.ledger.trans ledger.symm
  world := hs.world
  slot := hs.slot
  fds := hs.fds
  opened := hs.opened
  decided := hs.decided
  answers a ha := (answers a ha).elim (hs.answers a) Or.inl
  alone h := alone (closed ▸ h)
  behind h := behind (closed ▸ h)
  gone := hgone
  closed h := (hs.closed (closed ▸ h)).imp hstays hdown
  through h := closed.trans (hs.through (through ▸ h))

theorem Sound.ask (hs : Sound s) {r : Reader} (hnew : r ∉ s.asked) : Sound (s.next (.ask r)) :=
  { hs with
    nodup := List.nodup_append.mpr ⟨hs.nodup, List.nodup_singleton r, fun a ha b hb ↦ by
      rw [List.mem_singleton.mp hb]
      exact ne_of_mem_of_not_mem ha hnew⟩
    ledger := (hs.ledger.append_right [r]).trans (s.group.ledger_ask r).symm }

theorem Sound.mount (hs : Sound s) {l : Label V} (h : s.Enabled (.mount l)) :
    Sound (s.next (.mount l)) :=
  { hs with
    world := by
      refine .next l hs.world ?_
      cases l with
      | event id range c => exact trivial
      | ghost => exact trivial
      | write id offset bytes time => exact h
      | truncate id size time => exact h }

/-- A read of events, by whichever half. -/
theorem nodup_taken {fds : List Int32} (h : s.Reads fds) :
    (((s.group.taken fds).filter (0 ≤ ·.fd)).map Taken.fd).Nodup := by
  have hmap : fds.filter (0 ≤ ·) = ((s.group.taken fds).filter (0 ≤ ·.fd)).map Taken.fd := by
    conv_lhs => rw [← s.group.map_fd_taken h.2.1, List.filter_map]
    rfl
  rw [← hmap]
  exact h.2.2

theorem Sound.read (hs : Sound s) {fds : List Int32} (h : s.Enabled (.read fds)) :
    Sound (s.next (.read fds)) := by
  obtain ⟨hgone, hworker, hreads⟩ := h
  refine hs.worker hgone (s.group.ledger_readEvents fds) rfl rfl hs.world ?_ (nodup_taken hreads)
    (fun e he ↦ by simpa using (List.mem_filter.mp he).2) (List.Subset.refl _)
    (by rintro e o rest ⟨⟩) (fun a ha ↦ Or.inl ha) fun haccess ↦ ?_
  · rw [hs.slot, hworker]
    rfl
  · rw [hworker] at haccess
    simp [Group.readEvents, haccess, Position.unanswered]

theorem Sound.skip (hs : Sound s) {e : Taken} {rest : List Taken} (h : s.Enabled (.skip e rest)) :
    Sound (s.next (.skip e rest)) := by
  obtain ⟨hgone, hworker, hfd⟩ := h
  have hfilter : (e :: rest).filter (0 ≤ ·.fd) = rest.filter (0 ≤ ·.fd) :=
    List.filter_cons_of_neg (by simpa using hfd)
  have hslot := hs.slot
  have hfds := hs.fds
  have hopened := hs.opened
  rw [hworker] at hslot hfds hopened
  simp only [Position.open', hfilter] at hfds hopened
  refine hs.worker hgone (List.Perm.refl _) rfl rfl hs.world hslot hfds hopened
    (List.Subset.refl _) (by rintro e o rest ⟨⟩) (fun a ha ↦ Or.inl ha) fun haccess ↦ ?_
  rw [haccess, hworker]
  exact hfilter

theorem Sound.hold (hs : Sound s) {e : Taken} {rest : List Taken} (h : s.Enabled (.hold e rest)) :
    Sound (s.next (.hold e rest)) := by
  obtain ⟨hgone, hworker, hfd⟩ := h
  have hfilter : (e :: rest).filter (0 ≤ ·.fd) = e :: rest.filter (0 ≤ ·.fd) :=
    List.filter_cons_of_pos (by simpa using hfd)
  have hfds := hs.fds
  have hopened := hs.opened
  rw [hworker] at hfds hopened
  simp only [Position.open', hfilter] at hfds hopened
  refine hs.worker hgone (List.Perm.refl _) rfl rfl hs.world rfl hfds hopened
    (List.Subset.refl _) (by rintro e o rest ⟨⟩) (fun a ha ↦ Or.inl ha) fun haccess ↦ ?_
  rw [haccess, hworker]
  exact hfilter

/-- A step within the handling of an event that answers nothing. -/
theorem Sound.handling (hs : Sound s) (hgone : s.gone = false) {e : Taken} {rest : List Taken}
    {stage stage' : Stage} (hworker : s.worker = .handling e stage rest) {page : Shared}
    {w : World V} {ds : List (Decision V)} (world : HydrationAPI.Reachable w)
    (slot : page.slot = (Position.handling e stage' rest).slot) (decisions : s.decisions ⊆ ds)
    (decided : ∀ o, stage' = .decided o → o.allowed = true → ∃ d ∈ ds, d.Grants e.reader)
    (access : (Position.handling e stage rest).unanswered
      = (Position.handling e stage' rest).unanswered) :
    Sound { s with
      shared := page, world := w, worker := .handling e stage' rest, decisions := ds } := by
  have hfds := hs.fds
  have hopened := hs.opened
  rw [hworker] at hfds hopened
  refine hs.worker hgone (List.Perm.refl _) rfl rfl world slot hfds hopened decisions ?_
    (fun a ha ↦ Or.inl ha) fun haccess ↦ ?_
  · rintro _ o _ ⟨⟩ ho
    exact decided o rfl ho
  · rw [haccess, hworker, access]

theorem Sound.decide (hs : Sound s) {e : Taken} {rest : List Taken} {c : Calls V}
    (h : s.Enabled (.decide e rest c)) : Sound (s.next (.decide e rest c)) := by
  obtain ⟨hgone, hworker⟩ := h
  have hslot := hs.slot
  rw [hworker] at hslot
  refine hs.handling hgone hworker (.next (.event e.reader.file e.reader.range c) hs.world trivial)
    hslot (List.subset_append_left _ _) (fun o ho hallowed ↦ ?_) rfl
  cases ho
  exact ⟨_, by simp, Decision.grants_of_allowed (d := ⟨e.reader, s.world, c⟩) hs.world hallowed⟩

theorem Sound.respond (hs : Sound s) {e : Taken} {o : Handled} {rest : List Taken}
    (h : s.Enabled (.respond e o rest)) : Sound (s.next (.respond e o rest)) := by
  obtain ⟨hgone, hworker⟩ := h
  have hslot := hs.slot
  have hfds := hs.fds
  have hopened := hs.opened
  have haccess := hs.alone (hs.open' hgone) (by rw [hs.watching hgone]; rfl)
  rw [hworker] at hslot hfds hopened haccess
  have hfind : s.group.access.find? (·.fd = e.fd) = some e := by
    rw [haccess]
    exact List.find?_cons_of_pos (by simp)
  refine hs.worker hgone (s.group.ledger_respondRaw _ _) (by simp) (by simp) hs.world hslot hfds
    hopened (List.Subset.refl _) (by rintro e o rest ⟨⟩) (fun a ha ↦ ?_) fun _ ↦ ?_
  · rcases Group.mem_answers_respondRaw ha with ha | ⟨e', he', rfl⟩
    · exact Or.inl ha
    · rw [hfind] at he'
      cases he'
      refine Or.inr ?_
      rw [response]
      split
      · rename_i hallowed
        exact Or.inr ⟨rfl, hs.decided e o rest hworker hallowed⟩
      · exact Or.inl rfl
  · rw [Group.access_respondRaw, haccess]
    exact List.eraseP_cons_of_pos (by simp)

theorem Sound.close (hs : Sound s) {e : Taken} {rest : List Taken} (h : s.Enabled (.close e rest)) :
    Sound (s.next (.close e rest)) := by
  obtain ⟨hgone, hworker⟩ := h
  have hslot := hs.slot
  have hfds := hs.fds
  have hopened := hs.opened
  rw [hworker] at hslot hfds hopened
  refine hs.worker hgone (List.Perm.refl _) rfl rfl hs.world hslot (List.nodup_cons.mp hfds).2
    (fun e he ↦ hopened e (List.mem_cons_of_mem _ he)) (List.Subset.refl _)
    (by rintro e o rest ⟨⟩) (fun a ha ↦ Or.inl ha) fun haccess ↦ ?_
  rw [haccess, hworker]
  rfl

/-- Answering for the worker takes care of the event it held, and of no other. -/
theorem Sound.access_takeOver (hs : Sound s) (hopen : s.group.closed = false)
    (htaking : s.supervisor = .takingOver) :
    (Split.takeOver s.group s.shared).access = s.worker.left := by
  have haccess := hs.alone hopen (by rw [htaking]; rfl)
  have hslot := hs.slot
  have hfds := hs.fds
  have hopened := hs.opened
  cases hworker : s.worker with
  | batch events =>
    rw [hworker] at hslot haccess
    rw [takeOver_of_none (if_pos hslot), haccess]
    rfl
  | handling e stage rest =>
    rw [hworker] at hslot haccess hfds hopened
    have hcurrent : s.shared.slot = e.fd → s.shared.current = some e.fd := by
      intro heq
      have hpos : 0 ≤ e.fd := hopened e List.mem_cons_self
      rw [Shared.current, if_neg, heq]
      rw [heq]
      intro hminus
      rw [hminus] at hpos
      exact absurd hpos (by decide)
    -- a response that the worker has made itself leaves the number to nobody
    have habsent : (rest.filter (0 ≤ ·.fd)).eraseP (·.fd = e.fd) = rest.filter (0 ≤ ·.fd) := by
      refine List.eraseP_of_forall_not fun a ha hfd ↦ ?_
      exact (List.nodup_cons.mp hfds).1 (List.mem_map.mpr ⟨a, ha, by simpa using hfd⟩)
    cases stage with
    | held =>
      rw [access_takeOver_of_some (hcurrent hslot), haccess]
      exact List.eraseP_cons_of_pos (by simp)
    | decided o =>
      rw [access_takeOver_of_some (hcurrent hslot), haccess]
      exact List.eraseP_cons_of_pos (by simp)
    | answered =>
      rw [access_takeOver_of_some (hcurrent hslot), haccess]
      exact habsent
    | counted =>
      rw [access_takeOver_of_some (hcurrent hslot), haccess]
      exact habsent
    | cleared =>
      rw [takeOver_of_none (if_pos hslot), haccess]
      rfl

theorem Sound.takeOver (hs : Sound s) (h : s.Enabled .takeOver) : Sound (s.next .takeOver) := by
  obtain ⟨-, htaking⟩ := h
  have hgone : s.gone = true := hs.gone (by rw [htaking]; simp)
  obtain ⟨hledger, hclosed, hthrough, hanswers⟩ := takeOver_spec s.group s.shared
  refine hs.supervisor hledger hclosed hthrough hanswers (fun _ ↦ hgone) id id
    (fun _ h ↦ by cases h) fun hopen events h ↦ ?_
  cases h
  rw [hs.access_takeOver hopen htaking]
  simp

theorem Sound.drain (hs : Sound s) {fds : List Int32} (h : s.Enabled (.drain fds)) :
    Sound (s.next (.drain fds)) := by
  obtain ⟨-, hdraining, -⟩ := h
  have hgone : s.gone = true := hs.gone (by rw [hdraining]; simp)
  refine hs.supervisor (s.group.ledger_readEvents fds) rfl rfl (fun a ha ↦ Or.inl ha)
    (fun _ ↦ hgone) id id (fun _ h ↦ by cases h) fun hopen events h ↦ ?_
  cases h
  have hbehind := hs.behind hopen [] (by rw [hdraining]; rfl)
  simpa [Group.readEvents] using hbehind.append_right _

theorem Sound.pass (hs : Sound s) {e : Taken} {rest : List Taken} (h : s.Enabled (.pass e rest)) :
    Sound (s.next (.pass e rest)) := by
  obtain ⟨-, hdraining, hfd⟩ := h
  have hgone : s.gone = true := hs.gone (by rw [hdraining]; simp)
  refine hs.supervisor (List.Perm.refl _) rfl rfl (fun a ha ↦ Or.inl ha)
    (fun _ ↦ hgone) id id (fun _ h ↦ by cases h) fun hopen events h ↦ ?_
  cases h
  have hbehind := hs.behind hopen (e :: rest) (by rw [hdraining]; rfl)
  rwa [List.filter_cons_of_neg (by simpa using hfd)] at hbehind

/-- A denial takes one number off, wherever the event was read. -/
theorem Sound.deny (hs : Sound s) {e : Taken} {rest : List Taken} (h : s.Enabled (.deny e rest)) :
    Sound (s.next (.deny e rest)) := by
  obtain ⟨-, hdraining, hfd⟩ := h
  have hgone : s.gone = true := hs.gone (by rw [hdraining]; simp)
  refine hs.supervisor (s.group.ledger_respondRaw _ _) (by simp) (by simp) (fun a ha ↦ ?_)
    (fun _ ↦ hgone) id id (fun _ h ↦ by cases h) fun hopen events h ↦ ?_
  · rcases Group.mem_answers_respondRaw ha with ha | ⟨e, -, rfl⟩
    · exact Or.inl ha
    · exact Or.inr rfl
  · cases h
    have hbehind := hs.behind hopen (e :: rest) (by rw [hdraining]; rfl)
    rw [List.filter_cons_of_pos (by simpa using hfd), List.map_cons] at hbehind
    rw [Group.map_fd_respondRaw]
    refine (hbehind.trans List.perm_middle).erase e.fd |>.trans ?_
    rw [List.erase_cons_head]

theorem Sound.release (hs : Sound s) (h : s.Enabled .release) : Sound (s.next .release) :=
  { hs with
    ledger := hs.ledger.trans s.group.ledger_release.symm
    alone := fun hopen ↦ by cases hopen
    behind := fun hopen ↦ by cases hopen
    closed := fun _ ↦ ⟨h.1, h.2.1⟩
    through := fun _ ↦ rfl }

/-- A step of the supervisor that answers nothing, and reads nothing more. -/
theorem Sound.supervise (hs : Sound s) {p : Supervisor} {gone down : Bool}
    (hgone : p ≠ .watching → gone = true) (hstays : s.gone = true → gone = true)
    (hdown : s.down = true → down = true) (hreading : p.reading = s.supervisor.reading) :
    Sound { s with supervisor := p, gone := gone, down := down } :=
  hs.supervisor (List.Perm.refl _) rfl rfl (fun _ ha ↦ Or.inl ha) hgone hstays hdown
    (hreading ▸ hs.alone) (hreading ▸ hs.behind)

/-- **Every step keeps it.** -/
theorem Sound.next (hs : Sound s) (a : Act V) (h : s.Enabled a) : Sound (s.next a) := by
  cases a with
  | ask r => exact hs.ask h.2
  | mount l => exact hs.mount h
  | read fds => exact hs.read h
  | skip e rest => exact hs.skip h
  | hold e rest => exact hs.hold h
  | work e rest =>
    have hslot := hs.slot
    rw [h.2] at hslot
    exact { hs with slot := hs.slot }
  | decide e rest c => exact hs.decide h
  | respond e outcome rest => exact hs.respond h
  | count e rest =>
    have hslot := hs.slot
    rw [h.2] at hslot
    exact hs.handling h.1 h.2 hs.world hslot (List.Subset.refl _) (by rintro o ⟨⟩) rfl
  | clear e rest =>
    exact hs.handling h.1 h.2 hs.world rfl (List.Subset.refl _) (by rintro o ⟨⟩) rfl
  | close e rest => exact hs.close h
  | die => exact hs.supervise (fun _ ↦ rfl) (fun _ ↦ rfl) id rfl
  | kill => exact hs.supervise (fun _ ↦ rfl) (fun _ ↦ rfl) id (by rw [h.2]; rfl)
  | notice => exact hs.supervise (fun _ ↦ h.2.2) id id (by rw [h.2.1]; rfl)
  | takeOver => exact hs.takeOver h
  | drain fds => exact hs.drain h
  | pass e rest => exact hs.pass h
  | deny e rest => exact hs.deny h
  | leave =>
    have hgone : s.gone = true := hs.gone (by rw [h.2]; simp)
    exact hs.supervise (fun _ ↦ hgone) id (fun _ ↦ rfl) (by rw [h.2]; rfl)
  | crash => exact hs.supervise hs.gone id (fun _ ↦ rfl) rfl
  | release => exact hs.release h

end Halves

variable {V : Type*} {s : Halves V}

theorem Reachable.sound (hs : Reachable s) : s.Sound := by
  induction hs with
  | start disk policy => exact Halves.Sound.start disk policy
  | next a _ h ih => exact ih.next a h

/-! ## The guarantees -/

/-- **Nobody who asks is lost or answered twice, and only the worker lets a read through.** Everyone
the group has ever held up is in one place of what the kernel keeps; an answer is a denial, or an
allow that the worker has decided on where what is demanded had been fetched; and nobody passes
unanswered before both halves are gone. -/
theorem accounted_for (hs : Reachable s) :
    s.group.ledger.Nodup ∧ s.asked.Perm s.group.ledger
      ∧ (∀ p ∈ s.group.answers, p.2 = denyWith eio ∨ p.2 = fanAllow ∧ s.Granted p.1)
      ∧ (s.group.through ≠ [] → s.gone = true ∧ s.down = true) := by
  have hsound := hs.sound
  exact ⟨hsound.ledger.nodup_iff.mp hsound.nodup, hsound.ledger, hsound.answers,
    fun h ↦ hsound.closed (hsound.through h)⟩

def sampleStart : Halves Unit :=
  .start (fun _ ↦ placeholder 8 eight_le_u64Max true) Policy.permissive

theorem reachable_sampleStart : Reachable sampleStart := .start _ _

def firstReader : Reader := ⟨0, sampleId, some (4, 2)⟩

def secondReader : Reader := ⟨1, sampleId, none⟩

/-- Two readers ask, and both events are read at once. -/
def bothRead : List (Act Unit) :=
  [.ask firstReader, .ask secondReader, .read [7, 8], .hold ⟨7, firstReader⟩ [⟨8, secondReader⟩]]

def firstAnswered : List (Act Unit) :=
  [.decide ⟨7, firstReader⟩ [⟨8, secondReader⟩] (calm none),
    .respond ⟨7, firstReader⟩ (.served 2 2 8) [⟨8, secondReader⟩]]

theorem makes_firstAnswered : sampleStart.Makes (bothRead ++ firstAnswered) := by
  refine ⟨⟨rfl, by decide⟩, ⟨rfl, by decide⟩, ⟨rfl, rfl, by decide⟩, ⟨rfl, rfl, by decide⟩,
    ⟨rfl, rfl⟩, ⟨rfl, ?_⟩, trivial⟩
  decide

/-- The first of two readers is let through by the worker's decision. -/
theorem accounted_for_first :
    (sampleStart.run (bothRead ++ firstAnswered)).Granted firstReader := by
  obtain ⟨-, -, hanswers, -⟩ := accounted_for (reachable_sampleStart.run makes_firstAnswered)
  rcases hanswers (firstReader, fanAllow) (by decide) with h | ⟨-, h⟩
  · exact absurd h.symm denyWith_eio_ne
  · exact h

/-- The worker is killed with the first event in its hands, and the supervisor leaves in peace. -/
def abandoned : List (Act Unit) := [.die, .notice, .takeOver, .leave]

/-- The numbers of the two halves can meet: what is denied then is the older event, and the reader
who asked after the worker was gone passes instead. -/
example : ((sampleStart.run (bothRead ++ [.die, .notice, .takeOver, .ask ⟨2, sampleId, none⟩,
    .drain [8], .deny ⟨8, ⟨2, sampleId, none⟩⟩ [], .leave])).next .release).group.through
      = [⟨2, sampleId, none⟩] := by decide

end HydrationAPI.Split
