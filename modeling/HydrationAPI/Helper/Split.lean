import HydrationAPI.Helper.Run

/-!
# The two halves of the helper

The helper is split in two before anything can go wrong. The worker reads events from the group,
publishes the one it holds, decides about it and answers it; the supervisor holds the group open,
and does nothing until the worker is gone. Then it answers the event the worker held, denies what is
still coming, and leaves; when neither half holds the group any more, the kernel lets through
whatever has not been answered.

The steps of the kernel, of either half and of the users of the mount are interleaved in any order,
and either half can come to its end between any two of its steps. A response is matched with the
event it is for by a number, the descriptor that the event came with, and a descriptor is a number
of the process that read the event. So the numbers of the one half mean nothing to the other, but
for the one that the worker has published.
-/

namespace HydrationAPI.Split

/-! ## The group -/

/-- A read held up by an event; the numbers tell the reads of a run apart. -/
structure Reader where
  number : ℕ
  file : FileId
  range : Option (ℕ × ℕ)
  deriving DecidableEq

/-- An event that has been read: the descriptor that came with it, negative where the kernel could
not open one. -/
structure Taken where
  fd : Int32
  reader : Reader
  deriving DecidableEq

def fanAllow : UInt32 := 1

def fanDeny : UInt32 := 2

def eio : Int32 := 5

/-- The error a denial is to be reported as is carried in the top byte. -/
def denyWith (errno : Int32) : UInt32 := fanDeny ||| ((errno.toUInt32 &&& 0xff) <<< 24)

theorem denyWith_eio_ne : denyWith eio ≠ fanAllow := by decide

/-- What the kernel keeps for the group. -/
structure Group where
  /-- The events that have not been read. -/
  queue : List Reader
  /-- The events that have been read and not answered, the oldest first. -/
  access : List Taken
  answers : List (Reader × UInt32)
  /-- What the kernel denied by itself, for want of a descriptor. -/
  refused : List Reader
  /-- What the kernel let through when the last reference to the group was gone. -/
  through : List Reader
  closed : Bool

namespace Group

def new : Group := ⟨[], [], [], [], [], false⟩

def ask (g : Group) (r : Reader) : Group := { g with queue := g.queue ++ [r] }

/-- The events a read takes, which come with these descriptors. -/
def taken (g : Group) (fds : List Int32) : List Taken := List.zipWith Taken.mk fds g.queue

def readEvents (g : Group) (fds : List Int32) : Group :=
  { g with
    queue := g.queue.drop fds.length
    access := g.access ++ (g.taken fds).filter (0 ≤ ·.fd)
    refused := g.refused ++ ((g.taken fds).filter (¬0 ≤ ·.fd)).map Taken.reader }

/-- Answer the first event that is waiting under this number; there may be none. -/
def respondRaw (g : Group) (fd : Int32) (response : UInt32) : Group :=
  match g.access.find? (·.fd = fd) with
  | none => g
  | some e =>
    { g with
      access := g.access.eraseP (·.fd = fd)
      answers := g.answers ++ [(e.reader, response)] }

/-- Nobody refers to the group any more. -/
def release (g : Group) : Group :=
  { g with
    queue := []
    access := []
    through := g.through ++ (g.access.map Taken.reader ++ g.queue)
    closed := true }

/-- Everyone the kernel knows of. -/
def ledger (g : Group) : List Reader :=
  g.answers.map Prod.fst ++ g.access.map Taken.reader ++ g.queue ++ g.refused ++ g.through

end Group

/-! ## The page that the halves share -/

structure Shared where
  /-- The descriptor of the event the worker holds, or `-1`. -/
  slot : Int32
  working : UInt64
  beat : UInt64

namespace Shared

def new : Shared := ⟨-1, 0, 0⟩

def holding (s : Shared) (fd : Int32) : Shared := { s with slot := fd }

/-- The first of the two stores of `released`. -/
def count (s : Shared) : Shared := { s with beat := s.beat + 1 }

def clear (s : Shared) : Shared := { s with slot := -1 }

def work (s : Shared) : Shared := { s with working := s.working + 1 }

def current (s : Shared) : Option Int32 := if s.slot = -1 then none else some s.slot

end Shared

/-- What the supervisor does once the worker is gone: the event that the worker held has left the
queue with it, and can only be answered by number. -/
def takeOver (g : Group) (page : Shared) : Group :=
  match page.current with
  | some stranded => g.respondRaw stranded (denyWith eio)
  | none => g

/-! ## The halves -/

/-- How far an event is that the worker is handling. -/
inductive Stage where
  /-- Published, and not decided about. -/
  | held
  | decided (outcome : Handled)
  | answered
  /-- Counted, and still published. -/
  | counted
  | cleared
  deriving DecidableEq

/-- Where the worker is. -/
inductive Position where
  /-- At the head of one of its loops, with what is left of the events it has read. -/
  | batch (events : List Taken)
  | handling (e : Taken) (stage : Stage) (rest : List Taken)
  deriving DecidableEq

namespace Position

/-- The events the worker has read and not come to, but for those that need no answer. -/
def left : Position → List Taken
  | batch events | handling _ _ events => events.filter (0 ≤ ·.fd)

/-- The events the worker has yet to answer. -/
def unanswered : Position → List Taken
  | batch events => events.filter (0 ≤ ·.fd)
  | handling e .held rest | handling e (.decided _) rest => e :: rest.filter (0 ≤ ·.fd)
  | handling _ .answered rest | handling _ .counted rest | handling _ .cleared rest =>
    rest.filter (0 ≤ ·.fd)

/-- The events whose descriptors the worker has open. -/
def open' : Position → List Taken
  | batch events => events.filter (0 ≤ ·.fd)
  | handling e _ rest => e :: rest.filter (0 ≤ ·.fd)

/-- What the slot has to say. -/
def slot : Position → Int32
  | batch _ | handling _ .cleared _ => -1
  | handling e _ _ => e.fd

end Position

inductive Supervisor where
  | watching
  /-- The worker is gone, and what it held is still to be answered. -/
  | takingOver
  | draining (events : List Taken)
  | left
  deriving DecidableEq

/-- What the supervisor has read and not come to, once it reads events itself. -/
def Supervisor.reading : Supervisor → Option (List Taken)
  | watching | takingOver => none
  | draining events => some events
  | left => some []

/-- A decision the worker has made. -/
structure Decision (V : Type*) where
  reader : Reader
  world : World V
  calls : Calls V

namespace Decision

variable {V : Type*}

def outcome (d : Decision V) : Handled × World V :=
  Worker.decideAndFill d.world d.reader.file d.reader.range d.calls

end Decision

structure Halves (V : Type*) where
  group : Group
  shared : Shared
  /-- The disk, the fetch thread, and what the worker remembers. -/
  world : World V
  worker : Position
  /-- The worker has exited, or has been killed, and makes no step any more. -/
  gone : Bool
  supervisor : Supervisor
  /-- The supervisor has exited or been killed. -/
  down : Bool
  /-- Everyone whose read the group has held up. -/
  asked : List Reader
  decisions : List (Decision V)

/-! ## The steps -/

inductive Act (V : Type*) where
  | ask (r : Reader)
  /-- The users of the mount, and the fetch thread. -/
  | mount (l : Label V)
  | read (fds : List Int32)
  /-- The worker comes to the next of the events it has read, and skips it. -/
  | skip (e : Taken) (rest : List Taken)
  | hold (e : Taken) (rest : List Taken)
  | work (e : Taken) (rest : List Taken)
  | decide (e : Taken) (rest : List Taken) (c : Calls V)
  | respond (e : Taken) (outcome : Handled) (rest : List Taken)
  | count (e : Taken) (rest : List Taken)
  | clear (e : Taken) (rest : List Taken)
  | close (e : Taken) (rest : List Taken)
  | die
  /-- The supervisor takes the worker for stuck, or the mount for replaced. -/
  | kill
  | notice
  | takeOver
  | drain (fds : List Int32)
  | pass (e : Taken) (rest : List Taken)
  | deny (e : Taken) (rest : List Taken)
  | leave
  | crash
  | release

namespace Halves

variable {V : Type*}

def start (disk : FileId → File V) (policy : Policy) : Halves V :=
  ⟨.new, .new, .start disk policy, .batch [], false, .watching, false, [], []⟩

/-- What is answered for an outcome. -/
def response (outcome : Handled) : UInt32 := if outcome.allowed then fanAllow else denyWith eio

def next (s : Halves V) : Act V → Halves V
  | .ask r => { s with group := s.group.ask r, asked := s.asked ++ [r] }
  | .mount l => { s with world := s.world.next l }
  | .read fds => { s with group := s.group.readEvents fds, worker := .batch (s.group.taken fds) }
  | .skip _ rest => { s with worker := .batch rest }
  | .hold e rest => { s with shared := s.shared.holding e.fd, worker := .handling e .held rest }
  | .work _ _ => { s with shared := s.shared.work }
  | .decide e rest c =>
    let d : Decision V := ⟨e.reader, s.world, c⟩
    { s with
      world := d.outcome.2
      worker := .handling e (.decided d.outcome.1) rest
      decisions := s.decisions ++ [d] }
  | .respond e outcome rest =>
    { s with
      group := s.group.respondRaw e.fd (response outcome)
      worker := .handling e .answered rest }
  | .count e rest => { s with shared := s.shared.count, worker := .handling e .counted rest }
  | .clear e rest => { s with shared := s.shared.clear, worker := .handling e .cleared rest }
  | .close _ rest => { s with worker := .batch rest }
  | .die => { s with gone := true }
  | .kill => { s with gone := true, supervisor := .takingOver }
  | .notice => { s with supervisor := .takingOver }
  | .takeOver => { s with group := takeOver s.group s.shared, supervisor := .draining [] }
  | .drain fds =>
    { s with group := s.group.readEvents fds, supervisor := .draining (s.group.taken fds) }
  | .pass _ rest => { s with supervisor := .draining rest }
  | .deny e rest =>
    { s with group := s.group.respondRaw e.fd (denyWith eio), supervisor := .draining rest }
  | .leave => { s with supervisor := .left, down := true }
  | .crash => { s with down := true }
  | .release => { s with group := s.group.release }

/-- A read of so many events, with descriptors that are not in use. -/
def Reads (s : Halves V) (fds : List Int32) : Prop :=
  fds ≠ [] ∧ fds.length ≤ s.group.queue.length ∧ (fds.filter (0 ≤ ·)).Nodup

instance (s : Halves V) (fds : List Int32) : Decidable (s.Reads fds) :=
  inferInstanceAs (Decidable (_ ∧ _ ∧ _))

/-- When a step can be made. -/
def Enabled (s : Halves V) : Act V → Prop
  | .ask r => s.group.closed = false ∧ r ∉ s.asked
  | .mount l =>
    match l with
    | .event .. => False
    | .ghost => s.gone = false
    | .write .. | .truncate .. => l.Moves s.world
  | .read fds => s.gone = false ∧ s.worker = .batch [] ∧ s.Reads fds
  | .skip e rest => s.gone = false ∧ s.worker = .batch (e :: rest) ∧ ¬0 ≤ e.fd
  | .hold e rest => s.gone = false ∧ s.worker = .batch (e :: rest) ∧ 0 ≤ e.fd
  | .work e rest => s.gone = false ∧ s.worker = .handling e .held rest
  | .decide e rest _ => s.gone = false ∧ s.worker = .handling e .held rest
  | .respond e outcome rest => s.gone = false ∧ s.worker = .handling e (.decided outcome) rest
  | .count e rest => s.gone = false ∧ s.worker = .handling e .answered rest
  | .clear e rest => s.gone = false ∧ s.worker = .handling e .counted rest
  | .close e rest => s.gone = false ∧ s.worker = .handling e .cleared rest
  | .die => s.gone = false
  | .kill => s.down = false ∧ s.supervisor = .watching
  | .notice => s.down = false ∧ s.supervisor = .watching ∧ s.gone = true
  | .takeOver => s.down = false ∧ s.supervisor = .takingOver
  | .drain fds => s.down = false ∧ s.supervisor = .draining [] ∧ s.Reads fds
  | .pass e rest => s.down = false ∧ s.supervisor = .draining (e :: rest) ∧ ¬0 ≤ e.fd
  | .deny e rest => s.down = false ∧ s.supervisor = .draining (e :: rest) ∧ 0 ≤ e.fd
  | .leave => s.down = false ∧ s.supervisor = .draining []
  | .crash => s.down = false
  | .release => s.gone = true ∧ s.down = true ∧ s.group.closed = false

end Halves

/-- The states the two halves can get to. -/
inductive Reachable {V : Type*} : Halves V → Prop where
  | start (disk : FileId → File V) (policy : Policy) : Reachable (Halves.start disk policy)
  | next {s : Halves V} (a : Act V) : Reachable s → s.Enabled a → Reachable (s.next a)

namespace Halves

variable {V : Type*}

/-- The steps can be made one after the other. -/
def Makes (s : Halves V) : List (Act V) → Prop
  | [] => True
  | a :: as => s.Enabled a ∧ (s.next a).Makes as

/-- The state after a sequence of steps. -/
def run (s : Halves V) (as : List (Act V)) : Halves V := as.foldl next s

end Halves

theorem Reachable.run {V : Type*} {s : Halves V} (hs : Reachable s) {as : List (Act V)}
    (h : s.Makes as) : Reachable (s.run as) := by
  induction as generalizing s with
  | nil => exact hs
  | cons a as ih => exact ih (hs.next a h.1) h.2

/-! ## What the kernel keeps -/

namespace Group

theorem map_fd_taken (g : Group) {fds : List Int32} (h : fds.length ≤ g.queue.length) :
    (g.taken fds).map Taken.fd = fds := by
  rw [taken]
  generalize g.queue = q at h
  induction fds generalizing q with
  | nil => rfl
  | cons fd fds ih =>
    obtain _ | ⟨r, q⟩ := q
    · simp at h
    · simpa using ih q (by simpa using h)

theorem map_reader_taken (g : Group) (fds : List Int32) :
    (g.taken fds).map Taken.reader = g.queue.take fds.length := by
  rw [taken]
  generalize g.queue = q
  induction fds generalizing q with
  | nil => simp
  | cons fd fds ih =>
    obtain _ | ⟨r, q⟩ := q
    · simp
    · simpa using ih q

theorem access_respondRaw (g : Group) (fd : Int32) (response : UInt32) :
    (g.respondRaw fd response).access = g.access.eraseP (·.fd = fd) := by
  rw [respondRaw]
  split
  · rename_i h
    rw [List.eraseP_of_forall_not]
    simpa using h
  · rfl

theorem map_fd_respondRaw (g : Group) (fd : Int32) (response : UInt32) :
    (g.respondRaw fd response).access.map Taken.fd = (g.access.map Taken.fd).erase fd := by
  rw [access_respondRaw, List.erase_eq_eraseP', List.eraseP_map]
  rfl

theorem mem_answers_respondRaw {g : Group} {fd : Int32} {response : UInt32}
    {p : Reader × UInt32} (h : p ∈ (g.respondRaw fd response).answers) :
    p ∈ g.answers ∨ ∃ e, g.access.find? (·.fd = fd) = some e ∧ p = (e.reader, response) := by
  rw [respondRaw] at h
  split at h
  · exact Or.inl h
  · rename_i e he
    rcases List.mem_append.mp h with h | h
    · exact Or.inl h
    · exact Or.inr ⟨e, he, List.mem_singleton.mp h⟩

@[simp] theorem closed_respondRaw (g : Group) (fd : Int32) (response : UInt32) :
    (g.respondRaw fd response).closed = g.closed := by
  rw [respondRaw]
  split <;> rfl

@[simp] theorem through_respondRaw (g : Group) (fd : Int32) (response : UInt32) :
    (g.respondRaw fd response).through = g.through := by
  rw [respondRaw]
  split <;> rfl

/-! ### Nobody is lost, and nobody is there twice -/

theorem ledger_ask (g : Group) (r : Reader) : (g.ask r).ledger.Perm (g.ledger ++ [r]) := by
  refine List.perm_iff_count.mpr fun a ↦ ?_
  simp only [ledger, ask, List.count_append]
  omega

theorem ledger_readEvents (g : Group) (fds : List Int32) :
    (g.readEvents fds).ledger.Perm g.ledger := by
  have hsplit : (((g.taken fds).filter (0 ≤ ·.fd)).map Taken.reader
      ++ ((g.taken fds).filter (¬0 ≤ ·.fd)).map Taken.reader).Perm (g.queue.take fds.length) := by
    rw [← map_reader_taken, ← List.map_append]
    refine List.Perm.map _ ?_
    simpa only [decide_not] using
      List.filter_append_perm (fun e : Taken ↦ decide (0 ≤ e.fd)) (g.taken fds)
  refine List.perm_iff_count.mpr fun a ↦ ?_
  have htaken := hsplit.count_eq a
  have hqueue := congrArg (List.count a) (List.take_append_drop fds.length g.queue)
  simp only [ledger, readEvents, List.map_append, List.count_append] at htaken hqueue ⊢
  omega

theorem perm_eraseP_of_find? {α : Type*} {p : α → Bool} {l : List α} {a : α}
    (h : l.find? p = some a) : l.Perm (a :: l.eraseP p) := by
  induction l with
  | nil => cases h
  | cons b l ih =>
    by_cases hb : p b = true
    · rw [List.find?_cons_of_pos hb] at h
      rw [List.eraseP_cons_of_pos hb, ← Option.some_inj.mp h]
    · rw [List.find?_cons_of_neg hb] at h
      rw [List.eraseP_cons_of_neg hb]
      exact ((ih h).cons b).trans (List.Perm.swap ..)

theorem ledger_respondRaw (g : Group) (fd : Int32) (response : UInt32) :
    (g.respondRaw fd response).ledger.Perm g.ledger := by
  rw [respondRaw]
  split
  · exact List.Perm.refl _
  · rename_i e he
    refine List.perm_iff_count.mpr fun a ↦ ?_
    have hcount := ((perm_eraseP_of_find? he).map Taken.reader).count_eq a
    simp only [ledger, List.map_append, List.map_cons, List.map_nil, List.count_append,
      List.count_cons, List.count_nil] at hcount ⊢
    omega

theorem ledger_release (g : Group) : g.release.ledger.Perm g.ledger := by
  refine List.perm_iff_count.mpr fun a ↦ ?_
  simp only [ledger, release, List.map_nil, List.count_append, List.count_nil]
  omega

end Group

section TakeOver

variable {g : Group} {page : Shared}

theorem takeOver_of_none (h : page.current = none) : takeOver g page = g := by
  rw [takeOver, h]

theorem access_takeOver_of_some {fd : Int32} (h : page.current = some fd) :
    (takeOver g page).access = g.access.eraseP (·.fd = fd) := by
  rw [takeOver, h, Group.access_respondRaw]

/-- Whatever the slot says, taking over denies at most one read more, and loses none. -/
theorem takeOver_spec (g : Group) (page : Shared) :
    (takeOver g page).ledger.Perm g.ledger ∧ (takeOver g page).closed = g.closed
      ∧ (takeOver g page).through = g.through
      ∧ ∀ a ∈ (takeOver g page).answers, a ∈ g.answers ∨ a.2 = denyWith eio := by
  rw [takeOver]
  split
  · refine ⟨g.ledger_respondRaw _ _, g.closed_respondRaw _ _, g.through_respondRaw _ _,
      fun a ha ↦ ?_⟩
    rcases Group.mem_answers_respondRaw ha with ha | ⟨e, -, rfl⟩
    · exact Or.inl ha
    · exact Or.inr rfl
  · exact ⟨List.Perm.refl _, rfl, rfl, fun a ha ↦ Or.inl ha⟩

end TakeOver

end HydrationAPI.Split
