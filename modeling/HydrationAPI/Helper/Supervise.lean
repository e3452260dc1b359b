import Mathlib.Data.List.Dedup
import Mathlib.Order.Monotone.Basic
import HydrationAPI.Helper.Placeholder

/-!
# Watching the worker, and leaving

The supervisor turns in two loops. In the first it looks at the page it shares with the worker: it
takes the worker for stuck when the worker holds an event and neither of its counters has been seen
to move for long enough. In the second, when the worker is gone and the mount detached, it denies
what still comes until nothing has come for a while, and until a cap in any case.

A pass of either loop is given by what the pass sees, with the clock at the places where the loop
reads it. Times are in milliseconds.
-/

namespace HydrationAPI.Supervise

/-! ## The watch -/

def defaultStall : ℕ := 90 * 1000

def mountCheckEvery : ℕ := 2 * 1000

/-- What one pass sees. -/
structure Pass where
  /-- The worker has been reaped. -/
  exited : Bool
  beat : UInt64
  working : UInt64
  slot : Option Int32
  mount : Except IoError Bool
  /-- The clock when the counters have been read, when their age is asked for, and when the mount
  may be due. -/
  clock : ℕ
  checked : ℕ
  asked : ℕ

def Pass.counters (p : Pass) : UInt64 × UInt64 := (p.beat, p.working)

inductive Verdict where
  | exited
  | stalled
  | unmarked (why : String)
  deriving DecidableEq

structure Watch where
  beat : UInt64 × UInt64
  moved : ℕ
  nextMountCheck : ℕ

namespace Watch

def start (p : Pass) : Watch := ⟨p.counters, p.clock, p.asked + mountCheckEvery⟩

/-- Either counter moving is proof of life. -/
def compare (w : Watch) (p : Pass) : Watch :=
  if p.counters ≠ w.beat then { w with beat := p.counters, moved := p.clock } else w

variable (stallAfter : ℕ) (marked : Bool)

def pass (w : Watch) (p : Pass) : Except Verdict Watch :=
  if p.exited then .error .exited
  else
    let w := w.compare p
    if p.slot.isSome && decide (stallAfter ≤ p.checked - w.moved) then .error .stalled
    else if marked && decide (w.nextMountCheck ≤ p.asked) then
      match p.mount with
      | .ok true => .ok { w with nextMountCheck := p.asked + mountCheckEvery }
      | .ok false => .error (.unmarked "the mount was replaced under the mark")
      | .error e => .error (.unmarked s!"the marked mount can no longer be read: {e.text}")
    else .ok w

/-- The passes up to the `n`-th; the first look is before the loop. -/
def after (p : ℕ → Pass) : ℕ → Except Verdict Watch
  | 0 => .ok (start (p 0))
  | n + 1 =>
    match after p n with
    | .ok w => w.pass stallAfter marked (p (n + 1))
    | .error v => .error v

variable {stallAfter : ℕ} {marked : Bool} {p : ℕ → Pass} {n m : ℕ} {w : Watch}

/-- The counters have been the same at every pass from the `m`-th to the `n`-th. -/
def Unmoved (p : ℕ → Pass) (m n : ℕ) : Prop :=
  ∀ i, m ≤ i → i ≤ n → (p i).counters = (p n).counters

theorem after_succ (h : after stallAfter marked p n = .ok w) :
    after stallAfter marked p (n + 1) = w.pass stallAfter marked (p (n + 1)) := by
  rw [after, h]

/-- What the watch remembers is when the last move was seen. -/
structure Since (p : ℕ → Pass) (n : ℕ) (w : Watch) (m : ℕ) : Prop where
  le : m ≤ n
  beat : w.beat = (p n).counters
  moved : w.moved = (p m).clock
  unmoved : Unmoved p m n
  /-- There was another value before. -/
  first : ∀ k, Unmoved p k n → k ≤ n → m ≤ k

theorem Since.start (p : ℕ → Pass) : Since p 0 (.start (p 0)) 0 :=
  ⟨le_rfl, rfl, rfl, fun i _ hi ↦ by rw [Nat.le_zero.mp hi], fun k _ _ ↦ Nat.zero_le k⟩

theorem Since.compare (h : Since p n w m) : ∃ k, Since p (n + 1) (w.compare (p (n + 1))) k := by
  rw [Watch.compare]
  by_cases hmoved : (p (n + 1)).counters ≠ w.beat
  · rw [if_pos hmoved]
    refine ⟨n + 1, le_rfl, rfl, rfl, fun i hi hi' ↦ by rw [le_antisymm hi' hi], fun k hk hle ↦ ?_⟩
    by_contra hlt
    exact hmoved ((hk n (by omega) (by omega)).symm.trans h.beat.symm)
  · rw [if_neg hmoved]
    have hsame : (p (n + 1)).counters = (p n).counters := (not_not.mp hmoved).trans h.beat
    refine ⟨m, h.le.trans n.le_succ, h.beat.trans hsame.symm, h.moved, fun i hi hi' ↦ ?_,
      fun k hk hle ↦ ?_⟩
    · rcases Nat.lt_or_eq_of_le hi' with hlt | rfl
      · exact (h.unmoved i hi (by omega)).trans hsame.symm
      · rfl
    · rcases Nat.lt_or_eq_of_le hle with hlt | rfl
      · exact h.first k (fun i hi hi' ↦ (hk i hi (by omega)).trans hsame) (by omega)
      · exact h.le.trans n.le_succ

theorem pass_eq_stalled_iff {q : Pass} :
    w.pass stallAfter marked q = .error .stalled
      ↔ q.exited = false ∧ q.slot.isSome = true ∧ stallAfter ≤ q.checked - (w.compare q).moved := by
  rw [Watch.pass]
  cases q.exited with
  | true => simp
  | false =>
    by_cases hstale :
      (q.slot.isSome && decide (stallAfter ≤ q.checked - (w.compare q).moved)) = true
    · have hboth := hstale
      simp only [Bool.and_eq_true, decide_eq_true_eq] at hboth
      simp [hboth]
    · simp only [hstale, Bool.false_eq_true, if_false, true_and]
      refine iff_of_false ?_ (by simpa using hstale)
      split
      · split <;> rintro ⟨⟩
      · rintro ⟨⟩

theorem of_pass_eq_ok {q : Pass} {w' : Watch} (h : w.pass stallAfter marked q = .ok w') :
    q.exited = false ∧ w'.beat = (w.compare q).beat ∧ w'.moved = (w.compare q).moved := by
  rw [Watch.pass] at h
  cases hexited : q.exited with
  | true => simp [hexited] at h
  | false =>
    refine ⟨rfl, ?_⟩
    simp only [hexited, Bool.false_eq_true, if_false] at h
    split at h
    · cases h
    · split at h
      · split at h
        · cases h
          exact ⟨rfl, rfl⟩
        · cases h
        · cases h
      · cases h
        exact ⟨rfl, rfl⟩

theorem Since.congr {w' : Watch} (h : Since p n w m) (hbeat : w'.beat = w.beat)
    (hmoved : w'.moved = w.moved) : Since p n w' m :=
  { h with beat := hbeat.trans h.beat, moved := hmoved.trans h.moved }

theorem exists_since (h : after stallAfter marked p n = .ok w) : ∃ m, Since p n w m := by
  induction n generalizing w with
  | zero =>
    cases h
    exact ⟨0, .start p⟩
  | succ n ih =>
    rw [after] at h
    split at h
    · rename_i w₀ h₀
      obtain ⟨m, hm⟩ := ih h₀
      obtain ⟨k, hk⟩ := hm.compare
      obtain ⟨-, hbeat, hmoved⟩ := of_pass_eq_ok h
      exact ⟨k, hk.congr hbeat hmoved⟩
    · cases h

/-- A worker that holds an event, and whose counters have stood still long enough. -/
theorem stalled_of_unmoved (hclock : Monotone fun i ↦ (p i).clock)
    (h : after stallAfter marked p n = .ok w) (halive : (p (n + 1)).exited = false)
    (hheld : (p (n + 1)).slot.isSome = true) (hle : m ≤ n + 1) (hm : Unmoved p m (n + 1))
    (hstale : stallAfter ≤ (p (n + 1)).checked - (p m).clock) :
    after stallAfter marked p (n + 1) = .error .stalled := by
  obtain ⟨m₀, hm₀⟩ := exists_since h
  obtain ⟨k, hk⟩ := hm₀.compare
  rw [after_succ h, pass_eq_stalled_iff, hk.moved]
  -- the stretch that is remembered is the longest
  have hearlier : (p k).clock ≤ (p m).clock := hclock (hk.first m hm hle)
  exact ⟨halive, hheld, by omega⟩

/-- **The verdict.** The worker is taken for stuck at a pass that finds it holding an event, when
the counters have been the same at all passes of a stretch that goes back long enough. How long the
event has been held does not come into it. -/
theorem stalled_iff (hclock : Monotone fun i ↦ (p i).clock)
    (h : after stallAfter marked p n = .ok w) (halive : (p (n + 1)).exited = false) :
    after stallAfter marked p (n + 1) = .error .stalled
      ↔ (p (n + 1)).slot.isSome = true ∧ ∃ m, m ≤ n + 1 ∧ Unmoved p m (n + 1)
        ∧ stallAfter ≤ (p (n + 1)).checked - (p m).clock := by
  constructor
  · intro hstalled
    obtain ⟨m₀, hm₀⟩ := exists_since h
    obtain ⟨m, hm⟩ := hm₀.compare
    rw [after_succ h, pass_eq_stalled_iff, hm.moved] at hstalled
    obtain ⟨-, hheld, hstale⟩ := hstalled
    exact ⟨hheld, m, hm.le, hm.unmoved, hstale⟩
  · rintro ⟨hheld, m, hle, hm, hstale⟩
    exact stalled_of_unmoved hclock h halive hheld hle hm hstale

/-- Three looks at a worker that nobody asks anything for a minute and a half, the last of them just
after it has taken an event. -/
def idleThenHeld : ℕ → Pass := fun i ↦
  ⟨false, 0, 0, if i < 2 then none else some 7, .ok true, 45000 * i, 45000 * i, 45000 * i⟩

/-- A worker that was idle long enough is given no time at all for its next event. -/
theorem stalled_idleThenHeld : after defaultStall false idleThenHeld 2 = .error .stalled := by
  have hclock : Monotone fun i ↦ (idleThenHeld i).clock := fun i j hij ↦ Nat.mul_le_mul_left _ hij
  have hquiet : after defaultStall false idleThenHeld 1 = .ok (start (idleThenHeld 0)) := rfl
  exact (stalled_iff hclock hquiet rfl).mpr ⟨rfl, 0, by decide, fun i _ _ ↦ rfl, by decide⟩

/-! ### A worker that has stopped is found -/

/-- A worker that lives, on a mount that stays, can only be taken for stuck. -/
theorem ok_or_stalled (halive : ∀ i, (p i).exited = false) (hmount : ∀ i, (p i).mount = .ok true)
    (n : ℕ) : (∃ w, after stallAfter marked p n = .ok w)
      ∨ ∃ k, k < n ∧ after stallAfter marked p (k + 1) = .error .stalled := by
  induction n with
  | zero => exact Or.inl ⟨_, rfl⟩
  | succ n ih =>
    rcases ih with ⟨w, hw⟩ | ⟨k, hk, hstalled⟩
    · rw [after_succ hw, Watch.pass]
      simp only [halive, hmount, Bool.false_eq_true, if_false]
      split
      · rename_i hstale
        refine Or.inr ⟨n, n.lt_succ_self, ?_⟩
        rw [after_succ hw, pass_eq_stalled_iff]
        exact ⟨halive _, by simpa using hstale⟩
      · split <;> exact Or.inl ⟨_, rfl⟩
    · exact Or.inr ⟨k, by omega, hstalled⟩

/-- **A worker that stops with an event in its hands is found**, no later than the length of the
stretch and one turn of the loop after it has stopped. -/
theorem frozen_found {gap : ℕ} (hstall : 0 < stallAfter)
    (hclock : Monotone fun i ↦ (p i).clock) (hchecked : ∀ i, (p i).clock ≤ (p i).checked)
    (hgap : ∀ i, (p (i + 1)).clock ≤ (p i).clock + gap)
    (halive : ∀ i, (p i).exited = false) (hmount : ∀ i, (p i).mount = .ok true)
    (hheld : ∀ i, m ≤ i → (p i).slot.isSome = true)
    (hfrozen : ∀ i, m ≤ i → (p i).counters = (p m).counters)
    (hgoes : ∃ n, (p m).clock + stallAfter ≤ (p n).clock) :
    ∃ n, after stallAfter marked p n = .error .stalled
      ∧ (p n).clock < (p m).clock + stallAfter + gap := by
  classical
  have hlate := Nat.find_spec hgoes
  have hearly : ∀ k, k < Nat.find hgoes → (p k).clock < (p m).clock + stallAfter :=
    fun k hk ↦ Nat.lt_of_not_le (Nat.find_min hgoes hk)
  obtain ⟨n, hn⟩ : ∃ n, Nat.find hgoes = n + 1 := by
    refine Nat.exists_eq_succ_of_ne_zero fun hzero ↦ ?_
    rw [hzero] at hlate
    have hfirst : (p 0).clock ≤ (p m).clock := hclock (Nat.zero_le m)
    omega
  rw [hn] at hlate hearly
  have hmn : m ≤ n := by
    by_contra hlt
    have hbefore : (p (n + 1)).clock ≤ (p m).clock := hclock (by omega)
    omega
  rcases ok_or_stalled halive hmount n with ⟨w, hw⟩ | ⟨k, hk, hstalled⟩
  · have hle : m ≤ n + 1 := by omega
    refine ⟨n + 1, stalled_of_unmoved hclock hw (halive _) (hheld _ hle) hle
      (fun i hi _ ↦ ?_) ?_, ?_⟩
    · rw [hfrozen i hi, hfrozen (n + 1) hle]
    · have := hchecked (n + 1)
      omega
    · have hstep := hgap n
      have hlast := hearly n n.lt_succ_self
      omega
  · refine ⟨k + 1, hstalled, ?_⟩
    have hlast := hearly (k + 1) (by omega)
    omega

/-- Four looks at a worker that has stopped. -/
def stopped : ℕ → Pass := fun i ↦
  ⟨false, 3, 17, some 7, .ok true, 40000 * i, 40000 * i, 40000 * i⟩

theorem stopped_found : ∃ n, after defaultStall true stopped n = .error .stalled
    ∧ (stopped n).clock < 130000 := by
  have hgap : ∀ i, (stopped (i + 1)).clock ≤ (stopped i).clock + 40000 :=
    fun i ↦ (Nat.mul_succ 40000 i).le
  exact frozen_found (m := 0) (by decide) (fun i j hij ↦ Nat.mul_le_mul_left _ hij)
    (fun _ ↦ le_rfl) hgap (fun _ ↦ rfl) (fun _ ↦ rfl) (fun _ _ ↦ rfl) (fun _ _ ↦ rfl)
    ⟨3, by decide⟩

end Watch

/-! ## The drain -/

/-- An event that the drain reads, and whether the response to it is taken. -/
structure Denied where
  fd : Int32
  pid : Int32
  answered : Bool

def denyDrainQuiet : ℕ := 10 * 1000

def denyDrainCap : ℕ := 60 * 1000

def pollin : UInt16 := 1

/-- What one turn of the drain sees. -/
structure Turn where
  /-- The clock when the quiet is measured, when the whole is, and when the events are
  dealt with. -/
  quietAt : ℕ
  capAt : ℕ
  doneAt : ℕ
  /-- What `poll` reports, if it reports anything in its half second. -/
  revents : Option UInt16
  /-- What the read gives, if it does not fail. -/
  read : Option (List Denied)

inductive Drained where
  | quiet (denied : ℕ)
  | stillBusy (denied : ℕ) (stillHammering : List Int32)
  deriving DecidableEq

structure Drain where
  quietSince : ℕ
  denied : ℕ
  hammering : List Int32

namespace Drain

/-- Note who asked; eight are enough to point at a culprit. -/
def name (hammering : List Int32) (pid : Int32) : List Int32 :=
  if pid ≠ 0 ∧ hammering.length < 8 ∧ pid ∉ hammering then hammering ++ [pid] else hammering

/-- Deny one event, and note whether any has been answered. -/
def deny (s : Drain × Bool) (ev : Denied) : Drain × Bool :=
  if ev.fd < 0 then s
  else
    ({ s.1 with
      denied := if ev.answered then s.1.denied + 1 else s.1.denied
      hammering := name s.1.hammering ev.pid }, s.2 || ev.answered)

/-- What is done with the events of one read. -/
def denyAll (d : Drain) (evs : List Denied) (doneAt : ℕ) : Drain :=
  let s := evs.foldl deny (d, false)
  if s.2 then { s.1 with quietSince := doneAt } else s.1

variable (quiet cap started : ℕ)

def turn (d : Drain) (t : Turn) : Except Drained Drain :=
  if quiet ≤ t.quietAt - d.quietSince then .error (.quiet d.denied)
  else if cap ≤ t.capAt - started then .error (.stillBusy d.denied d.hammering)
  else match t.revents with
    | none => .ok d
    | some revents =>
      if revents &&& pollin = 0 then .ok d
      else match t.read with
        | none => .ok d
        | some evs => .ok (d.denyAll evs t.doneAt)

/-- The drain after `n` turns; the two clocks are started one after the other. -/
def after (t : ℕ → Turn) (quietSince : ℕ) : ℕ → Except Drained Drain
  | 0 => .ok ⟨quietSince, 0, []⟩
  | n + 1 =>
    match after t quietSince n with
    | .ok d => d.turn quiet cap started (t n)
    | .error r => .error r

end Drain

/-! ### What the drain comes to -/

/-- The events that are denied in one turn. -/
def Turn.denied (t : Turn) : List Denied :=
  match t.revents with
  | none => []
  | some revents =>
    if revents &&& pollin = 0 then [] else (t.read.getD []).filter (0 ≤ ·.fd)

/-- A turn that answers something. -/
def Turn.Busy (t : Turn) : Prop := ∃ ev ∈ t.denied, ev.answered = true

/-- The events that are denied in the first `n` turns. -/
def deniedIn (t : ℕ → Turn) (n : ℕ) : List Denied := (List.range n).flatMap fun i ↦ (t i).denied

/-- The first eight of those who asked. -/
def culprits (evs : List Denied) : List Int32 :=
  ((evs.map Denied.pid).filter (· ≠ 0)).eraseDups.take 8

namespace Drain

theorem name_take (l : List Int32) (pid : Int32) :
    name ((l.filter (· ≠ 0)).eraseDups.take 8) pid
      = ((l ++ [pid]).filter (· ≠ 0)).eraseDups.take 8 := by
  by_cases hzero : pid = 0
  · simp [name, hzero]
  have hfilter : (l ++ [pid]).filter (· ≠ 0) = l.filter (· ≠ 0) ++ [pid] := by simp [hzero]
  rw [hfilter, List.eraseDups_append]
  generalize l.filter (· ≠ 0) = l
  generalize hD : l.eraseDups = D
  have hmem : pid ∈ D ↔ pid ∈ l := hD ▸ List.mem_eraseDups
  rw [name]
  by_cases hin : pid ∈ l
  · have hgone : ([pid].removeAll l).eraseDups = [] := by simp [List.cons_removeAll, hin]
    rw [hgone, List.append_nil, if_neg]
    rintro ⟨-, hroom, hnew⟩
    refine hnew ?_
    rw [List.take_of_length_le]
    · exact hmem.mpr hin
    · rw [List.length_take] at hroom
      omega
  · have hnew : ([pid].removeAll l).eraseDups = [pid] := by
      simp [List.cons_removeAll, hin, List.eraseDups_cons]
    rw [hnew]
    by_cases hroom : (D.take 8).length < 8
    · rw [List.length_take] at hroom
      have hshort : D.length < 8 := by omega
      rw [List.take_of_length_le hshort.le, List.take_of_length_le (by simpa using hshort),
        if_pos ⟨hzero, hshort, fun h ↦ hin (hmem.mp h)⟩]
    · rw [if_neg (fun h ↦ hroom h.2.1)]
      rw [List.length_take] at hroom
      rw [List.take_append_of_le_length (by omega)]

theorem foldl_name (l pids : List Int32) :
    pids.foldl name ((l.filter (· ≠ 0)).eraseDups.take 8)
      = ((l ++ pids).filter (· ≠ 0)).eraseDups.take 8 := by
  induction pids generalizing l with
  | nil => simp
  | cons pid pids ih =>
    rw [List.foldl_cons, name_take, ih, List.append_assoc, List.singleton_append]

theorem foldl_deny (d : Drain) (b : Bool) (evs : List Denied) :
    evs.foldl deny (d, b)
      = (⟨d.quietSince, d.denied + (evs.filter (0 ≤ ·.fd)).countP (·.answered),
          ((evs.filter (0 ≤ ·.fd)).map Denied.pid).foldl name d.hammering⟩,
        b || (evs.filter (0 ≤ ·.fd)).any (·.answered)) := by
  induction evs generalizing d b with
  | nil => simp
  | cons ev evs ih =>
    rw [List.foldl_cons, deny]
    by_cases hfd : ev.fd < 0
    · rw [if_pos hfd, ih, List.filter_cons_of_neg (by simpa using hfd)]
    · rw [if_neg hfd, ih, List.filter_cons_of_pos (by simpa using hfd), List.map_cons,
        List.foldl_cons, List.countP_cons, List.any_cons]
      cases ev.answered with
      | true => simp [Nat.add_assoc, Nat.add_comm 1]
      | false => simp

variable {quiet cap started since n : ℕ} {t : ℕ → Turn} {d : Drain}

/-- What a turn that does not end the drain makes of it. -/
theorem of_turn_eq_ok {t : Turn} {d' : Drain} (h : d.turn quiet cap started t = .ok d') :
    ¬quiet ≤ t.quietAt - d.quietSince ∧ ¬cap ≤ t.capAt - started
      ∧ d'.denied = d.denied + t.denied.countP (·.answered)
      ∧ d'.hammering = (t.denied.map Denied.pid).foldl name d.hammering
      ∧ (t.Busy → d'.quietSince = t.doneAt) ∧ (¬t.Busy → d'.quietSince = d.quietSince) := by
  rw [turn] at h
  split at h
  · cases h
  rename_i hquiet
  split at h
  · cases h
  rename_i hcap
  refine ⟨hquiet, hcap, ?_⟩
  have hidle : t.denied = [] → d' = d → d'.denied = d.denied + t.denied.countP (·.answered)
      ∧ d'.hammering = (t.denied.map Denied.pid).foldl name d.hammering
      ∧ (t.Busy → d'.quietSince = t.doneAt) ∧ (¬t.Busy → d'.quietSince = d.quietSince) := by
    rintro hnil rfl
    simp [Turn.Busy, hnil]
  split at h
  · rename_i hpoll
    exact hidle (by rw [Turn.denied, hpoll]) (by cases h; rfl)
  rename_i revents hpoll
  split at h
  · rename_i hin
    exact hidle (by rw [Turn.denied, hpoll]; exact if_pos hin) (by cases h; rfl)
  rename_i hin
  split at h
  · rename_i hread
    exact hidle (by rw [Turn.denied, hpoll]; simp [hin, hread]) (by cases h; rfl)
  rename_i evs hread
  have hdenied : t.denied = evs.filter (0 ≤ ·.fd) := by rw [Turn.denied, hpoll]; simp [hin, hread]
  have hbusy : (evs.filter (0 ≤ ·.fd)).any (·.answered) = true ↔ t.Busy := by
    rw [Turn.Busy, hdenied, List.any_eq_true]
  cases h
  rw [denyAll, foldl_deny, hdenied]
  cases hany : (evs.filter (0 ≤ ·.fd)).any (·.answered) with
  | true =>
    refine ⟨rfl, rfl, fun _ ↦ rfl, fun h ↦ ?_⟩
    exact absurd (hbusy.mp hany) h
  | false =>
    refine ⟨rfl, rfl, fun h ↦ ?_, fun _ ↦ rfl⟩
    cases hany.symm.trans (hbusy.mpr h)

/-- The last time that anything was answered before the `n`-th turn, or the time of the start. -/
def Last (t : ℕ → Turn) (since n time : ℕ) : Prop :=
  (time = since ∧ ∀ j, j < n → ¬(t j).Busy)
    ∨ ∃ i, i < n ∧ time = (t i).doneAt ∧ (t i).Busy ∧ ∀ j, i < j → j < n → ¬(t j).Busy

theorem Last.succ {time time' : ℕ} (h : Last t since n time)
    (hbusy : (t n).Busy → time' = (t n).doneAt) (hidle : ¬(t n).Busy → time' = time) :
    Last t since (n + 1) time' := by
  by_cases hn : (t n).Busy
  · exact Or.inr ⟨n, n.lt_succ_self, hbusy hn, hn, fun j hj hj' ↦ by omega⟩
  · have hlast : ∀ j, (j < n → ¬(t j).Busy) → j < n + 1 → ¬(t j).Busy := by
      intro j hj hj'
      rcases Nat.lt_succ_iff_lt_or_eq.mp hj' with hlt | rfl
      · exact hj hlt
      · exact hn
    rw [hidle hn]
    rcases h with ⟨htime, hall⟩ | ⟨i, hi, htime, hanswered, hall⟩
    · exact Or.inl ⟨htime, fun j ↦ hlast j (hall j)⟩
    · exact Or.inr ⟨i, by omega, htime, hanswered, fun j hj ↦ hlast j (hall j hj)⟩

/-- What the drain keeps account of. -/
structure Account (t : ℕ → Turn) (since n : ℕ) (d : Drain) : Prop where
  denied : d.denied = (deniedIn t n).countP (·.answered)
  hammering : d.hammering = culprits (deniedIn t n)
  last : Last t since n d.quietSince

theorem deniedIn_succ (t : ℕ → Turn) (n : ℕ) :
    deniedIn t (n + 1) = deniedIn t n ++ (t n).denied := by
  simp [deniedIn, List.range_succ]

theorem account (h : after quiet cap started t since n = .ok d) : Account t since n d := by
  induction n generalizing d with
  | zero =>
    cases h
    exact ⟨rfl, rfl, Or.inl ⟨rfl, fun j hj ↦ absurd hj (Nat.not_lt_zero j)⟩⟩
  | succ n ih =>
    rw [after] at h
    split at h
    · rename_i d₀ h₀
      obtain ⟨hdenied, hhammering, hlast⟩ := ih h₀
      obtain ⟨-, -, hdenied', hhammering', hbusy, hidle⟩ := of_turn_eq_ok h
      refine ⟨?_, ?_, hlast.succ hbusy hidle⟩
      · rw [hdenied', hdenied, deniedIn_succ, List.countP_append]
      · rw [hhammering', hhammering, culprits, foldl_name, culprits, deniedIn_succ, List.map_append]
    · cases h

/-- What the drain says at the `n`-th turn is what happened. -/
def Tells (quiet cap started : ℕ) (t : ℕ → Turn) (since n : ℕ) (r : Drained) : Prop :=
  ∃ time, Last t since n time
    ∧ ((quiet ≤ (t n).quietAt - time ∧ r = .quiet ((deniedIn t n).countP (·.answered)))
      ∨ (¬quiet ≤ (t n).quietAt - time ∧ cap ≤ (t n).capAt - started
        ∧ r = .stillBusy ((deniedIn t n).countP (·.answered)) (culprits (deniedIn t n))))

theorem tells (h : after quiet cap started t since n = .ok d) {r : Drained}
    (hr : after quiet cap started t since (n + 1) = .error r) :
    Tells quiet cap started t since n r := by
  obtain ⟨hdenied, hhammering, hlast⟩ := account h
  rw [after, h] at hr
  refine ⟨d.quietSince, hlast, ?_⟩
  dsimp only at hr
  rw [turn] at hr
  split at hr
  · rename_i hquiet
    cases hr
    exact Or.inl ⟨hquiet, by rw [hdenied]⟩
  · rename_i hbusy
    split at hr
    · rename_i hcap
      cases hr
      exact Or.inr ⟨hbusy, hcap, by rw [hdenied, hhammering]⟩
    · split at hr
      · cases hr
      · split at hr
        · cases hr
        · split at hr <;> cases hr

/-- Once it is over, it is over at some turn before. -/
theorem exists_turn (quiet cap started : ℕ) (t : ℕ → Turn) (since n : ℕ) :
    (∃ d, after quiet cap started t since n = .ok d)
    ∨ ∃ k, k < n ∧ ∃ d r, after quiet cap started t since k = .ok d
      ∧ after quiet cap started t since (k + 1) = .error r := by
  induction n with
  | zero => exact Or.inl ⟨_, rfl⟩
  | succ n ih =>
    rcases ih with ⟨d, hd⟩ | ⟨k, hk, hends⟩
    · cases hnext : after quiet cap started t since (n + 1) with
      | ok d' => exact Or.inl ⟨d', rfl⟩
      | error r => exact Or.inr ⟨n, n.lt_succ_self, d, r, hd, hnext⟩
    · exact Or.inr ⟨k, by omega, hends⟩

/-- **The drain ends**, at most one turn after the cap, whatever comes in and however often; and
what it then says is what happened: that nothing has been answered for the quiet window, or that the
cap has passed and something has; how many events were denied; and the first who asked. -/
theorem drain_ends {gap : ℕ} (hbegin : (t 0).capAt ≤ started + gap)
    (hgap : ∀ i, (t (i + 1)).capAt ≤ (t i).capAt + gap)
    (hgoes : ∃ n, started + cap ≤ (t n).capAt) :
    ∃ n r, after quiet cap started t since (n + 1) = .error r ∧ (t n).capAt ≤ started + cap + gap
      ∧ Tells quiet cap started t since n r := by
  classical
  have hlate := Nat.find_spec hgoes
  have hsoon : ∀ k, k ≤ Nat.find hgoes → (t k).capAt ≤ started + cap + gap := by
    intro k hk
    cases k with
    | zero => omega
    | succ k =>
      have hbefore : (t k).capAt < started + cap := Nat.lt_of_not_le (Nat.find_min hgoes (by omega))
      have := hgap k
      omega
  rcases exists_turn quiet cap started t since (Nat.find hgoes + 1) with
    ⟨d', hd'⟩ | ⟨k, hk, d, r, hd, hr⟩
  · -- a turn that begins after the cap is the last
    rw [after] at hd'
    split at hd'
    · obtain ⟨-, hcap, -⟩ := of_turn_eq_ok hd'
      omega
    · cases hd'
  · exact ⟨k, r, hr, hsoon k (by omega), tells hd hr⟩

/-- Somebody comes straight back every five seconds. -/
def hammered : ℕ → Turn := fun i ↦
  ⟨5000 * i, 5000 * i, 5000 * i, some pollin, some [⟨9, 4242, true⟩]⟩

theorem hammered_ends :
    ∃ n r, after denyDrainQuiet denyDrainCap 0 hammered 0 (n + 1) = .error r
      ∧ (hammered n).capAt ≤ 0 + denyDrainCap + 5000
      ∧ Tells denyDrainQuiet denyDrainCap 0 hammered 0 n r :=
  drain_ends (by decide) (fun i ↦ (Nat.mul_succ 5000 i).le) ⟨12, by decide⟩

end Drain

end HydrationAPI.Supervise
