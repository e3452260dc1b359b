import HydrationAPI.Protocol.Errors
import Mathlib.Logic.Basic

/-!
# Knocking again

A connection that has been lost is made again by the helper itself, under a reader who is waiting.
The first time after a loss it knocks for a while, in case the other side is being restarted; once
that has failed it knocks once for each event. Whoever answers has to be the user that the first
connection was checked for, and the change reporter is told the process that answered.

What a life of one fetcher meets is told event by event; what the readers have waited since the
connection was last live, and what could not be put in its place, is counted on the side.
-/

namespace HydrationAPI.Reconnect

/-- How many times one event may knock. -/
def reconnectTries : ℕ := 8

/-- Who is at the other end, as the kernel has it. -/
structure Peer where
  pid : ℕ
  uid : ℕ
  deriving DecidableEq, Repr

/-- What one knock meets. -/
structure Knock where
  connect : Except IoError Peer
  /-- Why the kernel does not say who it is, when that is to be checked. -/
  check : Option IoError
  /-- Why it does not when the process is asked for. -/
  cred : Option IoError
  /-- Why the new stream cannot be put in place of the old. -/
  replace : Option IoError

/-- Connect to the socket, and prove who answered. -/
def connectChecked (expectedUid : Option ℕ) (k : Knock) : Except IoError Peer :=
  match k.connect, expectedUid with
  | .error e, _ => .error e
  | .ok peer, none => .ok peer
  | .ok peer, some expected =>
    match k.check with
    | some e => .error e
    | none =>
      if peer.uid ≠ expected then
        .error ⟨.permissionDenied, none,
          s!"the sync daemon socket is owned by uid {peer.uid}, expected {expected}"⟩
      else .ok peer

/-- What the knocks of one event come to. -/
inductive Knocked where
  | connected (peer : Peer) (pid : ℕ)
  /-- Somebody answered, and the stream could not be put in place. -/
  | spoiled (e : IoError)
  | unanswered (e : IoError)

def Knock.outcome (expectedUid : Option ℕ) (k : Knock) : Knocked :=
  match connectChecked expectedUid k with
  | .error e => .unanswered e
  | .ok peer =>
    match k.replace with
    | some e => .spoiled e
    | none => .connected peer (if k.cred.isSome then 0 else peer.pid)

/-- Knock, and `left` times more if need be, from the knock `i` on; with the number of the last one.
A wrong answer is not asked for again. -/
def knock (expectedUid : Option ℕ) (knocks : ℕ → Knock) : (left i : ℕ) → ℕ × Knocked
  | 0, i => (i, (knocks i).outcome expectedUid)
  | left + 1, i =>
    match (knocks i).outcome expectedUid with
    | .unanswered e =>
      if e.kind = .permissionDenied then (i, .unanswered e)
      else knock expectedUid knocks left (i + 1)
    | outcome => (i, outcome)

/-- What is kept for making the connection again. -/
structure Socket where
  path : String
  expectedUid : Option ℕ

/-- The user at the other end is the one that is expected. -/
def Socket.Trusts (s : Socket) (peer : Peer) : Prop :=
  ∀ uid, s.expectedUid = some uid → peer.uid = uid

/-- What an attempt to make the connection live again comes to. -/
inductive Revived where
  | live
  /-- The new stream could not be put in place. -/
  | spoiled (e : IoError)
  /-- Nobody is there who should be. -/
  | gone (e : IoError)

/-- What the caller is told. -/
def Revived.result : Revived → Except IoError Unit
  | live => .ok ()
  | spoiled e | gone e => .error e

/-- The part of a fetcher that is about its connection. -/
structure Fetcher where
  socket : Option Socket
  /-- Who the stream leads to. -/
  peer : Peer
  /-- Nothing is sent on it again. -/
  dead : Bool
  /-- A whole window has been spent since the connection died. -/
  knocked : Bool
  /-- The process whose writes the change reporter ignores. -/
  peerPid : ℕ

/-- Make the dead connection live again, or say why not in a kind that counts; with the number of
pauses. -/
def Fetcher.revive (f : Fetcher) (knocks : ℕ → Knock) : ℕ × Revived × Fetcher :=
  match f.socket with
  | none =>
    (0, .gone ⟨.notConnected, none, "the connection to the sync daemon is gone and this fetcher "
      ++ "has no socket path to reconnect to"⟩, f)
  | some s =>
    let tries := if f.knocked then 1 else reconnectTries
    match knock s.expectedUid knocks (tries - 1) 0 with
    | (n, .connected peer pid) =>
      (n, .live, { f with peer := peer, peerPid := pid, dead := false, knocked := false })
    | (n, .spoiled e) => (n, .spoiled e, f)
    | (n, .unanswered e) =>
      (n, .gone ⟨.notConnected, none,
          s!"cannot reconnect to the sync daemon at {s.path}: {e.text}"⟩,
        { f with knocked := true })

/-! ## A life -/

/-- What happens to the fetch thread, as far as the connection goes. -/
inductive Event where
  /-- An exchange leaves the stream unusable. -/
  | lost
  /-- A fetch, which makes the connection again if it is known to be dead. -/
  | fetch (knocks : ℕ → Knock)
  /-- The change reporter has noticed that the daemon went away. -/
  | reconnect (knocks : ℕ → Knock)

/-- A fetcher, and what there has been since its connection was last live. -/
structure Life where
  fetcher : Fetcher
  pauses : ℕ
  /-- Why streams could not be put in place. -/
  spoiled : List IoError
  /-- What callers were told. -/
  errors : List IoError

namespace Life

/-- The first connection has been checked. -/
def start (s : Socket) (peer : { p : Peer // s.Trusts p }) : Life where
  fetcher := ⟨some s, peer.1, false, false, peer.1.pid⟩
  pauses := 0
  spoiled := []
  errors := []

def revive (l : Life) (knocks : ℕ → Knock) : Life :=
  match l.fetcher.revive knocks with
  | (_, .live, f) => ⟨f, 0, [], []⟩
  | (n, .spoiled e, f) => ⟨f, l.pauses + n, e :: l.spoiled, e :: l.errors⟩
  | (n, .gone e, f) => ⟨f, l.pauses + n, l.spoiled, e :: l.errors⟩

def next (l : Life) : Event → Life
  | .lost => { l with fetcher := { l.fetcher with dead := true } }
  | .fetch knocks => if l.fetcher.dead then l.revive knocks else l
  | .reconnect knocks => revive { l with fetcher := { l.fetcher with dead := true } } knocks

def run (s : Socket) (peer : { p : Peer // s.Trusts p }) (events : List Event) : Life :=
  events.foldl next (start s peer)

end Life

/-! ## What the knocks come to -/

variable {uid : Option ℕ} {knocks : ℕ → Knock} {peer : Peer}

theorem trusts_of_connectChecked {s : Socket} {k : Knock}
    (h : connectChecked s.expectedUid k = .ok peer) : s.Trusts peer := by
  intro expected hexpected
  rw [hexpected] at h
  unfold connectChecked at h
  cases hconnect : k.connect with
  | error e =>
    rw [hconnect] at h
    cases h
  | ok other =>
    cases hcheck : k.check with
    | some e =>
      simp only [hconnect, hcheck] at h
      cases h
    | none =>
      simp only [hconnect, hcheck] at h
      split at h
      · cases h
      · rename_i huid
        cases h
        exact not_not.mp huid

/-- What the knocks came to is what the last of them came to, and that is one of those allowed. -/
theorem knock_spec (uid : Option ℕ) (knocks : ℕ → Knock) (left i : ℕ) :
    i ≤ (knock uid knocks left i).1
    ∧ (knock uid knocks left i).1 ≤ i + left
    ∧ (knock uid knocks left i).2 = (knocks (knock uid knocks left i).1).outcome uid := by
  induction left generalizing i with
  | zero => exact ⟨Nat.le_refl i, Nat.le_refl i, rfl⟩
  | succ left ih =>
    rw [knock]
    cases hknock : (knocks i).outcome uid with
    | connected peer pid => exact ⟨Nat.le_refl i, Nat.le_add_right _ _, hknock.symm⟩
    | spoiled e => exact ⟨Nat.le_refl i, Nat.le_add_right _ _, hknock.symm⟩
    | unanswered e =>
      dsimp only
      split
      · exact ⟨Nat.le_refl i, Nat.le_add_right _ _, hknock.symm⟩
      · obtain ⟨hfirst, hlast, heq⟩ := ih (i + 1)
        exact ⟨Nat.le_of_succ_le hfirst, by omega, heq⟩

/-- Whom a knock connects to has been checked, and is named by its process or by none. -/
theorem outcome_connected {s : Socket} {k : Knock} {pid : ℕ}
    (h : k.outcome s.expectedUid = .connected peer pid) :
    s.Trusts peer ∧ (pid = peer.pid ∨ pid = 0) := by
  unfold Knock.outcome at h
  cases hconnect : connectChecked s.expectedUid k with
  | error e =>
    rw [hconnect] at h
    cases h
  | ok other =>
    rw [hconnect] at h
    cases hreplace : k.replace with
    | some e =>
      simp only [hreplace] at h
      cases h
    | none =>
      simp only [hreplace] at h
      cases h
      refine ⟨trusts_of_connectChecked hconnect, ?_⟩
      split
      · exact Or.inr rfl
      · exact Or.inl rfl

/-- **One event makes the connection live again if and only if** one of its knocks reaches the right
user and the stream can be put in place, before somebody else has answered. -/
theorem knock_connected_iff (left i : ℕ) :
    (∃ peer pid, (knock uid knocks left i).2 = .connected peer pid)
      ↔ ∃ k ≤ left, (∃ peer pid, (knocks (i + k)).outcome uid = .connected peer pid)
        ∧ ∀ j < k, ∃ e, (knocks (i + j)).outcome uid = .unanswered e
          ∧ e.kind ≠ .permissionDenied := by
  induction left generalizing i with
  | zero =>
    constructor
    · exact fun h ↦ ⟨0, Nat.le_refl 0, h, fun j hj ↦ absurd hj (Nat.not_lt_zero j)⟩
    · rintro ⟨k, hk, h, -⟩
      rwa [Nat.le_zero.mp hk] at h
  | succ left ih =>
    rw [knock]
    constructor
    · intro h
      cases hknock : (knocks i).outcome uid with
      | connected peer pid =>
        exact ⟨0, Nat.zero_le _, ⟨peer, pid, hknock⟩, fun j hj ↦ absurd hj (Nat.not_lt_zero j)⟩
      | spoiled e =>
        rw [hknock] at h
        obtain ⟨peer, pid, h⟩ := h
        cases h
      | unanswered e =>
        rw [hknock] at h
        dsimp only at h
        split at h
        · obtain ⟨peer, pid, h⟩ := h
          cases h
        · rename_i hkind
          obtain ⟨k, hk, hconnected, hbefore⟩ := (ih (i + 1)).mp h
          refine ⟨k + 1, Nat.succ_le_succ hk, ?_, fun j hj ↦ ?_⟩
          · rwa [Nat.add_right_comm] at hconnected
          · cases j with
            | zero => exact ⟨e, hknock, hkind⟩
            | succ j =>
              have hj' := hbefore j (Nat.lt_of_succ_lt_succ hj)
              rwa [Nat.add_right_comm] at hj'
    · rintro ⟨k, hk, hconnected, hbefore⟩
      cases k with
      | zero =>
        obtain ⟨peer, pid, hknock⟩ := hconnected
        rw [Nat.add_zero] at hknock
        rw [hknock]
        exact ⟨peer, pid, rfl⟩
      | succ k =>
        obtain ⟨e, hknock, hkind⟩ := hbefore 0 (Nat.succ_pos k)
        rw [Nat.add_zero] at hknock
        rw [hknock]
        dsimp only
        rw [if_neg hkind]
        refine (ih (i + 1)).mpr ⟨k, Nat.le_of_succ_le_succ hk, ?_, fun j hj ↦ ?_⟩
        · rwa [Nat.add_right_comm]
        · rw [Nat.add_right_comm]
          exact hbefore (j + 1) (Nat.succ_lt_succ hj)

/-! ## What a step does -/

/-- What is true of a life: while the connection is live it leads to the right user, and the
reporter ignores that process or none; the readers have waited one window for each stream that could
not be put in place and one more at the most; and what they were told counts as a lost connection,
but for the reason why a stream could not be put in place. -/
structure Life.Sound (s : Socket) (l : Life) : Prop where
  socket : l.fetcher.socket = some s
  trusted : l.fetcher.dead = false → s.Trusts l.fetcher.peer
    ∧ (l.fetcher.peerPid = l.fetcher.peer.pid ∨ l.fetcher.peerPid = 0)
  waited : l.pauses ≤ (reconnectTries - 1) * l.spoiled.length
    + if l.fetcher.knocked then reconnectTries - 1 else 0
  told : ∀ e ∈ l.errors, isConnectionLost e = true ∨ e ∈ l.spoiled

variable {s : Socket} {l : Life}

theorem Life.sound_start (s : Socket) (peer : { p : Peer // s.Trusts p }) :
    (start s peer).Sound s where
  socket := rfl
  trusted _ := ⟨peer.2, Or.inl rfl⟩
  waited := Nat.zero_le _
  told _ h := absurd h List.not_mem_nil

/-- One event knocks once for the window that is spent, or for all of one. -/
theorem knock_pauses (spent : Bool) (uid : Option ℕ) (knocks : ℕ → Knock) :
    (knock uid knocks ((if spent then 1 else reconnectTries) - 1) 0).1
      + (if spent then reconnectTries - 1 else 0) ≤ reconnectTries - 1 := by
  have hlast := (knock_spec uid knocks ((if spent then 1 else reconnectTries) - 1) 0).2.1
  rw [Nat.zero_add] at hlast
  cases spent with
  | false => exact hlast
  | true =>
    have hnone := Nat.le_zero.mp hlast
    rw [hnone, Nat.zero_add]
    exact Nat.le_refl _

theorem Life.Sound.revive (h : l.Sound s) (hdead : l.fetcher.dead = true) (knocks : ℕ → Knock) :
    (l.revive knocks).Sound s := by
  have hwaited := h.waited
  have hpauses := knock_pauses l.fetcher.knocked s.expectedUid knocks
  obtain ⟨-, -, heq⟩ := knock_spec s.expectedUid knocks
    ((if l.fetcher.knocked then 1 else reconnectTries) - 1) 0
  rw [Life.revive, Fetcher.revive, h.socket]
  dsimp only
  generalize knock s.expectedUid knocks
    ((if l.fetcher.knocked = true then 1 else reconnectTries) - 1) 0 = came at hpauses heq
  obtain ⟨n, outcome⟩ := came
  cases outcome with
  | connected peer pid =>
    exact {
      socket := rfl
      trusted := fun _ ↦ outcome_connected heq.symm
      waited := Nat.zero_le _
      told := fun _ hmem ↦ absurd hmem List.not_mem_nil }
  | spoiled e =>
    exact {
      socket := h.socket
      trusted := fun hlive ↦ absurd (hlive.symm.trans hdead) Bool.false_ne_true
      waited := by
        rw [List.length_cons, Nat.mul_succ]
        dsimp only at hpauses ⊢
        omega
      told := by
        rintro told hmem
        rcases List.mem_cons.mp hmem with rfl | hmem
        · exact Or.inr List.mem_cons_self
        · exact (h.told told hmem).imp_right (List.mem_cons_of_mem e) }
  | unanswered e =>
    exact {
      socket := rfl
      trusted := fun hlive ↦ absurd (hlive.symm.trans hdead) Bool.false_ne_true
      waited := by
        dsimp only at hpauses ⊢
        rw [if_pos rfl]
        omega
      told := by
        rintro told hmem
        rcases List.mem_cons.mp hmem with rfl | hmem
        · exact Or.inl rfl
        · exact h.told told hmem }

theorem Life.Sound.lost (h : l.Sound s) : (l.next .lost).Sound s where
  socket := h.socket
  trusted hlive := by cases hlive
  waited := h.waited
  told := h.told

theorem Life.Sound.next (h : l.Sound s) (event : Event) : (l.next event).Sound s := by
  cases event with
  | lost => exact h.lost
  | fetch knocks =>
    cases hdead : l.fetcher.dead with
    | false =>
      rw [Life.next, if_neg (by rw [hdead]; exact Bool.false_ne_true)]
      exact h
    | true =>
      rw [Life.next, if_pos hdead]
      exact h.revive hdead knocks
  | reconnect knocks => exact h.lost.revive rfl knocks

theorem Life.Sound.foldl (h : l.Sound s) (events : List Event) :
    (events.foldl Life.next l).Sound s := by
  induction events generalizing l with
  | nil => exact h
  | cons event events ih => exact ih (h.next event)

/-! ## Over a life -/

end HydrationAPI.Reconnect
