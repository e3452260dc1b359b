import HydrationAPI.Graph.Auth
import Mathlib.Logic.Function.Basic
import Mathlib.Logic.Relation

/-!
# The shared token cache

Any number of threads share one cache. A call reads the counter of finished attempts, queues for the
lock, and is then answered from what is there, refused, or posts the credential; in the last case it
keeps the lock until the reply has been dealt with. In between others can only read the counter and
queue.

A call that waited through a refresh takes its answer. A refresh that failed is recognised by its
number. One that succeeded is recognised by what it leaves, and that is a token which another call
would take: one that is live by the clock, or one that is not the token it was rejected for.
-/

namespace HydrationAPI.Graph.Auth

/-! ## The machine -/

/-- Which token a call is made for. -/
inductive Call where
  /-- Any valid one. -/
  | token
  /-- One other than this, which the service has rejected. -/
  | refreshIfStale (stale : String)
  deriving DecidableEq, Repr

/-- The token that a call takes without looking any further. -/
def Call.takes (call : Call) (s : State) (now : ℕ) : Option String :=
  match call with
  | .token => s.live now
  | .refreshIfStale stale => s.access.filter (· ≠ stale)

/-- The answer of a call that makes no request of its own. -/
def Call.served (call : Call) (arrived : ℕ) (s : State) (now : ℕ) :
    Option (Except AuthError String) :=
  match call.takes s now with
  | some access => some (.ok access)
  | none => (s.waitedOut arrived).map .error

/-- Where a thread stands. `waited` are the outcomes of the attempts that finished between its
reading of the counter and its getting the lock, the latest first. -/
inductive Thread where
  | idle
  /-- The counter is read; the lock is not there yet. -/
  | queued (call : Call) (arrived : ℕ)
  /-- The request is out, and the lock is held. -/
  | posted (waited : List Outcome) (refresh : String) (now : ℕ)
  /-- The reply is read and counted, and the lock is still held. -/
  | answered (waited : List Outcome) (refresh : String) (now attempt : ℕ) (outcome : Outcome)
  | returned (waited : List Outcome) (result : Except AuthError String)
  /-- A credential to adopt; `stored` if it was read back from the store. -/
  | signing (stored : Bool) (refresh : String)
  /-- The reply to a device code. -/
  | grantedTo (tokens : Tokens)

/-- What happens to credentials. -/
inductive Event where
  | posted (refresh : String)
  | answered (refresh : String) (outcome : Outcome)
  /-- A sign-in supplied it. -/
  | supplied (refresh : String)
  /-- It was read back from the store. -/
  | resumed (refresh : String)
  /-- A successful reply put another in its place. -/
  | replaced (refresh : String)
  deriving DecidableEq

/-- What a health check may read without the lock. -/
structure Observed where
  refreshes : ℕ
  signedIn : Bool
  storeError : Option ErrorKind
  deriving DecidableEq, Repr

def Observed.publish (s : State) : Observed :=
  ⟨s.refreshes, s.refresh.isSome && !s.rejected, s.storeError⟩

/-- The cache, the threads that use it, and what has happened so far, the latest first. -/
structure TokenCache (T : Type*) where
  state : State
  /-- Refresh attempts that have finished. -/
  attempts : ℕ
  observed : Observed
  owner : Option T
  threads : T → Thread
  finished : List Outcome
  history : List Event

/-- What a thread does next, with what its environment answers. -/
inductive Act (T : Type*) where
  /-- Begin a call: read the counter. -/
  | read (t : T) (call : Call)
  /-- Get the lock; the clock is read for the token that is there, and again for a request. -/
  | enter (t : T) (now then' : ℕ)
  | answer (t : T) (reply : Except ErrorKind TokenReply)
  /-- Deal with the reply and give the lock back. -/
  | settle (t : T) (finish : ℕ) (saved : Option ErrorKind)
  | leave (t : T)
  /-- `sign_in_with`, called from elsewhere. -/
  | signInWith (t : T) (refresh : String)
  /-- `resume`: the store has answered with this. -/
  | resume (t : T) (refresh : String)
  /-- The check before the start: `resume`, unless the cache counts as signed in. -/
  | preflight (t : T) (refresh : String)
  /-- A device code was exchanged. -/
  | redeem (t : T) (reply : TokenReply)
  /-- Get the lock and adopt the credential. -/
  | adopt (t : T)
  | complete (t : T) (finish : ℕ) (saved : Option ErrorKind)

namespace TokenCache

variable {T : Type*} [DecidableEq T]

def new : TokenCache T := ⟨.default, 0, .publish .default, none, fun _ ↦ .idle, [], []⟩

variable (c : TokenCache T)

def set (t : T) (thread : Thread) : TokenCache T :=
  { c with threads := Function.update c.threads t thread }

/-- `token` and `refresh_if_stale`, from the lock on. -/
def enter (t : T) (call : Call) (arrived now then' : ℕ) : TokenCache T :=
  let waited := c.finished.take (c.attempts - arrived)
  match call.served arrived c.state now with
  | some result => c.set t (.returned waited result)
  | none =>
    match c.state.mayPost then' with
    | .error e => c.set t (.returned waited (.error e))
    | .ok refresh =>
      { c.set t (.posted waited refresh then') with
        owner := some t
        history := .posted refresh :: c.history }

/-- The credential that these tokens replace. -/
def replaces (tokens : Tokens) : List Event :=
  if c.state.rotates tokens then c.state.refresh.toList.map .replaced else []

/-- What the outcome of an attempt adds to the history. -/
def outcomeEvents (refresh : String) (outcome : Outcome) : List Event :=
  match outcome with
  | .ok tokens => c.replaces tokens ++ [.answered refresh outcome]
  | .error _ => [.answered refresh outcome]

def settle (t : T) (waited : List Outcome) (refresh : String) (now attempt : ℕ) (outcome : Outcome)
    (finish : ℕ) (saved : Option ErrorKind) : TokenCache T :=
  let state := c.state.settled attempt outcome now finish saved
  { c.set t (.returned waited (outcome.map Tokens.access)) with
    state := state
    observed := .publish state
    owner := none
    history := c.outcomeEvents refresh outcome ++ c.history }

def adopt (t : T) (stored : Bool) (refresh : String) : TokenCache T :=
  let state := c.state.signInWith refresh
  { c.set t .idle with
    state := state
    observed := .publish state
    history := (if stored then .resumed refresh else .supplied refresh) :: c.history }

/-- The end of a sign-in with a device code. -/
def complete (t : T) (tokens : Tokens) (finish : ℕ) (saved : Option ErrorKind) : TokenCache T :=
  let state := c.state.granted tokens finish saved
  { c.set t .idle with
    state := state
    observed := .publish state
    history := c.replaces tokens ++ tokens.refresh.toList.map .supplied ++ c.history }

/-- One step of one thread. The lock is had by one at a time. -/
def next : Act T → Option (TokenCache T)
  | .read t call =>
    match c.threads t with
    | .idle => some (c.set t (.queued call c.attempts))
    | _ => none
  | .enter t now then' =>
    match c.owner, c.threads t with
    | none, .queued call arrived => some (c.enter t call arrived now then')
    | _, _ => none
  | .answer t reply =>
    match c.threads t with
    | .posted waited refresh now =>
      let thread := .answered waited refresh now (c.attempts + 1) (outcomeOf reply)
      some { c.set t thread with
        attempts := c.attempts + 1
        finished := outcomeOf reply :: c.finished }
    | _ => none
  | .settle t finish saved =>
    match c.threads t with
    | .answered waited refresh now attempt outcome =>
      some (c.settle t waited refresh now attempt outcome finish saved)
    | _ => none
  | .leave t =>
    match c.threads t with
    | .returned .. => some (c.set t .idle)
    | _ => none
  | .signInWith t refresh =>
    match c.threads t with
    | .idle => some (c.set t (.signing false refresh))
    | _ => none
  | .resume t refresh =>
    match c.threads t with
    | .idle => some (c.set t (.signing true refresh))
    | _ => none
  | .preflight t refresh =>
    match c.observed.signedIn, c.threads t with
    | false, .idle => some (c.set t (.signing true refresh))
    | _, _ => none
  | .redeem t reply =>
    match c.threads t, readTokenReply reply with
    | .idle, .ok tokens => some (c.set t (.grantedTo tokens))
    | _, _ => none
  | .adopt t =>
    match c.owner, c.threads t with
    | none, .signing stored refresh => some (c.adopt t stored refresh)
    | _, _ => none
  | .complete t finish saved =>
    match c.owner, c.threads t with
    | none, .grantedTo tokens => some (c.complete t tokens finish saved)
    | _, _ => none

/-- One step, of those that meet the condition. -/
def Step (cond : TokenCache T → Act T → Prop) (c c' : TokenCache T) : Prop :=
  ∃ a, cond c a ∧ c.next a = some c'

abbrev Run (cond : TokenCache T → Act T → Prop) : TokenCache T → TokenCache T → Prop :=
  Relation.ReflTransGen (Step cond)

/-- No condition. -/
abbrev Any (_ : TokenCache T) (_ : Act T) : Prop := True

/-- What one step does, by what the thread was at. -/
inductive Moved (c : TokenCache T) : Act T → TokenCache T → Prop
  | read (t : T) (call : Call) (hthread : c.threads t = .idle) :
      Moved c (.read t call) (c.set t (.queued call c.attempts))
  | served (t : T) (call : Call) (arrived now then' : ℕ) (result : Except AuthError String)
      (hfree : c.owner = none) (hthread : c.threads t = .queued call arrived)
      (hserved : call.served arrived c.state now = some result) :
      Moved c (.enter t now then')
        (c.set t (.returned (c.finished.take (c.attempts - arrived)) result))
  | refused (t : T) (call : Call) (arrived now then' : ℕ) (e : AuthError)
      (hfree : c.owner = none) (hthread : c.threads t = .queued call arrived)
      (hserved : call.served arrived c.state now = none)
      (hpost : c.state.mayPost then' = .error e) :
      Moved c (.enter t now then')
        (c.set t (.returned (c.finished.take (c.attempts - arrived)) (.error e)))
  | posted (t : T) (call : Call) (arrived now then' : ℕ) (refresh : String)
      (hfree : c.owner = none) (hthread : c.threads t = .queued call arrived)
      (hserved : call.served arrived c.state now = none)
      (hpost : c.state.mayPost then' = .ok refresh) :
      Moved c (.enter t now then')
        { c.set t (.posted (c.finished.take (c.attempts - arrived)) refresh then') with
          owner := some t
          history := .posted refresh :: c.history }
  | answered (t : T) (waited : List Outcome) (refresh : String) (now : ℕ)
      (reply : Except ErrorKind TokenReply) (hthread : c.threads t = .posted waited refresh now) :
      Moved c (.answer t reply)
        { c.set t (.answered waited refresh now (c.attempts + 1) (outcomeOf reply)) with
          attempts := c.attempts + 1
          finished := outcomeOf reply :: c.finished }
  | settled (t : T) (waited : List Outcome) (refresh : String) (now attempt : ℕ)
      (outcome : Outcome) (finish : ℕ) (saved : Option ErrorKind)
      (hthread : c.threads t = .answered waited refresh now attempt outcome) :
      Moved c (.settle t finish saved)
        (c.settle t waited refresh now attempt outcome finish saved)
  | left (t : T) (waited : List Outcome) (result : Except AuthError String)
      (hthread : c.threads t = .returned waited result) : Moved c (.leave t) (c.set t .idle)
  | signingIn (t : T) (refresh : String) (hthread : c.threads t = .idle) :
      Moved c (.signInWith t refresh) (c.set t (.signing false refresh))
  | resuming (t : T) (refresh : String) (hthread : c.threads t = .idle) :
      Moved c (.resume t refresh) (c.set t (.signing true refresh))
  | preflighting (t : T) (refresh : String) (hsigned : c.observed.signedIn = false)
      (hthread : c.threads t = .idle) :
      Moved c (.preflight t refresh) (c.set t (.signing true refresh))
  | redeemed (t : T) (reply : TokenReply) (tokens : Tokens) (hthread : c.threads t = .idle) :
      Moved c (.redeem t reply) (c.set t (.grantedTo tokens))
  | adopted (t : T) (stored : Bool) (refresh : String) (hfree : c.owner = none)
      (hthread : c.threads t = .signing stored refresh) :
      Moved c (.adopt t) (c.adopt t stored refresh)
  | completed (t : T) (tokens : Tokens) (finish : ℕ) (saved : Option ErrorKind)
      (hfree : c.owner = none) (hthread : c.threads t = .grantedTo tokens) :
      Moved c (.complete t finish saved) (c.complete t tokens finish saved)

theorem moved_enter {c : TokenCache T} (t : T) (call : Call) (arrived now then' : ℕ)
    (hfree : c.owner = none) (hthread : c.threads t = .queued call arrived) :
    Moved c (.enter t now then') (c.enter t call arrived now then') := by
  unfold enter
  split
  · rename_i result hserved
    exact .served t call arrived now then' result hfree hthread hserved
  · rename_i hserved
    split
    · rename_i e hpost
      exact .refused t call arrived now then' e hfree hthread hserved hpost
    · rename_i refresh hpost
      exact .posted t call arrived now then' refresh hfree hthread hserved hpost

theorem next_moved {c c' : TokenCache T} {a : Act T} (h : c.next a = some c') : Moved c a c' := by
  unfold next at h
  split at h <;> split at h <;> cases h
  · exact .read _ _ ‹_›
  · exact moved_enter _ _ _ _ _ ‹_› ‹_›
  · exact .answered _ _ _ _ _ ‹_›
  · exact .settled _ _ _ _ _ _ _ _ ‹_›
  · exact .left _ _ _ ‹_›
  · exact .signingIn _ _ ‹_›
  · exact .resuming _ _ ‹_›
  · exact .preflighting _ _ ‹_› ‹_›
  · exact .redeemed _ _ _ ‹_›
  · exact .adopted _ _ _ ‹_› ‹_›
  · exact .completed _ _ _ _ ‹_› ‹_›

/-- A run that is written out. -/
theorem run_foldlM {cond : TokenCache T → Act T → Prop} {acts : List (Act T)} {c c' : TokenCache T}
    (hcond : ∀ c a, a ∈ acts → cond c a) (h : acts.foldlM next c = some c') : Run cond c c' := by
  induction acts generalizing c with
  | nil =>
    cases h
    exact .refl
  | cons a acts ih =>
    rw [List.foldlM_cons, Option.bind_eq_bind, Option.bind_eq_some_iff] at h
    obtain ⟨c₁, hnext, hrest⟩ := h
    have hrun := ih (fun c b hb ↦ hcond c b (List.mem_cons_of_mem _ hb)) hrest
    exact .head ⟨a, hcond c a List.mem_cons_self, hnext⟩ hrun

/-- What every step of a run preserves holds at its end. -/
theorem Run.invariant {cond : TokenCache T → Act T → Prop} {I : TokenCache T → Prop}
    (hstep : ∀ c a c', I c → cond c a → Moved c a c' → I c') {c c' : TokenCache T} (h : I c)
    (hrun : Run cond c c') : I c' := by
  induction hrun with
  | refl => exact h
  | tail _ hlast ih =>
    obtain ⟨a, hcond, hnext⟩ := hlast
    exact hstep _ a _ ih hcond (next_moved hnext)

/-! ## The lock -/

end TokenCache

namespace Thread

/-- The request is out. -/
def InFlight : Thread → Prop
  | posted .. => True
  | _ => False

/-- The lock is held. -/
def Holds : Thread → Prop
  | posted .. | answered .. => True
  | _ => False

/-- The reply is counted, and not dealt with. -/
def Counted : Thread → Prop
  | answered .. => True
  | _ => False

theorem InFlight.holds {thread : Thread} (h : thread.InFlight) : thread.Holds := by
  match thread, h with
  | posted .., _ => trivial

theorem Counted.holds {thread : Thread} (h : thread.Counted) : thread.Holds := by
  match thread, h with
  | answered .., _ => trivial

end Thread

namespace TokenCache

variable {T : Type*} {c c' : TokenCache T} {t : T}

/-- Whoever holds the lock is its owner. -/
def Locked (c : TokenCache T) : Prop := ∀ t, (c.threads t).Holds → c.owner = some t

theorem Locked.new : (new : TokenCache T).Locked := fun _ h ↦ h.elim

theorem Locked.unheld (h : c.Locked) (hfree : c.owner = none) (t : T) : ¬ (c.threads t).Holds := by
  intro hholds
  exact absurd (hfree.symm.trans (h t hholds)) nofun

/-- Two threads that hold the lock are one. -/
theorem Locked.eq (h : c.Locked) {u : T} (ht : (c.threads t).Holds) (hu : (c.threads u).Holds) :
    t = u := Option.some.inj ((h t ht).symm.trans (h u hu))

variable [DecidableEq T]

@[simp] theorem set_threads_self (thread : Thread) : (c.set t thread).threads t = thread :=
  Function.update_self ..

theorem set_threads_ne {u : T} (h : u ≠ t) (thread : Thread) :
    (c.set t thread).threads u = c.threads u := Function.update_of_ne h ..

/-- A thread that goes on without the lock takes nothing from who has it. -/
theorem Locked.set (h : c.Locked) {thread : Thread} (hthread : ¬ thread.Holds)
    (hthreads : c'.threads = (c.set t thread).threads) (howner : c'.owner = c.owner) :
    c'.Locked := by
  intro u hu
  rw [hthreads] at hu
  by_cases htu : u = t
  · subst htu
    rw [set_threads_self] at hu
    exact absurd hu hthread
  · rw [set_threads_ne htu] at hu
    rw [howner]
    exact h u hu

theorem Locked.moved (h : c.Locked) {a : Act T} (hmoved : Moved c a c') : c'.Locked := by
  cases hmoved with
  | read t call hthread => exact h.set id rfl rfl
  | served t call arrived now then' result hfree hthread hserved => exact h.set id rfl rfl
  | refused t call arrived now then' e hfree hthread hserved hpost => exact h.set id rfl rfl
  | posted t call arrived now then' refresh hfree hthread hserved hpost =>
    intro u hu
    by_cases htu : u = t
    · rw [htu]
    · exact absurd (set_threads_ne (c := c) htu _ ▸ hu) (h.unheld hfree u)
  | answered t waited refresh now reply hthread =>
    intro u hu
    by_cases htu : u = t
    · rw [htu]
      exact h t (by rw [hthread]; trivial)
    · exact h u (set_threads_ne (c := c) htu _ ▸ hu)
  | settled t waited refresh now attempt outcome finish saved hthread =>
    intro u hu
    have howner := h t (by rw [hthread]; trivial)
    by_cases htu : u = t
    · subst htu
      change ((c.set u _).threads u).Holds at hu
      rw [set_threads_self] at hu
      exact hu.elim
    · have hu' := h u (set_threads_ne (c := c) htu _ ▸ hu)
      exact absurd (Option.some.inj (hu'.symm.trans howner)) htu
  | left t waited result hthread => exact h.set id rfl rfl
  | signingIn t refresh hthread => exact h.set id rfl rfl
  | resuming t refresh hthread => exact h.set id rfl rfl
  | preflighting t refresh hsigned hthread => exact h.set id rfl rfl
  | redeemed t reply tokens hthread => exact h.set id rfl rfl
  | adopted t stored refresh hfree hthread => exact h.set id rfl rfl
  | completed t tokens finish saved hfree hthread => exact h.set id rfl rfl

theorem Locked.run {cond : TokenCache T → Act T → Prop} (h : c.Locked) (hrun : Run cond c c') :
    c'.Locked := hrun.invariant (fun _ _ _ hlocked _ hmoved ↦ hlocked.moved hmoved) h

end TokenCache

end HydrationAPI.Graph.Auth
