import HydrationAPI.Graph.TokenCache

/-!
# How long a failed refresh holds off the next

The shared cache against a clock that does not run backwards. Beside it stands what it does not
keep: when each of the failed refreshes in a row was sent, and when its failure was returned.

The wait is counted from when the request was sent. What the request itself takes is taken off the
wait, and a request that takes longer than the wait is followed by the next at once.
-/

namespace HydrationAPI.Graph.Auth

/-! ## The cache and the clock -/

/-- The cache, the last reading of the clock, and the refreshes that have failed since one succeeded
or somebody signed in, the latest first: when each was sent, and when it was returned. -/
structure TimedCache (T : Type*) where
  cache : TokenCache T
  time : ℕ
  failed : List (ℕ × ℕ)

variable {T : Type*}

/-- The readings of the clock that a step is made by, one after the other. -/
def Act.readings : Act T → List ℕ
  | .enter _ now then' => [now, then']
  | .settle _ finish _ => [finish]
  | .complete _ finish _ => [finish]
  | _ => []

/-- The error is one that the cache has recorded: the last failure, or that the credential is given
up after too many. -/
def State.Tells (s : State) (e : AuthError) : Prop :=
  s.lastFailure.map Failure.error = some e ∨ s.rejected = true ∧ e = .credentialRejected

namespace TimedCache

variable [DecidableEq T]

def new : TimedCache T := ⟨.new, 0, []⟩

def failedAfter (d : TimedCache T) : Act T → List (ℕ × ℕ)
  | .settle t finish _ =>
    match d.cache.threads t with
    | .answered _ _ sent _ (.error _) => (sent, finish) :: d.failed
    | _ => []
  | .adopt _ => []
  | .complete .. => []
  | _ => d.failed

/-- One step of one thread. -/
def next (d : TimedCache T) (a : Act T) : Option (TimedCache T) :=
  if (d.time :: a.readings).Pairwise (· ≤ ·) then
    (d.cache.next a).map fun c ↦ ⟨c, a.readings.getLastD d.time, d.failedAfter a⟩
  else none

/-- Every step of this run is so. -/
def Every (P : TimedCache T → Act T → TimedCache T → Prop) : TimedCache T → List (Act T) → Prop
  | _, [] => True
  | d, a :: acts =>
    match d.next a with
    | none => True
    | some d' => P d a d' ∧ Every P d' acts

/-- After the second failure in a row and those that follow it, for as long as the backoff from when
it was returned. -/
def Within (d : TimedCache T) (time : ℕ) : Prop :=
  ∃ sent returned earlier, d.failed = (sent, returned) :: earlier ∧ 2 ≤ d.failed.length
    ∧ time < returned + backoff d.failed.length

/-- A step that keeps to the backoff. -/
structure BacksOff (d : TimedCache T) (a : Act T) (d' : TimedCache T) : Prop where
  waits : ∀ t now sent waited refresh, a = .enter t now sent →
    d'.cache.threads t = .posted waited refresh sent → ¬ d.Within sent
  told : ∀ t now then', a = .enter t now then' → d.Within then' → ∃ waited e,
    d'.cache.threads t = .returned waited (.error e) ∧ d.cache.state.Tells e
  /-- Once one succeeds, or somebody signs in, the credential may be presented at any time. -/
  ended : d.failed ≠ [] → d'.failed = [] → (∀ arrived, d'.cache.state.waitedOut arrived = none)
    ∧ ∃ refresh, ∀ time, d'.cache.state.mayPost time = .ok refresh

/-- A call that did not wait for the failure, with a credential that is not given up, does not come
between the backoff from when the failed request was sent and the backoff from when its failure was
returned. -/
def Spaced (d : TimedCache T) : Act T → Prop
  | .enter t _ then' =>
    match d.cache.threads t, d.failed with
    | .queued _ arrived, (sent, returned) :: earlier =>
      d.cache.state.waitedOut arrived = none → d.cache.state.rejected = false →
        1 ≤ earlier.length → then' < later sent (backoff (earlier.length + 1))
          ∨ returned + backoff (earlier.length + 1) ≤ then'
    | _, _ => True
  | _ => True

instance (d : TimedCache T) (a : Act T) : Decidable (d.Spaced a) :=
  match a with
  | .enter t _ then' =>
    match hthread : d.cache.threads t, hfailed : d.failed with
    | .queued _ arrived, (sent, returned) :: earlier =>
      decidable_of_iff
        (d.cache.state.waitedOut arrived = none → d.cache.state.rejected = false →
          1 ≤ earlier.length → then' < later sent (backoff (earlier.length + 1))
            ∨ returned + backoff (earlier.length + 1) ≤ then') (by rw [Spaced, hthread, hfailed])
    | .queued .., [] => isTrue (by rw [Spaced, hthread, hfailed]; trivial)
    | .idle, _ | .posted .., _ | .answered .., _ | .returned .., _ | .signing .., _
    | .grantedTo .., _ => isTrue (by rw [Spaced, hthread]; trivial)
  | .read .. | .answer .. | .settle .. | .leave .. | .signInWith .. | .resume .. | .preflight ..
  | .redeem .. | .adopt .. | .complete .. => instDecidableTrue

instance Every.decidable (P : TimedCache T → Act T → TimedCache T → Prop)
    [∀ d a d', Decidable (P d a d')] : (d : TimedCache T) → (acts : List (Act T)) →
      Decidable (Every P d acts)
  | _, [] => instDecidableTrue
  | d, a :: acts =>
    match hnext : d.next a with
    | none => isTrue (by rw [Every, hnext]; trivial)
    | some d' =>
      have := Every.decidable P d' acts
      decidable_of_iff (P d a d' ∧ Every P d' acts) (by rw [Every, hnext])

/-- What holds of a cache that is asked for valid tokens only. -/
structure Kept (d : TimedCache T) : Prop where
  locked : d.cache.Locked
  calls : ∀ t call arrived, d.cache.threads t = .queued call arrived → call = .token
  count : d.cache.state.failures = min d.failed.length u32Max
  /-- What is being refreshed, or could not be, has run out and stays so. -/
  spent : (d.failed ≠ [] ∨ ∃ t, (d.cache.threads t).Holds) →
    d.cache.state.live d.time = none ∧ ∃ refresh, d.cache.state.refresh = some refresh
  last : ∀ sent returned earlier, d.failed = (sent, returned) :: earlier →
    d.cache.state.nextAttemptAt = later sent (backoff d.failed.length)
      ∧ d.cache.state.lastFailure ≠ none

end TimedCache

/-! ## The state -/

theorem backoff_min (n : ℕ) : backoff (min n u32Max) = backoff n := by
  have hcap : min (min n u32Max - 2) 16 = min (n - 2) 16 := by
    rw [u32Max]
    omega
  have hfew : min n u32Max < 2 ↔ n < 2 := by
    rw [u32Max]
    omega
  rw [backoff, backoff, hcap]
  simp only [hfew]

namespace State

variable {s : State}

/-- A token that has run out stays so. -/
theorem live_mono {now now' : ℕ} (h : s.live now = none) (hle : now ≤ now') :
    s.live now' = none := by
  rw [live] at h ⊢
  split at h
  · rw [h, ite_self]
  · rename_i hspent
    refine if_neg fun hlive ↦ hspent (lt_of_le_of_lt ?_ hlive)
    rw [later, later]
    omega

@[simp] theorem granted_failures (tokens : Tokens) (now : ℕ) (saved : Option ErrorKind) :
    (s.granted tokens now saved).failures = 0 := by
  obtain ⟨storeError, h⟩ := granted_eq (s := s) tokens now saved
  rw [h]
  rfl

@[simp] theorem granted_nextAttemptAt (tokens : Tokens) (now : ℕ) (saved : Option ErrorKind) :
    (s.granted tokens now saved).nextAttemptAt = 0 := by
  obtain ⟨storeError, h⟩ := granted_eq (s := s) tokens now saved
  rw [h]
  rfl

theorem waitedOut_of_none (h : s.lastFailure = none) (arrived : ℕ) :
    s.waitedOut arrived = none := by
  rw [waitedOut, h]

/-- A credential that nothing is held against is presented at any time. -/
theorem mayPost_of_cleared {refresh : String} (hrefresh : s.refresh = some refresh)
    (hrejected : s.rejected = false) (hnext : s.nextAttemptAt = 0) (time : ℕ) :
    s.mayPost time = .ok refresh := by
  rw [mayPost, hrejected, hnext, hrefresh, if_neg Bool.false_ne_true, if_neg (Nat.not_lt_zero _)]

theorem tells_of_waitedOut {arrived : ℕ} {e : AuthError} (h : s.waitedOut arrived = some e) :
    s.Tells e := by
  rw [waitedOut] at h
  split at h
  · rename_i failure hfailure
    split at h
    · exact Or.inl (by rw [hfailure, Option.map_some, Option.some.inj h])
    · cases h
  · cases h

end State

/-! ## One step -/

namespace TimedCache

variable [DecidableEq T] {d d' : TimedCache T} {a : Act T} {t : T}

theorem next_eq (h : d.next a = some d') : (d.time :: a.readings).Pairwise (· ≤ ·)
    ∧ d.cache.next a = some d'.cache ∧ d'.time = a.readings.getLastD d.time
    ∧ d'.failed = d.failedAfter a := by
  rw [next] at h
  split at h
  · rename_i hordered
    obtain ⟨c, hc, rfl⟩ := Option.map_eq_some_iff.mp h
    exact ⟨hordered, hc, rfl, rfl⟩
  · cases h

/-- The clock does not run backwards. -/
theorem time_le (h : d.next a = some d') : d.time ≤ d'.time := by
  obtain ⟨hordered, -, htime, -⟩ := next_eq h
  have hall := (List.pairwise_cons.mp hordered).1
  rw [htime]
  have hlast : a.readings.getLastD d.time ∈ d.time :: a.readings := List.getLastD_mem_cons
  rcases List.mem_cons.mp hlast with hsame | hmem
  · exact hsame.ge
  · exact hall _ hmem

/-- A step that changes no more than where a thread stands. -/
theorem Kept.goOn (h : d.Kept) {thread : Thread}
    (hthreads : d'.cache.threads = (d.cache.set t thread).threads) (hlocked : d'.cache.Locked)
    (hstate : d'.cache.state = d.cache.state) (hfailed : d'.failed = d.failed)
    (htime : d.time ≤ d'.time)
    (hcall : ∀ call arrived, thread = .queued call arrived → call = .token)
    (hholds : thread.Holds → (d.cache.threads t).Holds
      ∨ d.cache.state.live d'.time = none ∧ ∃ refresh, d.cache.state.refresh = some refresh) :
    d'.Kept := by
  have hspent : (d.failed ≠ [] ∨ ∃ t, (d.cache.threads t).Holds) →
      d.cache.state.live d'.time = none ∧ ∃ refresh, d.cache.state.refresh = some refresh :=
    fun hwhy ↦ ⟨State.live_mono (h.spent hwhy).1 htime, (h.spent hwhy).2⟩
  constructor
  case locked => exact hlocked
  case calls =>
    intro u call arrived hu
    rw [hthreads] at hu
    by_cases hut : u = t
    · rw [hut, TokenCache.set_threads_self] at hu
      exact hcall call arrived hu
    · rw [TokenCache.set_threads_ne hut] at hu
      exact h.calls u call arrived hu
  case count => rw [hstate, hfailed, h.count]
  case spent =>
    rw [hstate, hfailed]
    rintro (hsome | ⟨u, hu⟩)
    · exact hspent (Or.inl hsome)
    · rw [hthreads] at hu
      by_cases hut : u = t
      · rw [hut, TokenCache.set_threads_self] at hu
        rcases hholds hu with hbefore | hnow
        · exact hspent (Or.inr ⟨t, hbefore⟩)
        · exact hnow
      · rw [TokenCache.set_threads_ne hut] at hu
        exact hspent (Or.inr ⟨u, hu⟩)
  case last =>
    rw [hstate, hfailed]
    exact h.last

omit [DecidableEq T] in
/-- Where nothing is held against the credential, and nobody holds the lock. -/
theorem Kept.cleared (hlocked : d.cache.Locked)
    (hcalls : ∀ t call arrived, d.cache.threads t = .queued call arrived → call = .token)
    (hfailed : d.failed = []) (hcount : d.cache.state.failures = 0)
    (hunheld : ∀ t, ¬ (d.cache.threads t).Holds) : d.Kept where
  locked := hlocked
  calls := hcalls
  count := by rw [hcount, hfailed, List.length_nil, Nat.zero_min]
  spent h := by
    rcases h with h | ⟨t, ht⟩
    · exact absurd hfailed h
    · exact absurd ht (hunheld t)
  last sent returned earlier h := by
    rw [hfailed] at h
    cases h

/-- A thread that is set to one which does not hold the lock. -/
theorem unheld_set {c : TokenCache T} {thread : Thread} (hthread : ¬ thread.Holds)
    (hothers : ∀ u, u ≠ t → ¬ (c.threads u).Holds) (u : T) :
    ¬ ((c.set t thread).threads u).Holds := by
  by_cases hut : u = t
  · rw [hut, TokenCache.set_threads_self]
    exact hthread
  · rw [TokenCache.set_threads_ne hut]
    exact hothers u hut

theorem calls_set {c : TokenCache T} {thread : Thread}
    (h : ∀ t call arrived, c.threads t = .queued call arrived → call = .token)
    (hthread : ∀ call arrived, thread ≠ .queued call arrived) (u : T) (call : Call) (arrived : ℕ)
    (hu : (c.set t thread).threads u = .queued call arrived) : call = .token := by
  by_cases hut : u = t
  · rw [hut, TokenCache.set_threads_self] at hu
    exact absurd hu (hthread call arrived)
  · rw [TokenCache.set_threads_ne hut] at hu
    exact h u call arrived hu

omit [DecidableEq T] in
theorem live_of_served {c : TokenCache T} {arrived now : ℕ}
    (h : Call.served .token arrived c.state now = none) : c.state.live now = none := by
  rw [Call.served] at h
  split at h
  · cases h
  · rename_i htakes
    exact htakes

/-- The second reading of the clock that a call makes is the last one. -/
theorem readings_enter {t' : T} {now then' : ℕ} (h : d.next (.enter t' now then') = some d') :
    d.time ≤ now ∧ now ≤ then' ∧ d'.time = then' := by
  obtain ⟨hordered, -, htime, -⟩ := next_eq h
  rw [Act.readings, List.pairwise_cons, List.pairwise_cons] at hordered
  exact ⟨hordered.1 now List.mem_cons_self, hordered.2.1 then' List.mem_cons_self, htime⟩

theorem Kept.step (h : d.Kept) (hnext : d.next a = some d')
    (hcall : ∀ t call, a = .read t call → call = .token) : d'.Kept := by
  obtain ⟨-, hmove, -, hfailed⟩ := next_eq hnext
  have htime := time_le hnext
  obtain ⟨cache, time, failed⟩ := d'
  dsimp only at hmove hfailed htime
  have hmoved := TokenCache.next_moved hmove
  have hlocked : cache.Locked := h.locked.moved hmoved
  subst hfailed
  cases hmoved with
  | read t call hthread =>
    refine h.goOn rfl hlocked rfl rfl htime (fun c arrived hc ↦ ?_) False.elim
    cases hc
    exact hcall t call rfl
  | served t call arrived now then' result hfree hthread hserved =>
    exact h.goOn rfl hlocked rfl rfl htime nofun False.elim
  | refused t call arrived now then' e hfree hthread hserved hpost =>
    exact h.goOn rfl hlocked rfl rfl htime nofun False.elim
  | posted t call arrived now then' refresh hfree hthread hserved hpost =>
    obtain rfl := h.calls t call arrived hthread
    obtain ⟨-, hle, hlast⟩ := readings_enter hnext
    have hlive : d.cache.state.live time = none := by
      rw [show time = then' from hlast]
      exact State.live_mono (live_of_served hserved) hle
    refine h.goOn rfl hlocked rfl rfl htime nofun fun _ ↦ Or.inr ⟨hlive, refresh, ?_⟩
    exact (State.mayPost_eq_ok hpost).1
  | answered t waited refresh now reply hthread =>
    refine h.goOn rfl hlocked rfl rfl htime nofun fun _ ↦ Or.inl ?_
    rw [hthread]
    trivial
  | settled t waited refresh now attempt outcome finish saved hthread =>
    have hholds : (d.cache.threads t).Holds := by
      rw [hthread]
      trivial
    have hothers : ∀ u, u ≠ t → ¬ (d.cache.threads u).Holds :=
      fun u hut hu ↦ hut (h.locked.eq hu hholds)
    cases outcome with
    | ok tokens =>
      have hnone : d.failedAfter (.settle t finish saved) = [] := by rw [failedAfter, hthread]
      exact .cleared hlocked (calls_set h.calls nofun) hnone (State.granted_failures ..)
        (unheld_set id hothers)
    | error e =>
      have hone : d.failedAfter (.settle t finish saved) = (now, finish) :: d.failed := by
        rw [failedAfter, hthread]
      have hspent := h.spent (Or.inr ⟨t, hholds⟩)
      have hcount : min (d.cache.state.failures + 1) u32Max
          = min (d.failed.length + 1) u32Max := by
        rw [h.count]
        omega
      rw [hone]
      constructor
      case locked => exact hlocked
      case calls => exact calls_set h.calls nofun
      case count => exact hcount
      case spent => exact fun _ ↦ ⟨State.live_mono hspent.1 htime, hspent.2⟩
      case last =>
        intro sent returned earlier heq
        obtain ⟨rfl, rfl⟩ : now = sent ∧ finish = returned := by simpa using (List.cons.inj heq).1
        refine ⟨?_, Option.some_ne_none _⟩
        have hbackoff : backoff (min (d.cache.state.failures + 1) u32Max)
            = backoff (d.failed.length + 1) := by rw [hcount, backoff_min]
        exact congrArg (later now) hbackoff
  | left t waited result hthread => exact h.goOn rfl hlocked rfl rfl htime nofun False.elim
  | signingIn t refresh hthread => exact h.goOn rfl hlocked rfl rfl htime nofun False.elim
  | resuming t refresh hthread => exact h.goOn rfl hlocked rfl rfl htime nofun False.elim
  | preflighting t refresh hsigned hthread =>
    exact h.goOn rfl hlocked rfl rfl htime nofun False.elim
  | redeemed t reply tokens hthread => exact h.goOn rfl hlocked rfl rfl htime nofun False.elim
  | adopted t stored refresh hfree hthread =>
    exact .cleared hlocked (calls_set h.calls nofun) rfl rfl
      (unheld_set id fun u _ ↦ h.locked.unheld hfree u)
  | completed t tokens finish saved hfree hthread =>
    exact .cleared hlocked (calls_set h.calls nofun) rfl (State.granted_failures ..)
      (unheld_set id fun u _ ↦ h.locked.unheld hfree u)

/-! ## The backoff -/

/-- A call that gets the lock is answered, refused, or sends a request. -/
theorem enter_eq {now then' : ℕ} (h : d.next (.enter t now then') = some d') :
    ∃ call arrived, d.cache.threads t = .queued call arrived
      ∧ d'.cache = d.cache.enter t call arrived now then' := by
  have hmove := (next_eq h).2.1
  rw [TokenCache.next] at hmove
  split at hmove
  · rename_i call arrived hfree hthread
    exact ⟨call, arrived, hthread, (Option.some.inj hmove).symm⟩
  · cases hmove

/-- After a failure only a call that waited for it is answered without a look at the credential. -/
theorem Kept.served (h : d.Kept) {now then' arrived : ℕ}
    (hnext : d.next (.enter t now then') = some d') (hfailed : d.failed ≠ []) :
    Call.served .token arrived d.cache.state now
      = (d.cache.state.waitedOut arrived).map .error := by
  obtain ⟨hnow, -, -⟩ := readings_enter hnext
  have htakes : Call.token.takes d.cache.state now = none :=
    State.live_mono (h.spent (Or.inl hfailed)).1 hnow
  rw [Call.served, htakes]

/-- A call that comes late enough, with nothing else held against it, sends a request. -/
theorem Kept.posts (h : d.Kept) {now then' arrived : ℕ}
    (hnext : d.next (.enter t now then') = some d') (hfailed : d.failed ≠ [])
    (hthread : d.cache.threads t = .queued .token arrived)
    (hwaited : d.cache.state.waitedOut arrived = none)
    (hrejected : d.cache.state.rejected = false) (hlate : d.cache.state.nextAttemptAt ≤ then') :
    ∃ waited refresh, d'.cache.threads t = .posted waited refresh then' := by
  obtain ⟨refresh, hrefresh⟩ := (h.spent (Or.inl hfailed)).2
  have hserved : Call.served .token arrived d.cache.state now = none := by
    rw [h.served hnext hfailed, hwaited]
    rfl
  have hpost : d.cache.state.mayPost then' = .ok refresh := by
    rw [State.mayPost, hrejected, hrefresh, if_neg Bool.false_ne_true,
      if_neg (Nat.not_lt.mpr hlate)]
  obtain ⟨call, arrived', hqueued, henter⟩ := enter_eq hnext
  obtain ⟨rfl, rfl⟩ : Call.token = call ∧ arrived = arrived' := by
    simpa using hthread.symm.trans hqueued
  refine ⟨d.cache.finished.take (d.cache.attempts - arrived), refresh, ?_⟩
  rw [henter, TokenCache.enter, hserved, hpost]
  exact TokenCache.set_threads_self _

/-- A call that comes too early for the next attempt is told what is recorded. -/
theorem Kept.tells (h : d.Kept) {now then' arrived : ℕ}
    (hnext : d.next (.enter t now then') = some d') (hfailed : d.failed ≠ [])
    (hthread : d.cache.threads t = .queued .token arrived)
    (hheld : d.cache.state.waitedOut arrived = none → d.cache.state.rejected = false →
      then' < d.cache.state.nextAttemptAt) :
    ∃ waited e, d'.cache.threads t = .returned waited (.error e) ∧ d.cache.state.Tells e := by
  obtain ⟨call, arrived', hqueued, henter⟩ := enter_eq hnext
  obtain ⟨rfl, rfl⟩ : Call.token = call ∧ arrived = arrived' := by
    simpa using hthread.symm.trans hqueued
  have hserved : Call.served .token arrived d.cache.state now
      = (d.cache.state.waitedOut arrived).map .error := h.served hnext hfailed
  refine ⟨d.cache.finished.take (d.cache.attempts - arrived), ?_⟩
  rw [henter, TokenCache.enter, hserved]
  cases hwaited : d.cache.state.waitedOut arrived with
  | some e =>
    exact ⟨e, TokenCache.set_threads_self _, State.tells_of_waitedOut hwaited⟩
  | none =>
    dsimp only [Option.map_none]
    cases hrejected : d.cache.state.rejected with
    | true =>
      have hpost : d.cache.state.mayPost then' = .error .credentialRejected := by
        rw [State.mayPost, hrejected, if_pos rfl]
      rw [hpost]
      exact ⟨_, TokenCache.set_threads_self _, Or.inr ⟨hrejected, rfl⟩⟩
    | false =>
      obtain ⟨⟨sent, returned⟩, earlier, hfirst⟩ := List.exists_cons_of_ne_nil hfailed
      obtain ⟨failure, hfailure⟩ :=
        Option.ne_none_iff_exists'.mp (h.last sent returned earlier hfirst).2
      have hpost : d.cache.state.mayPost then' = .error failure.error := by
        rw [State.mayPost, hrejected, if_neg Bool.false_ne_true,
          if_pos (hheld hwaited hrejected), hfailure]
        rfl
      rw [hpost]
      exact ⟨_, TokenCache.set_threads_self _, Or.inl (by rw [hfailure]; rfl)⟩

/-- What ends a row of failures leaves nothing held against the credential. -/
theorem Kept.ended (h : d.Kept) (hnext : d.next a = some d') (hfailed : d.failed ≠ [])
    (hnone : d'.failed = []) : (∀ arrived, d'.cache.state.waitedOut arrived = none)
      ∧ ∃ refresh, ∀ time, d'.cache.state.mayPost time = .ok refresh := by
  obtain ⟨-, hmove, -, hafter⟩ := next_eq hnext
  obtain ⟨cache, time, failed⟩ := d'
  dsimp only at hmove hafter hnone ⊢
  have hgranted : ∀ (tokens : Tokens) (finish : ℕ) (saved : Option ErrorKind),
      ∃ refresh, (d.cache.state.granted tokens finish saved).refresh = some refresh := by
    intro tokens finish saved
    obtain ⟨refresh, hrefresh⟩ := (h.spent (Or.inl hfailed)).2
    rw [State.granted_refresh, hrefresh]
    cases tokens.refresh <;> exact ⟨_, rfl⟩
  rw [hafter] at hnone
  cases TokenCache.next_moved hmove with
  | settled t waited refresh now attempt outcome finish saved hthread =>
    rw [failedAfter, hthread] at hnone
    cases outcome with
    | error e => cases hnone
    | ok tokens =>
      obtain ⟨refresh, hrefresh⟩ := hgranted tokens finish saved
      exact ⟨State.waitedOut_of_none (State.granted_lastFailure ..), refresh,
        State.mayPost_of_cleared hrefresh (State.granted_rejected ..)
          (State.granted_nextAttemptAt ..)⟩
  | adopted t stored refresh hfree hthread =>
    exact ⟨State.waitedOut_of_none rfl, refresh, State.mayPost_of_cleared rfl rfl rfl⟩
  | completed t tokens finish saved hfree hthread =>
    obtain ⟨refresh, hrefresh⟩ := hgranted tokens finish saved
    exact ⟨State.waitedOut_of_none (State.granted_lastFailure ..), refresh,
      State.mayPost_of_cleared hrefresh (State.granted_rejected ..)
        (State.granted_nextAttemptAt ..)⟩
  | _ => exact absurd hnone hfailed

/-- **A step keeps to the backoff** exactly if it does not come in the time that the request itself
has taken off the wait. -/
theorem Kept.backsOff_step (h : d.Kept) (hnext : d.next a = some d') :
    d.BacksOff a d' ↔ d.Spaced a := by
  constructor
  · intro hbacks
    match a with
    | .enter t now then' =>
      rw [Spaced]
      split
      · rename_i call arrived sent returned earlier hthread hfailed
        intro hwaited hrejected hmore
        obtain rfl := h.calls t call arrived hthread
        have hlast := (h.last sent returned earlier hfailed).1
        have hne : d.failed ≠ [] := hfailed ▸ List.cons_ne_nil _ _
        rw [hfailed, List.length_cons] at hlast
        by_contra hnot
        rw [not_or, Nat.not_lt, Nat.not_le, ← hlast] at hnot
        obtain ⟨waited, refresh, hposted⟩ := h.posts hnext hne hthread hwaited hrejected hnot.1
        refine hbacks.waits t now then' waited refresh rfl hposted
          ⟨sent, returned, earlier, hfailed, ?_, ?_⟩
        · rw [hfailed, List.length_cons]
          exact Nat.succ_le_succ hmore
        · rw [hfailed, List.length_cons]
          exact hnot.2
      · trivial
    | .read .. | .answer .. | .settle .. | .leave .. | .signInWith .. | .resume .. | .preflight ..
    | .redeem .. | .adopt .. | .complete .. => trivial
  · intro hspaced
    have htold : ∀ t now then', a = .enter t now then' → d.Within then' → ∃ waited e,
        d'.cache.threads t = .returned waited (.error e) ∧ d.cache.state.Tells e := by
      rintro t now then' rfl ⟨sent, returned, earlier, hfailed, htwo, hwithin⟩
      obtain ⟨call, arrived, hthread, -⟩ := enter_eq hnext
      obtain rfl := h.calls t call arrived hthread
      have hne : d.failed ≠ [] := hfailed ▸ List.cons_ne_nil _ _
      refine h.tells hnext hne hthread fun hwaited hrejected ↦ ?_
      simp only [Spaced, hthread, hfailed] at hspaced
      rw [(h.last sent returned earlier hfailed).1]
      rw [hfailed, List.length_cons] at htwo hwithin ⊢
      exact (hspaced hwaited hrejected (Nat.le_of_succ_le_succ htwo)).resolve_right
        (Nat.not_le.mpr hwithin)
    constructor
    case waits =>
      intro t now sent waited refresh ha hposted hwithin
      obtain ⟨_, _, hreturned, -⟩ := htold t now sent ha hwithin
      exact absurd (hposted.symm.trans hreturned) nofun
    case told => exact htold
    case ended => exact h.ended hnext

omit [DecidableEq T] in
theorem kept_new : (new : TimedCache T).Kept :=
  .cleared .new (fun _ _ _ h ↦ nomatch h) rfl rfl fun _ ↦ id

/-- Step by step, from a state of which this is kept. -/
theorem Kept.every_iff (h : d.Kept) (acts : List (Act T))
    (hcalls : ∀ t call, .read t call ∈ acts → call = .token) :
    Every BacksOff d acts ↔ Every (fun d a _ ↦ d.Spaced a) d acts := by
  induction acts generalizing d with
  | nil => exact Iff.rfl
  | cons a acts ih =>
    rw [Every, Every]
    cases hnext : d.next a with
    | none => exact Iff.rfl
    | some d' =>
      refine and_congr (h.backsOff_step hnext) ?_
      refine ih (h.step hnext fun t call ha ↦ hcalls t call ?_) fun t call hmem ↦ hcalls t call ?_
      · rw [ha]
        exact List.mem_cons_self
      · exact List.mem_cons_of_mem _ hmem

/-- **The cache backs off** in exactly those runs in which no call comes in the time that a request
has taken off the wait after its failure. -/
theorem backsOff_iff (acts : List (Act T))
    (hcalls : ∀ t call, .read t call ∈ acts → call = .token) :
    Every BacksOff new acts ↔ Every (fun d a _ ↦ d.Spaced a) new acts :=
  kept_new.every_iff acts hcalls

/-- A refresh that is sent at one time, and fails at another. -/
def failing (sent returned : ℕ) : List (Act Bool) :=
  [.read true .token, .enter true sent sent, .answer true (.error .timedOut),
    .settle true returned none, .leave true]

/-- Two refreshes that fail at once, and a call four seconds after the second. -/
def quick : List (Act Bool) :=
  [.signInWith true "R", .adopt true] ++ failing 0 0 ++ failing 0 0
    ++ [.read true .token, .enter true (4 * second) (4 * second)]

/-- Two refreshes that take half a minute each, and a call that comes right after the second. -/
def slow : List (Act Bool) :=
  [.signInWith true "R", .adopt true] ++ failing 0 (30 * second)
    ++ failing (30 * second) (60 * second)
    ++ [.read true .token, .enter true (60 * second) (60 * second)]

theorem calls_quick (t : Bool) (call : Call) (h : .read t call ∈ quick) : call = .token := by
  have hread : t = true ∧ call = .token := by simpa [quick, failing] using h
  exact hread.2

theorem calls_slow (t : Bool) (call : Call) (h : .read t call ∈ slow) : call = .token := by
  have hread : t = true ∧ call = .token := by simpa [slow, failing] using h
  exact hread.2

/-- What fails at once is not asked for again for five seconds. -/
theorem backsOff_quick : Every BacksOff new quick :=
  (backsOff_iff quick calls_quick).mpr (by decide +kernel)

/-- What takes longer than the wait is asked for again at once. -/
theorem slow_not_backsOff : ¬ Every BacksOff new slow :=
  (kept_new.every_iff slow calls_slow).not.mpr (by decide +kernel)

end TimedCache

end HydrationAPI.Graph.Auth
