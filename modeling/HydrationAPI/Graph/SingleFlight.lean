import HydrationAPI.Graph.TokenCache

/-!
# One refresh for all who wait

The lock admits one request at a time. That those who queued behind it send none of their own is
another matter: it takes the last attempt that finished to be recognised. A failure always is, as
long as the call does not take the token that was there before. A success is when the token it
installed is one that the call takes, and a token that is granted for no longer than the skew, or
that equals the one the call was rejected for, is not.
-/

namespace HydrationAPI.Graph.Auth

/-- A step of `token` or `refresh_if_stale`. -/
def Act.OfCall {T : Type*} : Act T → Prop
  | .read .. | .enter .. | .answer .. | .settle .. | .leave .. => True
  | _ => False

/-- The call is past the lock, and this is what it waited through. -/
def Thread.Waited (waited : List Outcome) : Thread → Prop
  | posted w .. | answered w .. | returned w .. => w = waited
  | _ => False

namespace TokenCache

variable {T : Type*} {c c' c₀ : TokenCache T} {t : T}

/-- If the last refresh succeeded, there is a token that the call takes; if it failed, the call
takes none but one that was granted while it waited. -/
def Recognisable (c : TokenCache T) (call : Call) (arrived now : ℕ) : Prop :=
  (∀ tokens, c.finished.head? = some (.ok tokens) → call.takes c.state now ≠ none)
    ∧ ∀ e access, c.finished.head? = some (.error e) → call.takes c.state now = some access →
      ∃ tokens, .ok tokens ∈ c.finished.take (c.attempts - arrived) ∧ tokens.access = access

/-- A step of a call; and one that gets the lock after waiting recognises what it waited for. -/
def Recognised (c : TokenCache T) (a : Act T) : Prop :=
  a.OfCall ∧ ∀ t now then' call arrived, a = .enter t now then' →
    c.threads t = .queued call arrived → arrived < c.attempts → c.Recognisable call arrived now

/-- Every call that has waited through a refresh is answered by one of those it waited through. -/
def Answered (c : TokenCache T) : Prop :=
  ∀ t waited, (c.threads t).Waited waited → waited ≠ [] →
    ∃ outcome ∈ waited, c.threads t = .returned waited (outcome.map Tokens.access)

/-! ## What the last attempt leaves -/

/-- The outcome can be read off the state. -/
def Leaves (s : State) (attempts : ℕ) : Outcome → Prop
  | .ok tokens => s.access = some tokens.access ∧ s.lastFailure = none
  | .error e => s.lastFailure = some ⟨attempts, e⟩

theorem settled_leaves (s : State) (attempt : ℕ) (outcome : Outcome) (now finish : ℕ)
    (saved : Option ErrorKind) :
    Leaves (s.settled attempt outcome now finish saved) attempt outcome := by
  match outcome with
  | .ok tokens => exact ⟨State.granted_access .., State.granted_lastFailure ..⟩
  | .error e => rfl

/-- A token that a call takes is the one that is held. -/
theorem access_of_takes {call : Call} {s : State} {now : ℕ} {access : String}
    (h : call.takes s now = some access) : s.access = some access := by
  cases call with
  | token =>
    rw [Call.takes, State.live] at h
    split at h
    · exact h
    · cases h
  | refreshIfStale stale => exact (Option.filter_eq_some_iff.mp h).1

/-- A call that recognises what it waited for is answered by it. -/
theorem served_of_recognisable {call : Call} {arrived now : ℕ}
    (hcounted : c.finished.length = c.attempts) (hwaited : arrived < c.attempts)
    (hleaves : ∀ outcome, c.finished.head? = some outcome → Leaves c.state c.attempts outcome)
    (h : c.Recognisable call arrived now) :
    ∃ outcome ∈ c.finished.take (c.attempts - arrived),
      call.served arrived c.state now = some (outcome.map Tokens.access) := by
  obtain ⟨last, earlier, hfinished⟩ : ∃ last earlier, c.finished = last :: earlier :=
    List.exists_cons_of_length_pos (by omega)
  have hhead : c.finished.head? = some last := by rw [hfinished, List.head?_cons]
  have hlast : last ∈ c.finished.take (c.attempts - arrived) := by
    obtain ⟨n, hn⟩ : ∃ n, c.attempts - arrived = n + 1 := ⟨c.attempts - arrived - 1, by omega⟩
    rw [hfinished, hn, List.take_succ_cons]
    exact List.mem_cons_self
  have hleft := hleaves last hhead
  rw [Call.served]
  match last with
  | .ok tokens =>
    obtain ⟨access, htakes⟩ := Option.ne_none_iff_exists'.mp (h.1 tokens hhead)
    have haccess : tokens.access = access :=
      Option.some.inj (hleft.1.symm.trans (access_of_takes htakes))
    rw [htakes]
    exact ⟨_, hlast, by rw [← haccess]; rfl⟩
  | .error e =>
    match htakes : call.takes c.state now with
    | some access =>
      obtain ⟨tokens, hmem, haccess⟩ := h.2 e access hhead htakes
      exact ⟨_, hmem, by rw [← haccess]; rfl⟩
    | none =>
      have hout : c.state.waitedOut arrived = some e := by
        rw [State.waitedOut, show c.state.lastFailure = some ⟨c.attempts, e⟩ from hleft]
        exact if_pos hwaited
      rw [hout]
      exact ⟨_, hlast, rfl⟩

/-- The condition is exact: a call that does not recognise what it waited for is not answered by
it. -/
theorem recognisable_of_served {call : Call} {arrived now : ℕ} {outcome : Outcome}
    (hleaves : ∀ outcome, c.finished.head? = some outcome → Leaves c.state c.attempts outcome)
    (hmem : outcome ∈ c.finished.take (c.attempts - arrived))
    (h : call.served arrived c.state now = some (outcome.map Tokens.access)) :
    c.Recognisable call arrived now := by
  refine ⟨fun tokens hhead hnone ↦ ?_, fun e access hhead htakes ↦ ?_⟩
  · have hleft : c.state.lastFailure = none := (hleaves _ hhead).2
    rw [Call.served, hnone, State.waitedOut, hleft] at h
    exact absurd h nofun
  · rw [Call.served, htakes] at h
    match outcome with
    | .ok tokens =>
      refine ⟨tokens, hmem, ?_⟩
      cases h
      rfl
    | .error e => exact absurd h nofun

/-! ## The invariant -/

/-- What holds while calls, and nothing else, use a cache whose counter stood at `n₀`. -/
structure Flying (n₀ : ℕ) (c : TokenCache T) : Prop where
  locked : c.Locked
  counted : c.finished.length = c.attempts
  /-- A reply that is counted is that of the last attempt. -/
  pending : ∀ t waited refresh now attempt outcome,
    c.threads t = .answered waited refresh now attempt outcome →
    attempt = c.attempts ∧ c.finished.head? = some outcome
  arrived : ∀ t call arrived, c.threads t = .queued call arrived → n₀ ≤ arrived
  since : n₀ ≤ c.attempts
  /-- Once it is dealt with, it can be read off the state. -/
  leaves : (∀ t, ¬ (c.threads t).Counted) → n₀ < c.attempts →
    ∀ outcome, c.finished.head? = some outcome → Leaves c.state c.attempts outcome
  answered : c.Answered

/-- A call that gets the lock after a refresh finished is answered, and by such a refresh. -/
theorem Flying.served {n₀ : ℕ} (h : Flying n₀ c) {call : Call} {arrived now then' : ℕ}
    (hfree : c.owner = none) (hthread : c.threads t = .queued call arrived)
    (hcond : c.Recognised (.enter t now then'))
    (hwaited : c.finished.take (c.attempts - arrived) ≠ []) :
    ∃ outcome ∈ c.finished.take (c.attempts - arrived),
      call.served arrived c.state now = some (outcome.map Tokens.access) := by
  have hlt : arrived < c.attempts := by
    refine Nat.lt_of_not_le fun hle ↦ hwaited ?_
    rw [Nat.sub_eq_zero_of_le hle, List.take_zero]
  refine served_of_recognisable h.counted hlt (h.leaves (fun u hu ↦ ?_) ?_)
    (hcond.2 t now then' call arrived rfl hthread hlt)
  · exact h.locked.unheld hfree u hu.holds
  · exact (h.arrived t call arrived hthread).trans_lt hlt

variable [DecidableEq T]

/-- A step that changes no more than a thread. -/
theorem Answered.set (h : c.Answered) {thread : Thread}
    (hthread : ∀ waited, thread.Waited waited → waited ≠ [] →
      ∃ outcome ∈ waited, thread = .returned waited (outcome.map Tokens.access))
    (hthreads : c'.threads = (c.set t thread).threads) : c'.Answered := by
  intro u waited
  rw [hthreads]
  by_cases hut : u = t
  · subst hut
    rw [set_threads_self]
    exact hthread waited
  · rw [set_threads_ne hut]
    exact h u waited

/-- A thread that goes on before a reply is counted, or after it was dealt with, leaves the rest as
it is. -/
theorem Flying.goOn {n₀ : ℕ} (h : Flying n₀ c) {thread : Thread}
    (hthreads : c'.threads = (c.set t thread).threads) (hlocked : c'.Locked)
    (hstate : c'.state = c.state) (hattempts : c'.attempts = c.attempts)
    (hfinished : c'.finished = c.finished) (hbefore : ¬ (c.threads t).Counted)
    (hafter : ¬ thread.Counted)
    (hqueued : ∀ call arrived, thread = .queued call arrived → n₀ ≤ arrived)
    (hanswered : ∀ waited, thread.Waited waited → waited ≠ [] →
      ∃ outcome ∈ waited, thread = .returned waited (outcome.map Tokens.access)) :
    Flying n₀ c' := by
  refine ⟨hlocked, by rw [hfinished, hattempts]; exact h.counted, fun u w r n k outcome hu ↦ ?_,
    fun u call arrived hu ↦ ?_, hattempts ▸ h.since, fun hnone ↦ ?_,
    h.answered.set hanswered hthreads⟩
  · rw [hthreads] at hu
    by_cases hut : u = t
    · subst hut
      rw [set_threads_self] at hu
      exact absurd (hu ▸ trivial) hafter
    · rw [set_threads_ne hut] at hu
      rw [hattempts, hfinished]
      exact h.pending u w r n k outcome hu
  · rw [hthreads] at hu
    by_cases hut : u = t
    · subst hut
      rw [set_threads_self] at hu
      exact hqueued call arrived hu
    · rw [set_threads_ne hut] at hu
      exact h.arrived u call arrived hu
  · rw [hattempts, hfinished, hstate]
    refine h.leaves fun u hu ↦ ?_
    by_cases hut : u = t
    · subst hut
      exact hbefore hu
    · exact hnone u (by rwa [hthreads, set_threads_ne hut])

theorem Flying.moved {n₀ : ℕ} (h : Flying n₀ c) {a : Act T} (hcond : c.Recognised a)
    (hmoved : Moved c a c') : Flying n₀ c' := by
  have hlocked : c'.Locked := h.locked.moved hmoved
  cases hmoved with
  | read t call hthread =>
    refine h.goOn rfl hlocked rfl rfl rfl (by rw [hthread]; exact id) id ?_ nofun
    intro _ arrived heq
    cases heq
    exact h.since
  | served t call arrived now then' result hfree hthread hserved =>
    refine h.goOn rfl hlocked rfl rfl rfl (by rw [hthread]; exact id) id nofun ?_
    intro waited hw hne
    subst hw
    obtain ⟨outcome, hmem, hout⟩ := h.served hfree hthread hcond hne
    cases hserved.symm.trans hout
    exact ⟨outcome, hmem, rfl⟩
  | refused t call arrived now then' e hfree hthread hserved hpost =>
    refine h.goOn rfl hlocked rfl rfl rfl (by rw [hthread]; exact id) id nofun ?_
    intro waited hw hne
    subst hw
    obtain ⟨outcome, hmem, hout⟩ := h.served hfree hthread hcond hne
    exact absurd (hserved.symm.trans hout) nofun
  | posted t call arrived now then' refresh hfree hthread hserved hpost =>
    refine h.goOn rfl hlocked rfl rfl rfl (by rw [hthread]; exact id) id nofun ?_
    intro waited hw hne
    subst hw
    obtain ⟨outcome, hmem, hout⟩ := h.served hfree hthread hcond hne
    exact absurd (hserved.symm.trans hout) nofun
  | answered t waited refresh now reply hthread =>
    have hholds : (c.threads t).Holds := by rw [hthread]; trivial
    have hwaited : waited = [] := by
      by_contra hne
      obtain ⟨outcome, -, heq⟩ := h.answered t waited (by rw [hthread]; rfl) hne
      exact absurd (hthread.symm.trans heq) nofun
    refine ⟨hlocked, congrArg (· + 1) h.counted, fun u w r n k outcome hu ↦ ?_,
      fun u call arrived hu ↦ ?_, h.since.trans (Nat.le_succ _), fun hnone ↦ ?_,
      h.answered.set (fun w hw hne ↦ ?_) rfl⟩
    · by_cases hut : u = t
      · subst hut
        cases (set_threads_self _).symm.trans hu
        exact ⟨rfl, rfl⟩
      · have hu' := (set_threads_ne (c := c) hut _).symm.trans hu
        exact absurd (h.locked.eq (by rw [hu']; trivial) hholds) hut
    · by_cases hut : u = t
      · subst hut
        exact absurd ((set_threads_self _).symm.trans hu) nofun
      · exact h.arrived u call arrived ((set_threads_ne (c := c) hut _).symm.trans hu)
    · refine absurd ?_ (hnone t)
      change ((c.set t _).threads t).Counted
      rw [set_threads_self]
      trivial
    · have hw' : waited = w := hw
      exact absurd (hw'.symm.trans hwaited) hne
  | settled t waited refresh now attempt outcome finish saved hthread =>
    obtain ⟨rfl, hhead⟩ := h.pending t _ _ _ _ _ hthread
    have hholds : (c.threads t).Holds := by rw [hthread]; trivial
    have hwaited : waited = [] := by
      by_contra hne
      obtain ⟨_, -, heq⟩ := h.answered t waited (by rw [hthread]; rfl) hne
      exact absurd (hthread.symm.trans heq) nofun
    refine ⟨hlocked, h.counted, fun u w r n k outcome' hu ↦ ?_, fun u call arrived hu ↦ ?_, h.since,
      fun _ _ outcome' hhead' ↦ ?_,
      h.answered.set (fun w hw hne ↦ ?_) rfl⟩
    · by_cases hut : u = t
      · subst hut
        exact absurd ((set_threads_self _).symm.trans hu) nofun
      · have hu' := (set_threads_ne (c := c) hut _).symm.trans hu
        exact absurd (h.locked.eq (by rw [hu']; trivial) hholds) hut
    · by_cases hut : u = t
      · subst hut
        exact absurd ((set_threads_self _).symm.trans hu) nofun
      · exact h.arrived u call arrived ((set_threads_ne (c := c) hut _).symm.trans hu)
    · cases hhead.symm.trans hhead'
      exact settled_leaves ..
    · have hw' : waited = w := hw
      exact absurd (hw'.symm.trans hwaited) hne
  | left t waited result hthread =>
    exact h.goOn rfl hlocked rfl rfl rfl (by rw [hthread]; exact id) id nofun nofun
  | signingIn t refresh hthread => exact hcond.1.elim
  | resuming t refresh hthread => exact hcond.1.elim
  | preflighting t refresh hsigned hthread => exact hcond.1.elim
  | redeemed t reply tokens hthread => exact hcond.1.elim
  | adopted t stored refresh hfree hthread => exact hcond.1.elim
  | completed t tokens finish saved hfree hthread => exact hcond.1.elim

/-- Whatever has happened, every finished attempt has its outcome in the record. -/
theorem counted_of_run {cond : TokenCache T → Act T → Prop} (hrun : Run cond new c) :
    c.finished.length = c.attempts := by
  refine hrun.invariant (I := fun c ↦ c.finished.length = c.attempts) ?_ rfl
  intro c a c' h _ hmoved
  cases hmoved with
  | answered t waited refresh now reply hthread => exact congrArg (· + 1) h
  | _ => exact h

/-- However the calls of any number of threads interleave, there is at most one request, and a call
that waited through a refresh returns what one of those it waited through came to, in every run in
which such a call, when it gets the lock, recognises what it waited for. -/
theorem single_flight (hbefore : Run Any new c₀) (hidle : ∀ t, c₀.threads t = .idle)
    (hrun : Run Recognised c₀ c) :
    (∀ t u, (c.threads t).InFlight → (c.threads u).InFlight → t = u) ∧ c.Answered := by
  have hlocked : c₀.Locked := Locked.new.run hbefore
  have hflying : Flying c₀.attempts c₀ := by
    refine ⟨hlocked, counted_of_run hbefore, fun t w r n k outcome ht ↦ ?_,
      fun t call arrived ht ↦ ?_, le_rfl, fun _ hlt ↦ absurd hlt (lt_irrefl _),
      fun t waited hwaited ↦ ?_⟩
    · exact absurd ((hidle t).symm.trans ht) nofun
    · exact absurd ((hidle t).symm.trans ht) nofun
    · rw [hidle t] at hwaited
      exact hwaited.elim
  have hend : Flying c₀.attempts c :=
    hrun.invariant (fun _ _ _ h hcond hmoved ↦ h.moved hcond hmoved) hflying
  exact ⟨fun t u ht hu ↦ hend.locked.eq ht.holds hu.holds, hend.answered⟩

/-- A reply that grants a token for `n` seconds. -/
def grantFor (n : ℕ) : TokenReply :=
  ⟨200, some [("access_token", .string "A"), ("expires_in", .number (some n))]⟩

/-- A cache that holds a credential, for two threads. -/
def holding : TokenCache Bool := (new.set true (.signing false "R")).adopt true false "R"

theorem run_holding : Run Any new holding := by
  have hacts : [.signInWith true "R", .adopt true].foldlM next new = some holding := rfl
  exact run_foldlM (fun _ _ _ ↦ trivial) hacts

theorem holding_idle (t : Bool) : holding.threads t = .idle := by
  match t with
  | true | false => rfl

/-- The second of two threads takes the token that the first was granted for an hour. -/
theorem single_flight_two : ∃ c : TokenCache Bool,
    c.threads false = .returned [.ok ⟨"A", 3600 * second, none⟩] (.ok "A") ∧ c.Answered := by
  have hrun : ∃ c : TokenCache Bool, Run Recognised holding c
      ∧ c.threads false = .returned [.ok ⟨"A", 3600 * second, none⟩] (.ok "A") := by
    refine ⟨_, .head ⟨.read true .token, ⟨trivial, nofun⟩, rfl⟩ <|
      .head ⟨.read false .token, ⟨trivial, nofun⟩, rfl⟩ <|
      .head ⟨.enter true 0 0, ⟨trivial, fun _ _ _ _ _ _ _ h ↦ (Nat.not_lt_zero _ h).elim⟩, rfl⟩ <|
      .head ⟨.answer true (.ok (grantFor 3600)), ⟨trivial, nofun⟩, rfl⟩ <|
      .head ⟨.settle true 0 none, ⟨trivial, nofun⟩, rfl⟩ <|
      .single ⟨.enter false 0 0, ⟨trivial, ?_⟩, rfl⟩, rfl⟩
    intro t now then' call arrived ha hthread _
    cases ha
    cases hthread
    exact ⟨fun _ _ ↦ Option.some_ne_none _, fun _ _ hhead _ ↦ absurd hhead nofun⟩
  obtain ⟨c, hrun, hthread⟩ := hrun
  exact ⟨c, hthread, (single_flight run_holding holding_idle hrun).2⟩

/-- A token that is granted for a minute is spent before the next thread looks at it, and the thread
that waited for it sends a request of its own. -/
theorem refreshes_again : ¬ ∀ c : TokenCache Bool, Run (fun _ a ↦ a.OfCall) holding c →
    (∀ t u, (c.threads t).InFlight → (c.threads u).InFlight → t = u) ∧ c.Answered := by
  intro h
  have hrun : ∃ c : TokenCache Bool, Run (fun _ a ↦ a.OfCall) holding c
      ∧ c.threads false = .posted [.ok ⟨"A", 60 * second, none⟩] "R" 0 := by
    refine ⟨_, .head ⟨.read true .token, trivial, rfl⟩ <|
      .head ⟨.read false .token, trivial, rfl⟩ <| .head ⟨.enter true 0 0, trivial, rfl⟩ <|
      .head ⟨.answer true (.ok (grantFor 60)), trivial, rfl⟩ <|
      .head ⟨.settle true 0 none, trivial, rfl⟩ <|
      .single ⟨.enter false 0 0, trivial, rfl⟩, rfl⟩
  obtain ⟨c, hrun, hthread⟩ := hrun
  have hwaited : (c.threads false).Waited [.ok ⟨"A", 60 * second, none⟩] := by
    rw [hthread]
    rfl
  obtain ⟨outcome, -, hreturned⟩ := (h c hrun).2 false _ hwaited (List.cons_ne_nil _ _)
  exact absurd (hthread.symm.trans hreturned) nofun

end TokenCache

end HydrationAPI.Graph.Auth
