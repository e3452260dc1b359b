import HydrationAPI.Graph.TokenCache

/-!
# Which credentials are presented

A refresh token that a successful reply has replaced is spent, and one that the service has refused
often enough in a row is dead. The cache keeps one token and a count of refusals, so it knows of
both only as long as nothing else brings the token back. What comes from outside, from the store or
from a sign-in, is taken as new: it is not compared with what was held, and clears the count.
-/

namespace HydrationAPI.Graph.Auth

/-! ## Spent and dead -/

/-- How the refreshes came out, the latest first. -/
def answers (history : List Event) : List (String × Outcome) :=
  history.filterMap fun
    | .answered refresh outcome => some (refresh, outcome)
    | _ => none

/-- The refresh token is refused. -/
def refused (refresh : String) : Event := .answered refresh (.error .invalidGrant)

/-- How many of the latest refreshes in a row presented this token and were refused. -/
def streak (refresh : String) (history : List Event) : ℕ :=
  ((answers history).takeWhile (· = (refresh, .error .invalidGrant))).length

/-- `maxRejections` refreshes in a row presented this token and were refused, and no sign-in has
supplied another since. -/
inductive Dead (refresh : String) : List Event → Prop
  | rejected (earlier : List Event)
      (hstreak : maxRejections ≤ streak refresh (refused refresh :: earlier)) :
      Dead refresh (refused refresh :: earlier)
  | later (e : Event) (earlier : List Event) (hdead : Dead refresh earlier)
      (hother : ∀ other, e = .supplied other → other = refresh) : Dead refresh (e :: earlier)

/-- Neither spent nor dead. -/
def Presentable (refresh : String) (history : List Event) : Prop :=
  .replaced refresh ∉ history ∧ ¬ Dead refresh history

/-- A token that was presented was neither spent nor dead then. -/
def Presented (history : List Event) : Prop :=
  ∀ refresh earlier, .posted refresh :: earlier <:+ history → Presentable refresh earlier

/-- A token to put in force: not spent, not dead, and not the one that was just refused. -/
def Usable (refresh : String) (history : List Event) : Prop :=
  Presentable refresh history ∧ streak refresh history = 0

section Histories

variable {r : String} {e : Event} {history earlier events : List Event}

theorem streak_cons_of_not_answered (h : ∀ other outcome, e ≠ .answered other outcome) :
    streak r (e :: history) = streak r history := by
  match e with
  | .answered other outcome => exact absurd rfl (h other outcome)
  | .posted _ | .supplied _ | .resumed _ | .replaced _ => rfl

theorem streak_refused : streak r (refused r :: history) = streak r history + 1 := by
  simp [streak, answers, refused]

theorem streak_answered {other : String} {outcome : Outcome}
    (h : Event.answered other outcome ≠ refused r) :
    streak r (.answered other outcome :: history) = 0 := by
  have hne : (other, outcome) ≠ (r, .error .invalidGrant) := by
    intro heq
    cases heq
    exact h rfl
  simp [streak, answers, hne]

theorem not_dead_nil : ¬ Dead r [] := nofun

theorem Dead.of_cons (h : Dead r (e :: history)) (hne : e ≠ refused r) : Dead r history := by
  cases h with
  | rejected _ _ => exact absurd rfl hne
  | later _ _ hdead _ => exact hdead

/-- A dead token was refused. -/
theorem Dead.refused_mem (h : Dead r history) : refused r ∈ history := by
  induction h with
  | rejected earlier _ => exact List.mem_cons_self
  | later e earlier _ _ ih => exact List.mem_cons_of_mem e ih

/-- An event that answers no refresh leaves usable what is usable. -/
theorem Usable.cons (h : Usable r history)
    (hanswered : ∀ other outcome, e ≠ .answered other outcome) (hreplaced : e ≠ .replaced r) :
    Usable r (e :: history) := by
  refine ⟨⟨?_, fun hdead ↦ h.1.2 (hdead.of_cons (hanswered _ _))⟩, ?_⟩
  · rw [List.mem_cons, not_or]
    exact ⟨hreplaced.symm, h.1.1⟩
  · rw [streak_cons_of_not_answered hanswered]
    exact h.2

/-- What does not present a token presents none that may not be. -/
theorem Presented.cons (h : Presented history) (he : ∀ refresh, e ≠ .posted refresh) :
    Presented (e :: history) := by
  intro refresh earlier hsuffix
  rcases List.suffix_cons_iff.mp hsuffix with heq | hsuffix
  · exact absurd (List.cons.inj heq).1.symm (he refresh)
  · exact h refresh earlier hsuffix

theorem Presented.append (h : Presented history)
    (hevents : ∀ e ∈ events, ∀ refresh, e ≠ .posted refresh) : Presented (events ++ history) := by
  induction events with
  | nil => exact h
  | cons e events ih =>
    have hrest := ih fun e' he' ↦ hevents e' (List.mem_cons_of_mem e he')
    exact hrest.cons (hevents e List.mem_cons_self)

theorem Presented.post (h : Presented history) (hr : Presentable r history) :
    Presented (.posted r :: history) := by
  intro refresh earlier hsuffix
  rcases List.suffix_cons_iff.mp hsuffix with heq | hsuffix
  · cases heq
    exact hr
  · exact h refresh earlier hsuffix

end Histories

/-! ## The invariant -/

namespace TokenCache

variable {T : Type*} {c c' : TokenCache T} {t : T}

/-- What a step puts in force is usable then. -/
structure Fitting (c : TokenCache T) (a : Act T) : Prop where
  rotated : ∀ t finish saved waited refresh now attempt tokens new, a = .settle t finish saved →
    c.threads t = .answered waited refresh now attempt (.ok tokens) → tokens.refresh = some new →
    c.state.refresh ≠ some new → Usable new (.answered refresh (.ok tokens) :: c.history)
  adopted : ∀ t stored refresh, a = .adopt t → c.threads t = .signing stored refresh →
    Usable refresh c.history
  completed : ∀ t finish saved tokens refresh, a = .complete t finish saved →
    c.threads t = .grantedTo tokens → tokens.refresh.or c.state.refresh = some refresh →
    Usable refresh c.history

end TokenCache

/-- The thread presents this token, or has its answer still to deal with. -/
def Thread.Spends (refresh : String) : Thread → Prop
  | posted _ r _ | answered _ r _ _ _ => r = refresh
  | _ => False

theorem Thread.Spends.holds {refresh : String} {thread : Thread} (h : thread.Spends refresh) :
    thread.Holds := by
  match thread, h with
  | posted .., _ | answered .., _ => trivial

namespace TokenCache

variable {T : Type*} {c c' : TokenCache T} {t : T}

/-- The count of refusals is that of the token in force, and a dead one is known to be. -/
structure Minded (c : TokenCache T) : Prop where
  locked : c.Locked
  /-- The token that is presented stays in force until the answer is dealt with. -/
  spending : ∀ t refresh, (c.threads t).Spends refresh →
    c.state.refresh = some refresh ∧ c.state.rejected = false
  kept : ∀ refresh, c.state.refresh = some refresh → .replaced refresh ∉ c.history
  counted : ∀ refresh, c.state.refresh = some refresh →
    min (streak refresh c.history) maxRejections ≤ c.state.rejections
  sentenced : c.state.rejected = false → c.state.rejections < maxRejections
  dead : ∀ refresh, c.state.refresh = some refresh → Dead refresh c.history →
    c.state.rejected = true
  presented : Presented c.history

theorem Minded.new : (new : TokenCache T).Minded where
  locked := Locked.new
  spending := fun _ _ h ↦ h.elim
  kept := nofun
  counted := nofun
  sentenced := fun _ ↦ (by decide : 0 < maxRejections)
  dead := nofun
  presented := by
    intro refresh earlier hsuffix
    exact absurd (List.suffix_nil.mp hsuffix) (List.cons_ne_nil _ _)

theorem Locked.not_spends (h : c.Locked) (hfree : c.owner = none) (t : T) (refresh : String) :
    ¬ (c.threads t).Spends refresh := fun hspends ↦ h.unheld hfree t hspends.holds

/-- A credential that is put in force, with the lock given back, and the count cleared. -/
theorem Minded.putInForce (h : c.Minded) (hlocked : c'.Locked) (hfree : c'.owner = none)
    {events : List Event} (hhistory : c'.history = events ++ c.history)
    (hevents : ∀ e ∈ events, ∀ refresh, e ≠ .posted refresh)
    (hrejections : c'.state.rejections = 0)
    (husable : ∀ refresh, c'.state.refresh = some refresh → Usable refresh c'.history) :
    c'.Minded where
  locked := hlocked
  spending := fun t refresh hspends ↦ absurd hspends (hlocked.not_spends hfree t refresh)
  kept := fun refresh hr ↦ (husable refresh hr).1.1
  counted := by
    intro refresh hr
    rw [(husable refresh hr).2, Nat.zero_min]
    exact Nat.zero_le _
  sentenced := fun _ ↦ hrejections ▸ by decide
  dead := fun refresh hr hdead ↦ absurd hdead (husable refresh hr).1.2
  presented := hhistory ▸ h.presented.append hevents

/-- The record of an attempt that failed. -/
theorem Minded.refuse (h : c.Minded) {refresh : String} (hspends : (c.threads t).Spends refresh)
    (hlocked : c'.Locked) (hfree : c'.owner = none) {attempt now : ℕ} {e : AuthError}
    (hstate : c'.state = c.state.noteFailure attempt e now)
    (hhistory : c'.history = .answered refresh (.error e) :: c.history) : c'.Minded := by
  obtain ⟨hrefresh, hrejected⟩ := h.spending t refresh hspends
  have halive : ¬ Dead refresh c.history := by
    intro hdead
    exact absurd (hrejected.symm.trans (h.dead refresh hrefresh hdead)) Bool.false_ne_true
  have hforce : ∀ r, c'.state.refresh = some r → r = refresh := by
    intro r hr
    rw [hstate, State.noteFailure_refresh] at hr
    exact Option.some.inj (hr.symm.trans hrefresh)
  have hcounted : min (streak refresh c'.history) maxRejections ≤ c'.state.rejections := by
    rw [hstate, hhistory, State.noteFailure]
    by_cases he : e = .invalidGrant
    · subst he
      have hbefore := h.counted refresh hrefresh
      change min (streak refresh (refused refresh :: c.history)) _ ≤ min (c.state.rejections + 1) _
      rw [streak_refused]
      simp only [maxRejections, u32Max] at hbefore ⊢
      omega
    · have hne : Event.answered refresh (.error e) ≠ refused refresh := by
        intro heq
        cases heq
        exact he rfl
      rw [streak_answered hne, Nat.zero_min]
      exact Nat.zero_le _
  have hsentenced : c'.state.rejected = false → c'.state.rejections < maxRejections := by
    rw [hstate, State.noteFailure]
    by_cases he : e = .invalidGrant
    · simp only [if_pos he, decide_eq_false_iff_not, not_le]
      exact id
    · simp only [if_neg he]
      exact fun _ ↦ by decide
  refine ⟨hlocked, fun t r hspends' ↦ absurd hspends' (hlocked.not_spends hfree t r), fun r hr ↦ ?_,
    fun r hr ↦ hforce r hr ▸ hcounted, hsentenced, fun r hr hdead ↦ ?_, ?_⟩
  · rw [hforce r hr, hhistory, List.mem_cons, not_or]
    exact ⟨nofun, h.kept refresh hrefresh⟩
  · rw [hforce r hr] at hdead
    by_contra hnot
    have hlt := hsentenced (Bool.eq_false_iff.mpr hnot)
    rw [hhistory] at hdead
    generalize hevent : Event.answered refresh (.error e) = event at hdead
    cases hdead with
    | rejected earlier hstreak =>
      rw [← hevent, ← hhistory] at hstreak
      exact absurd hcounted (by omega)
    | later _ _ hdead _ => exact halive hdead
  · rw [hhistory]
    exact h.presented.cons nofun

/-- What a successful reply puts in force is usable with the record of what it replaces, if it was
before: a token does not replace itself. -/
theorem usable_replaces {tokens : Tokens} {refresh : String} {history : List Event}
    (hforce : tokens.refresh.or c.state.refresh = some refresh) (h : Usable refresh history) :
    Usable refresh (c.replaces tokens ++ history) := by
  unfold replaces
  split
  · rename_i hrotates
    match hold : c.state.refresh with
    | none => exact h
    | some old =>
      refine h.cons nofun fun heq ↦ ?_
      cases heq
      match hnew : tokens.refresh with
      | none =>
        rw [State.rotates, hnew] at hrotates
        exact Bool.false_ne_true hrotates
      | some new =>
        rw [hnew, Option.some_or] at hforce
        cases hforce
        simp [State.rotates, hnew, hold] at hrotates
  · exact h

theorem not_posted_of_mem_replaces {tokens : Tokens} {e : Event} (h : e ∈ c.replaces tokens)
    (refresh : String) : e ≠ .posted refresh := by
  unfold replaces at h
  split at h
  · obtain ⟨old, -, rfl⟩ := List.mem_map.mp h
    exact nofun
  · exact absurd h List.not_mem_nil

variable [DecidableEq T]

/-- A thread that goes on without the lock. -/
theorem Minded.goOn (h : c.Minded) {thread : Thread} (hthread : ¬ thread.Holds) :
    (c.set t thread).Minded := by
  refine ⟨h.locked.set hthread rfl rfl, fun u refresh hspends ↦ ?_, h.kept, h.counted, h.sentenced,
    h.dead, h.presented⟩
  by_cases hut : u = t
  · subst hut
    rw [set_threads_self] at hspends
    exact absurd hspends.holds hthread
  · rw [set_threads_ne hut] at hspends
    exact h.spending u refresh hspends

theorem Minded.settled (h : c.Minded) {waited : List Outcome} {refresh : String}
    {now attempt finish : ℕ} {outcome : Outcome} {saved : Option ErrorKind}
    (hthread : c.threads t = .answered waited refresh now attempt outcome)
    (hcond : c.Fitting (.settle t finish saved))
    (hlocked : (c.settle t waited refresh now attempt outcome finish saved).Locked) :
    (c.settle t waited refresh now attempt outcome finish saved).Minded := by
  have hspends : (c.threads t).Spends refresh := by
    rw [hthread]
    rfl
  obtain ⟨hrefresh, hrejected⟩ := h.spending t refresh hspends
  cases outcome with
  | error e => exact h.refuse hspends hlocked rfl rfl rfl
  | ok tokens =>
    have hhistory : (c.settle t waited refresh now attempt (.ok tokens) finish saved).history
        = (c.replaces tokens ++ [.answered refresh (.ok tokens)]) ++ c.history := rfl
    refine h.putInForce hlocked rfl hhistory (fun e he r ↦ ?_) (State.granted_rejections ..) ?_
    · rcases List.mem_append.mp he with he | he
      · exact not_posted_of_mem_replaces he r
      · rw [List.mem_singleton.mp he]
        exact nofun
    · intro r hr
      have hforce : tokens.refresh.or c.state.refresh = some r :=
        (State.granted_refresh ..).symm.trans hr
      have hne : Event.answered refresh (.ok tokens) ≠ refused r := by
        intro heq
        cases heq
      rw [hhistory, List.append_assoc]
      refine usable_replaces hforce ?_
      by_cases hkept : c.state.refresh = some r
      · -- The token that was presented is still in force, and was not dead when it was.
        have halive : ¬ Dead r c.history := by
          intro hdead
          exact absurd (hrejected.symm.trans (h.dead r hkept hdead)) Bool.false_ne_true
        refine ⟨⟨?_, fun hdead ↦ halive (hdead.of_cons hne)⟩, streak_answered hne⟩
        rw [List.singleton_append, List.mem_cons, not_or]
        exact ⟨nofun, h.kept r hkept⟩
      · match hnew : tokens.refresh with
        | none =>
          rw [hnew, Option.none_or] at hforce
          exact absurd hforce hkept
        | some new =>
          rw [hnew, Option.some_or] at hforce
          cases hforce
          exact hcond.rotated t _ _ _ _ _ _ tokens r rfl hthread hnew hkept

theorem Minded.adopt (h : c.Minded) {stored : Bool} {refresh : String}
    (hfree : c.owner = none) (hlocked : (c.adopt t stored refresh).Locked)
    (husable : Usable refresh c.history) : (c.adopt t stored refresh).Minded := by
  have hhistory : (c.adopt t stored refresh).history
      = [if stored then .resumed refresh else .supplied refresh] ++ c.history := rfl
  refine h.putInForce hlocked hfree hhistory (fun e he r ↦ ?_) rfl fun r hr ↦ ?_
  · rw [List.mem_singleton.mp he]
    split <;> exact nofun
  · cases hr
    rw [hhistory, List.singleton_append]
    split <;> exact husable.cons nofun nofun

theorem Minded.complete (h : c.Minded) {tokens : Tokens} {finish : ℕ} {saved : Option ErrorKind}
    (hfree : c.owner = none) (hlocked : (c.complete t tokens finish saved).Locked)
    (husable : ∀ refresh, tokens.refresh.or c.state.refresh = some refresh →
      Usable refresh c.history) : (c.complete t tokens finish saved).Minded := by
  have hhistory : (c.complete t tokens finish saved).history
      = (c.replaces tokens ++ tokens.refresh.toList.map .supplied) ++ c.history := rfl
  refine h.putInForce hlocked hfree hhistory (fun e he r ↦ ?_) (State.granted_rejections ..)
    fun r hr ↦ ?_
  · rcases List.mem_append.mp he with he | he
    · exact not_posted_of_mem_replaces he r
    · obtain ⟨new, -, rfl⟩ := List.mem_map.mp he
      exact nofun
  · have hforce : tokens.refresh.or c.state.refresh = some r :=
      (State.granted_refresh ..).symm.trans hr
    rw [hhistory, List.append_assoc]
    refine usable_replaces hforce ?_
    match tokens.refresh with
    | none => exact husable r hforce
    | some new => exact (husable r hforce).cons nofun nofun

theorem Minded.moved (h : c.Minded) {a : Act T} (hcond : c.Fitting a) (hmoved : Moved c a c') :
    c'.Minded := by
  have hlocked : c'.Locked := h.locked.moved hmoved
  cases hmoved with
  | read t call hthread => exact h.goOn id
  | served t call arrived now then' result hfree hthread hserved => exact h.goOn id
  | refused t call arrived now then' e hfree hthread hserved hpost => exact h.goOn id
  | posted t call arrived now then' refresh hfree hthread hserved hpost =>
    obtain ⟨hrefresh, hrejected⟩ := State.mayPost_eq_ok hpost
    have hpresentable : Presentable refresh c.history := by
      refine ⟨h.kept refresh hrefresh, fun hdead ↦ ?_⟩
      exact absurd (hrejected.symm.trans (h.dead refresh hrefresh hdead)) Bool.false_ne_true
    refine ⟨hlocked, fun u r hspends ↦ ?_, fun r hr ↦ ?_, fun r hr ↦ ?_, h.sentenced,
      fun r hr hdead ↦ h.dead r hr (hdead.of_cons nofun), h.presented.post hpresentable⟩
    · by_cases hut : u = t
      · subst hut
        change ((c.set u _).threads u).Spends r at hspends
        rw [set_threads_self] at hspends
        cases hspends
        exact ⟨hrefresh, hrejected⟩
      · change ((c.set t _).threads u).Spends r at hspends
        rw [set_threads_ne hut] at hspends
        exact h.spending u r hspends
    · rw [List.mem_cons, not_or]
      exact ⟨nofun, h.kept r hr⟩
    · have hstreak : streak r (.posted refresh :: c.history) = streak r c.history :=
        streak_cons_of_not_answered nofun
      rw [hstreak]
      exact h.counted r hr
  | answered t waited refresh now reply hthread =>
    refine ⟨hlocked, fun u r hspends ↦ ?_, h.kept, h.counted, h.sentenced, h.dead, h.presented⟩
    change ((c.set t _).threads u).Spends r at hspends
    by_cases hut : u = t
    · subst hut
      rw [set_threads_self] at hspends
      refine h.spending u r ?_
      rw [hthread]
      exact hspends
    · rw [set_threads_ne hut] at hspends
      exact h.spending u r hspends
  | settled t waited refresh now attempt outcome finish saved hthread =>
    exact h.settled hthread hcond hlocked
  | left t waited result hthread => exact h.goOn id
  | signingIn t refresh hthread => exact h.goOn id
  | resuming t refresh hthread => exact h.goOn id
  | preflighting t refresh hsigned hthread => exact h.goOn id
  | redeemed t reply tokens hthread => exact h.goOn id
  | adopted t stored refresh hfree hthread =>
    exact h.adopt hfree hlocked (hcond.adopted t stored refresh rfl hthread)
  | completed t tokens finish saved hfree hthread =>
    exact h.complete hfree hlocked fun refresh hforce ↦
      hcond.completed t finish saved tokens refresh rfl hthread hforce

/-- In every run in which whatever is put in force is usable then, no token that a successful reply
replaced is presented again, and none that is dead. -/
theorem presents_no_spent_no_dead (hrun : Run Fitting new c) :
    (∀ refresh earlier, .posted refresh :: earlier <:+ c.history → .replaced refresh ∉ earlier)
      ∧ ∀ refresh earlier, .posted refresh :: earlier <:+ c.history → ¬ Dead refresh earlier := by
  have hminded : c.Minded :=
    hrun.invariant (fun _ _ _ h hcond hmoved ↦ h.moved hcond hmoved) Minded.new
  exact ⟨fun refresh earlier hsuffix ↦ (hminded.presented refresh earlier hsuffix).1,
    fun refresh earlier hsuffix ↦ (hminded.presented refresh earlier hsuffix).2⟩

/-- A reply that rotates the credential. -/
def rotation (refresh : String) : TokenReply :=
  ⟨200, some [("access_token", .string "A"), ("expires_in", .number (some 0)),
    ("refresh_token", .string refresh)]⟩

/-- After a rotation the new token is presented. -/
theorem presents_rotated : ∃ c : TokenCache Unit,
    c.history = [.posted "S", .replaced "R", .answered "R" (.ok ⟨"A", 0, some "S"⟩), .posted "R",
      .supplied "R"]
    ∧ (∀ refresh earlier, .posted refresh :: earlier <:+ c.history → .replaced refresh ∉ earlier)
      ∧ ∀ refresh earlier, .posted refresh :: earlier <:+ c.history → ¬ Dead refresh earlier := by
  have husable : Usable "R" [] := ⟨⟨List.not_mem_nil, not_dead_nil⟩, rfl⟩
  have hrotated :
      Usable "S" [.answered "R" (.ok ⟨"A", 0, some "S"⟩), .posted "R", .supplied "R"] := by
    refine ⟨⟨by decide, fun hdead ↦ ?_⟩, rfl⟩
    exact absurd hdead.refused_mem (by decide)
  have hrun : ∃ c : TokenCache Unit, Run Fitting new c
      ∧ c.history = [.posted "S", .replaced "R", .answered "R" (.ok ⟨"A", 0, some "S"⟩),
        .posted "R", .supplied "R"] := by
    refine ⟨_, .head ⟨.signInWith () "R", ⟨nofun, nofun, nofun⟩, rfl⟩ <|
      .head ⟨.adopt (), ⟨nofun, ?_, nofun⟩, rfl⟩ <|
      .head ⟨.read () .token, ⟨nofun, nofun, nofun⟩, rfl⟩ <|
      .head ⟨.enter () 0 0, ⟨nofun, nofun, nofun⟩, rfl⟩ <|
      .head ⟨.answer () (.ok (rotation "S")), ⟨nofun, nofun, nofun⟩, rfl⟩ <|
      .head ⟨.settle () 0 none, ⟨?_, nofun, nofun⟩, rfl⟩ <|
      .head ⟨.leave (), ⟨nofun, nofun, nofun⟩, rfl⟩ <|
      .head ⟨.read () .token, ⟨nofun, nofun, nofun⟩, rfl⟩ <|
      .single ⟨.enter () 0 0, ⟨nofun, nofun, nofun⟩, rfl⟩, rfl⟩
    · intro t stored refresh ha hthread
      cases ha
      cases hthread
      exact husable
    · intro t finish saved waited refresh now attempt tokens new ha hthread hnew _
      cases ha
      cases hthread
      cases hnew
      exact hrotated
  obtain ⟨c, hrun, hhistory⟩ := hrun
  exact ⟨c, hhistory, presents_no_spent_no_dead hrun⟩

/-- A run that is written out, by what it leaves in the history. -/
theorem run_of_history {acts : List (Act Unit)} {history : List Event}
    (h : (acts.foldlM next new).map TokenCache.history = some history) :
    ∃ c : TokenCache Unit, Run Any new c ∧ c.history = history := by
  obtain ⟨c, hacts, hhistory⟩ := Option.map_eq_some_iff.mp h
  exact ⟨c, run_foldlM (fun _ _ _ ↦ trivial) hacts, hhistory⟩

/-- One call of `token`, at a time, with this reply. -/
def attempt (now : ℕ) (reply : TokenReply) (saved : Option ErrorKind) : List (Act Unit) :=
  [.read () .token, .enter () now now, .answer () (.ok reply), .settle () now saved, .leave ()]

def refusal : TokenReply := ⟨400, some [("error", .string "invalid_grant")]⟩

/-- The store cannot be written when the token is replaced, and is read back later. -/
def staleStore : List (Act Unit) :=
  [.signInWith () "R", .adopt ()] ++ attempt 0 (rotation "S") (some .permissionDenied)
    ++ [.resume () "R", .adopt (), .read () .token, .enter () 0 0]

/-- The token is refused three times, and the check before the next start reads it back. -/
def rejectedStore : List (Act Unit) :=
  [.signInWith () "R", .adopt ()] ++ attempt 0 refusal none ++ attempt 0 refusal none
    ++ attempt refreshBackoffStep refusal none
    ++ [.preflight () "R", .adopt (), .read () .token, .enter () 0 0]

/-- What the store gives back is presented, whether it was replaced or refused three times. -/
theorem presents_spent_and_dead :
    (¬ ∀ c : TokenCache Unit, Run Any new c →
      ∀ refresh earlier, .posted refresh :: earlier <:+ c.history → .replaced refresh ∉ earlier)
      ∧ ¬ ∀ c : TokenCache Unit, Run Any new c →
        ∀ refresh earlier, .posted refresh :: earlier <:+ c.history → ¬ Dead refresh earlier := by
  constructor
  · intro h
    have hhistory : (staleStore.foldlM next new).map TokenCache.history
        = some [.posted "R", .resumed "R", .replaced "R",
          .answered "R" (.ok ⟨"A", 0, some "S"⟩), .posted "R", .supplied "R"] := by decide +kernel
    obtain ⟨c, hrun, hc⟩ := run_of_history hhistory
    have hspent := h c hrun
    rw [hc] at hspent
    exact hspent "R" _ List.suffix_rfl (by decide)
  · intro h
    have hhistory : (rejectedStore.foldlM next new).map TokenCache.history
        = some [.posted "R", .resumed "R", refused "R", .posted "R", refused "R", .posted "R",
          refused "R", .posted "R", .supplied "R"] := by decide +kernel
    obtain ⟨c, hrun, hc⟩ := run_of_history hhistory
    have hdead := h c hrun
    rw [hc] at hdead
    exact hdead "R" _ List.suffix_rfl (.later _ _ (.rejected _ (by decide)) nofun)

end TokenCache

end HydrationAPI.Graph.Auth
