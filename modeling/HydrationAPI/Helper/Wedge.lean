import HydrationAPI.Helper.Transfer

/-!
# Judging the fetcher

The worker counts the transfers that it had to give up, in three counters, and takes the fetcher for
wedged when one of them has reached its threshold. What resets them is any sign of life: the first
byte of a transfer, its end, or a late message of one that was given up on before.

What is counted since the last transfer that came to its end is at least what the counters say, so
that a verdict always has as many failures behind it as it takes. The other direction depends on
what the transfers that are given up have delivered before.
-/

namespace HydrationAPI

/-! ## What becomes of transfers -/

/-- What became of a transfer that was begun. -/
inductive Ended where
  /-- No first byte in time, stalled, or past the total. -/
  | givenUp
  /-- The fetcher said that it was done. -/
  | completed
  | lost
  | refused
  deriving DecidableEq

/-- What became of a transfer, by what was returned for it. -/
def Ended.of {α : Type*} : Except TransferError α → Ended
  | .ok _ | .error (.short ..) => .completed
  | .error .noFirstByte | .error (.stalled ..) | .error (.tooLong ..) => .givenUp
  | .error (.provider e) => if isConnectionLost e then .lost else .refused
  | .error .unresponsive | .error .gone => .refused

@[simp] theorem Ended.of_map {α β : Type*} (f : α → β) (r : Except TransferError α) :
    Ended.of (r.map f) = Ended.of r := by
  match r with
  | .ok _ => rfl
  | .error e =>
    match e with
    | .short .. | .noFirstByte | .stalled .. | .tooLong .. | .unresponsive | .gone
    | .provider _ => rfl

/-- How many failures there are since a completion, when there were `n` before this one ended. -/
def Ended.count : Ended → ℕ → ℕ
  | givenUp, n | lost, n => n + 1
  | completed, _ => 0
  | refused, n => n

/-- How many transfers failed by timeout or with a lost connection since the last that completed, of
a history with the latest first. -/
def failuresSince (history : List Ended) : ℕ :=
  (history.takeWhile (· ≠ .completed)).countP fun e ↦ e = .givenUp ∨ e = .lost

/-- How many of the latest transfers in a row had to be given up. -/
def givenUpInARow (history : List Ended) : ℕ := (history.takeWhile (· = .givenUp)).length

@[simp] theorem failuresSince_cons (e : Ended) (history : List Ended) :
    failuresSince (e :: history) = e.count (failuresSince history) := by
  match e with
  | .givenUp | .lost | .completed | .refused => simp [failuresSince, Ended.count]

@[simp] theorem givenUpInARow_cons (e : Ended) (history : List Ended) :
    givenUpInARow (e :: history) = if e = .givenUp then givenUpInARow history + 1 else 0 := by
  by_cases he : e = .givenUp <;> simp [givenUpInARow, he]

/-- A transfer that is asked for, and what becomes of it. -/
structure Asked (V : Type*) where
  id : FileId
  size : ℕ
  span : Span
  attempt : Attempt V

/-- The counters, and what became of the transfers so far, the latest first. -/
structure Judge where
  timed : Timed
  history : List Ended

namespace Judge

variable {V : Type*}

def new : Judge := ⟨.new, []⟩

/-- One transfer; it is part of the history if it was begun. -/
def step (j : Judge) (c : Asked V) : Judge :=
  let ran := j.timed.run c.id c.size c.span c.attempt
  ⟨ran.timed, if ran.sent then Ended.of ran.result :: j.history else j.history⟩

def after (calls : List (Asked V)) : Judge := calls.foldl step new

/-- As many transfers in a row as it takes had to be given up, and none completed in between. -/
def Unanswered (j : Judge) : Prop := Timed.wedgedAfter ≤ givenUpInARow j.history

instance (j : Judge) : Decidable j.Unanswered := inferInstanceAs (Decidable (_ ≤ _))

/-- What a verdict needs to be true. -/
def Founded (j : Judge) : Prop := j.timed.wedged = true → Timed.wedgedAfter ≤ failuresSince j.history

/-- When there has to be a verdict. -/
def Decided (j : Judge) : Prop := j.Unanswered → j.timed.wedged = true

end Judge

/-! ## A verdict is founded -/

namespace Timed

/-- Everything that is counted. -/
def failures (t : Timed) : ℕ := t.missed + t.abandoned + t.lost

theorem failures_of_wedged {t : Timed} (h : t.wedged = true) : wedgedAfter ≤ t.failures := by
  simp only [wedged, Bool.or_eq_true, decide_eq_true_eq] at h
  rw [failures]
  omega

end Timed

theorem Ended.count_mono (e : Ended) {m n : ℕ} (h : m ≤ n) : e.count m ≤ e.count n := by
  match e with
  | givenUp | lost => exact Nat.succ_le_succ h
  | completed => exact le_rfl
  | refused => exact h

/-- Whatever the waiting ends with, no more is counted than that. -/
theorem failures_listen (span : Span) (waits : List Wait) (steps : List Step) (t : Timed)
    (moved : ℕ) : (listen span t moved waits steps).timed.failures
      ≤ (Ended.of (listen span t moved waits steps).result).count t.failures := by
  induction waits generalizing steps t moved with
  | nil => simp [listen, Ended.of, Ended.count, Timed.failures, Timed.abandonedOne]; omega
  | cons wait waits ih =>
    cases wait with
    | total => simp [listen, Ended.of, Ended.count, Timed.failures, Timed.abandonedOne]; omega
    | deadline =>
      rw [listen]
      split
      · simp [Ended.of, Ended.count, Timed.failures, Timed.missedOne]
        omega
      · simp [Ended.of, Ended.count, Timed.failures, Timed.abandonedOne]
        omega
    | stale => exact ih _ _ _
    | timeout => exact ih _ _ _
    | disconnected => exact le_rfl
    | own =>
      rcases steps with _ | ⟨_ | _ | e, steps⟩
      · exact ih _ _ _
      · rw [listen]
        split
        · -- the first byte is a sign of life, and there is only less to count
          refine (ih _ _ _).trans (Ended.count_mono _ ?_)
          split
          · exact Nat.zero_le _
          · exact le_rfl
        · exact ih _ _ _
      · rw [listen]
        split <;> exact Nat.zero_le _
      · rw [listen]
        dsimp only [Ended.of]
        split
        · simp [Ended.count, Timed.failures, Timed.lostOne]
          omega
        · split
          · exact Nat.zero_le _
          · exact le_rfl

namespace Timed

variable {V : Type*} {t : Timed} {c : Asked V}

/-- The counters after a transfer, by whether it was begun. -/
def Counts (t : Timed) (r : Ran) : Prop :=
  r.timed.failures ≤ if r.sent then (Ended.of r.result).count t.failures else t.failures

theorem counts_send : t.Counts (t.send c.id c.size c.span c.attempt) := by
  rw [send, Counts]
  dsimp only
  split
  · exact le_rfl
  · rw [if_pos rfl, Ended.of_map]
    exact failures_listen c.span c.attempt.waits _ _ _

theorem counts_run : t.Counts (t.run c.id c.size c.span c.attempt) := by
  rw [run]
  split
  · exact le_rfl
  · split
    · split
      · refine counts_send.trans ?_
        split
        · exact Ended.count_mono _ (Nat.zero_le _)
        · exact Nat.zero_le _
      · exact le_rfl
    · exact counts_send

end Timed

namespace Judge

variable {V : Type*} {j : Judge} {c : Asked V}

theorem failures_step (h : j.timed.failures ≤ failuresSince j.history) :
    (j.step c).timed.failures ≤ failuresSince (j.step c).history := by
  refine Timed.counts_run.trans ?_
  rw [step]
  dsimp only
  split
  · rw [failuresSince_cons]
    exact Ended.count_mono _ h
  · exact h

/-- In every run, a fetcher that is taken for wedged has failed often enough since a transfer last
completed. -/
theorem founded_after (calls : List (Asked V)) : (after calls).Founded := by
  have hfailures : (after calls).timed.failures ≤ failuresSince (after calls).history := by
    induction calls using List.reverseRecOn with
    | nil => exact le_rfl
    | append_singleton calls c ih =>
      rw [after, List.foldl_concat]
      exact failures_step ih
  exact fun hwedged ↦ (Timed.failures_of_wedged hwedged).trans hfailures

end Judge

/-! ## When there is a verdict -/

/-- Nothing at all is heard of a transfer before its first byte is overdue. -/
def isSilent : List Wait → List Step → Bool
  | .deadline :: _, _ => true
  | .stale :: waits, steps | .timeout :: waits, steps => isSilent waits steps
  | .own :: waits, [] => isSilent waits []
  | .own :: waits, .progress 0 :: steps => isSilent waits steps
  | _, _ => false

/-- A transfer is waited for until its end is heard of, or nothing can be. -/
def isHeardOut : List Wait → List Step → Bool
  | .disconnected :: _, _ => true
  | .own :: _, .done :: _ | .own :: _, .failed _ :: _ => true
  | .own :: waits, .progress _ :: steps => isHeardOut waits steps
  | .own :: waits, [] => isHeardOut waits []
  | .stale :: waits, steps | .timeout :: waits, steps => isHeardOut waits steps
  | .total :: _, _ | .deadline :: _, _ | [], _ => false

theorem listen_of_isSilent {span : Span} {t : Timed} {waits : List Wait} {steps : List Step}
    (h : isSilent waits steps = true) :
    listen span t 0 waits steps = ⟨.error .noFirstByte, t.missedOne, false⟩ := by
  induction waits generalizing steps with
  | nil => exact absurd h Bool.false_ne_true
  | cons wait waits ih =>
    match wait, steps with
    | .deadline, _ => rfl
    | .stale, steps | .timeout, steps | .own, [] => exact ih h
    | .own, .progress 0 :: steps =>
      rw [listen, if_neg (lt_irrefl 0)]
      exact ih h

theorem of_listen_of_isHeardOut {span : Span} {t : Timed} {moved : ℕ} {waits : List Wait}
    {steps : List Step} (h : isHeardOut waits steps = true) :
    Ended.of (listen span t moved waits steps).result ≠ .givenUp := by
  induction waits generalizing t moved steps with
  | nil => exact absurd h Bool.false_ne_true
  | cons wait waits ih =>
    match wait, steps with
    | .disconnected, _ => exact Ended.noConfusion
    | .stale, steps | .timeout, steps | .own, [] => exact ih h
    | .own, .progress total :: steps =>
      rw [listen]
      split <;> exact ih h
    | .own, .done :: _ =>
      rw [listen]
      split <;> exact Ended.noConfusion
    | .own, .failed e :: _ =>
      rw [listen]
      dsimp only [Ended.of]
      split <;> exact Ended.noConfusion

namespace Judge

variable {V : Type*} {j : Judge} {c : Asked V}

/-- Nothing is heard of a transfer that is given up on, before or after. -/
structure Plain (j : Judge) (c : Asked V) : Prop where
  late : j.timed.expensiveToProbe = true → c.attempt.heard = false
  silent : isSilent c.attempt.waits (c.attempt.deliver c.id c.size c.span).steps = true
    ∨ isHeardOut c.attempt.waits (c.attempt.deliver c.id c.size c.span).steps = true

/-- What was given up on in a row has been counted as missed. -/
def Missed (j : Judge) : Prop := givenUpInARow j.history ≤ j.timed.missed

theorem missed_step (h : j.Missed) (hplain : j.Plain c) : (j.step c).Missed := by
  have hsend : ∀ ran, ran = j.timed.send c.id c.size c.span c.attempt →
      (Judge.mk ran.timed (if ran.sent then Ended.of ran.result :: j.history
        else j.history)).Missed := by
    rintro ran rfl
    rw [Timed.send, Missed]
    dsimp only
    split
    · exact h
    · rw [if_pos rfl, Ended.of_map, givenUpInARow_cons]
      rcases hplain.silent with hsilent | hheard
      · rw [listen_of_isSilent hsilent]
        exact Nat.succ_le_succ h
      · rw [if_neg (of_listen_of_isHeardOut hheard)]
        exact Nat.zero_le _
  rw [step, Timed.run]
  split
  · exact h
  · split
    · rename_i hexpensive
      rw [hplain.late hexpensive]
      exact h
    · exact hsend _ rfl

theorem missed_after (calls : List (Asked V))
    (hplain : ∀ done c, done ++ [c] <+: calls → (after done).Plain c) : (after calls).Missed := by
  induction calls using List.reverseRecOn with
  | nil => exact le_rfl
  | append_singleton calls c ih =>
    rw [after, List.foldl_concat]
    exact missed_step (ih fun done c hbegins ↦ hplain done c (hbegins.trans (List.prefix_append _ _)))
      (hplain calls c (List.prefix_refl _))

/-- **The fetcher is judged as its transfers ended.** In every run a verdict is founded; and in
every run in which a transfer that is given up on has not delivered a byte, and is not heard of
later, there is a verdict whenever the latest transfers had to be given up. -/
theorem judged (calls : List (Asked V)) :
    (∀ done, done <+: calls → (after done).Founded) ∧
      ((∀ done c, done ++ [c] <+: calls → (after done).Plain c) →
        ∀ done, done <+: calls → (after done).Decided) := by
  refine ⟨fun done _ ↦ founded_after done, fun hplain done hprefix hunanswered ↦ ?_⟩
  have hmissed := missed_after done fun d c h ↦ hplain d c (h.trans hprefix)
  simp [Timed.wedged, hunanswered.trans hmissed]

/-- A transfer that reports these totals, and how it is waited for. -/
def sampleAsked (ticks : List ℕ) (waits : List Wait) : Asked Unit :=
  ⟨⟨1, 7⟩, 8, ⟨0, 8⟩, ⟨none, false, false, fun _ _ _ ↦ ⟨[], ticks, .error ⟨.other, none, ""⟩,
    fun _ h ↦ absurd h List.not_mem_nil, fun h ↦ absurd h (by simp)⟩, waits, 0⟩⟩

/-- A fetcher that says nothing at all. -/
def mute : List (Asked Unit) := List.replicate 3 (sampleAsked [] [.timeout, .deadline])

theorem plain_of_mute : ∀ done c, done ++ [c] <+: mute → (after done).Plain c := by
  intro done c hbegins
  have hc : c = sampleAsked [] [.timeout, .deadline] :=
    List.eq_of_mem_replicate (hbegins.subset (List.mem_append_right done List.mem_cons_self))
  subst hc
  exact ⟨fun _ ↦ rfl, Or.inl rfl⟩

theorem mute_judged : (after mute).Founded ∧ (after mute).timed.wedged = true :=
  ⟨(judged mute).1 mute (List.prefix_refl _),
    (judged mute).2 plain_of_mute mute (List.prefix_refl _) (by decide)⟩

/-- Three transfers in a row each deliver one byte and stall, and the fetcher is not wedged. -/
theorem stalled_not_wedged : ¬ ∀ calls : List (Asked Unit), (after calls).Decided :=
  fun h ↦ absurd (h (List.replicate 3 (sampleAsked [1] [.own, .deadline])) (by decide)) (by decide)

end Judge

end HydrationAPI
