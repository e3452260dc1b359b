import HydrationAPI.Graph.Download

/-!
# Asking for the rest

The loop of a download by itself. An attempt is a closure that writes through a counter and then
says how it has ended; it is told how many bytes are there, and is made again as long as that is no
use waiting for. What it writes, what the destination makes of it and how it ends are its own
affair, and none of them depends on the others: all bytes can be there when it fails.

The counter lets no byte pass beyond the end. Progress is kept by the counter, and the end of an
attempt is what the closure says; the two are compared only when the closure says that it is
complete. So an attempt that fails after the last byte is made again, for nothing.
-/

namespace HydrationAPI.Graph

/-! ## The loop -/

/-- An attempt that was made, how many bytes were there before, and what it came to. -/
structure Asked where
  offset : ℕ
  copied : Copied Verdict

/-- The bytes that it passed on. -/
def Asked.delivered (a : Asked) : List UInt8 := a.copied.taken.flatten

/-- What the loop comes to: with the attempts, all bytes that were passed on, and the waits. -/
structure Resumed (σ : Type) where
  result : Except IoError Unit
  asked : List Asked
  taken : List (List UInt8)
  waits : List ℕ
  state : σ

/-- The wait would last longer than the read is held; both in seconds. -/
def throttling (wait slept : ℕ) : IoError :=
  ⟨.timedOut, none,
    s!"Graph is throttling this download: it asked for {wait}s before a retry, " ++
    s!"{slept}s have already been spent waiting, and a hydration read may only be " ++
    s!"held for {firstByteBudget}s"⟩

/-- `resume_copy`, for a closure that keeps a state. A second is so many ticks of the clock. -/
def resume {σ : Type} (second expected : ℕ) (attempt : ℕ → ℕ → σ → Copied Verdict × σ) :
    ℕ → ℕ → ℕ → σ → List (List UInt8) → Resumed σ
  | left, k, slept, s, taken =>
    let (a, s) := attempt k taken.flatten.length s
    let asked : Asked := ⟨taken.flatten.length, a⟩
    let taken := taken ++ a.taken
    match settle expected taken.flatten.length a with
    | .inl result => ⟨result, [asked], taken, [], s⟩
    | .inr after =>
      let wait := after.getD (downloadBackoff * second)
      match left with
      | 0 => ⟨.error ⟨.timedOut, none, "Graph content download exhausted its retry budget"⟩,
          [asked], taken, [], s⟩
      | left + 1 =>
        if firstByteBudget * second ≤ slept + wait then
          ⟨.error (throttling (wait / second) (slept / second)), [asked], taken, [], s⟩
        else
          let rest := resume second expected attempt left (k + 1) (slept + wait) s taken
          { rest with asked := asked :: rest.asked, waits := wait :: rest.waits }

/-- What every attempt keeps to, the loop keeps to. -/
theorem resume_state {σ : Type} {ticks expected : ℕ} {attempt : ℕ → ℕ → σ → Copied Verdict × σ}
    {P : σ → Prop} (h : ∀ k written s, P s → P (attempt k written s).2) {left k slept : ℕ} {s : σ}
    {taken : List (List UInt8)} (hs : P s) :
    P (resume ticks expected attempt left k slept s taken).state := by
  induction left generalizing k slept s taken with
  | zero =>
    rw [resume]
    dsimp only
    split <;> exact h _ _ _ hs
  | succ left ih =>
    rw [resume]
    dsimp only
    split
    · exact h _ _ _ hs
    · split
      · exact h _ _ _ hs
      · exact ih (h _ _ _ hs)

/-- The loop depends on what the attempts do from here on. -/
theorem resume_congr {σ : Type} {ticks expected : ℕ}
    {attempt attempt' : ℕ → ℕ → σ → Copied Verdict × σ} {left k slept : ℕ} {s s' : σ}
    {taken : List (List UInt8)}
    (hfirst : attempt k taken.flatten.length s = attempt' k taken.flatten.length s')
    (hrest : ∀ j > k, attempt j = attempt' j) :
    resume ticks expected attempt left k slept s taken
      = resume ticks expected attempt' left k slept s' taken := by
  induction left generalizing k slept s s' taken with
  | zero => rw [resume, resume, hfirst]
  | succ left ih =>
    rw [resume, resume, hfirst]
    dsimp only
    split
    · rfl
    · split
      · rfl
      · rw [ih (congrFun (congrFun (hrest (k + 1) (Nat.lt_succ_self k)) _) _)
          fun j hj ↦ hrest j (Nat.lt_of_succ_lt hj)]

/-! ## Writing through the counter -/

/-- One write of a closure, and what the destination answers should the write get there: an error,
or how many of the bytes it takes. -/
structure Offer where
  bytes : List UInt8
  answer : Except IoError (Fin (bytes.length + 1))

/-- The counter of one attempt: what has passed it, and whether the destination has failed. -/
structure CountedWriter where
  taken : List (List UInt8)
  sinkFailed : Bool

/-- A write, `written` bytes having been there before the attempt. -/
def CountedWriter.write (expected written : ℕ) (w : CountedWriter) (o : Offer) : CountedWriter :=
  if expected < saturatingAdd (written + w.taken.flatten.length) o.bytes.length then w
  else match o.answer with
    | .error _ => { w with sinkFailed := true }
    | .ok count => { w with taken := w.taken ++ [o.bytes.take count] }

/-- Everything that an attempt does. -/
structure Outcome where
  offers : List Offer
  result : Except IoError Verdict

def Outcome.copied (expected written : ℕ) (o : Outcome) : Copied Verdict :=
  let w := o.offers.foldl (CountedWriter.write expected written) ⟨[], false⟩
  ⟨o.result, w.taken, w.sinkFailed⟩

/-- A second in nanoseconds. -/
def second : ℕ := 1000000000

/-- A download of `expected` bytes whose attempts come to these outcomes. -/
def resumeOutcomes (expected : ℕ) (outcomes : ℕ → Outcome) : Resumed Unit :=
  resume second expected (fun k written _ ↦ ((outcomes k).copied expected written, ()))
    maxDownloadRetries 0 0 () []

/-- What a resumed download is for. -/
structure Exact {σ : Type} (expected : ℕ) (r : Resumed σ) : Prop where
  /-- Every attempt is asked for what is missing, from where the ones before it have stopped, and
  something is missing. -/
  asks : ∀ before a after, r.asked = before ++ a :: after →
    a.offset = (before.map Asked.delivered).flatten.length ∧ a.offset < expected
  /-- The bytes are those of the attempts, one after the other. -/
  taken : r.taken.flatten = (r.asked.map Asked.delivered).flatten
  ok_iff : r.result = .ok () ↔ r.taken.flatten.length = expected
  within : r.taken.flatten.length ≤ expected
  attempts : r.asked.length ≤ 1 + maxDownloadRetries
  sleeps : r.waits.sum < firstByteBudget * second

/-! ## How far the attempts get -/

section

variable (expected : ℕ) (outcomes : ℕ → Outcome)

/-- What the first attempts pass on, if they are made. -/
def delivered : ℕ → List (List UInt8)
  | 0 => []
  | k + 1 => delivered k ++ ((outcomes k).copied expected (delivered k).flatten.length).taken

/-- What an attempt comes to, if it is made. -/
def ask (k : ℕ) : Asked :=
  ⟨(delivered expected outcomes k).flatten.length,
    (outcomes k).copied expected (delivered expected outcomes k).flatten.length⟩

/-- How long is waited after an attempt, if it is to be made again. -/
def waitAfter (k : ℕ) : Option ℕ :=
  match settle expected (delivered expected outcomes (k + 1)).flatten.length
      (ask expected outcomes k).copied with
  | .inl _ => none
  | .inr after => some (after.getD (downloadBackoff * second))

/-- How long is waited before an attempt, in all. -/
def sleptBefore : ℕ → ℕ
  | 0 => 0
  | k + 1 => sleptBefore k + (waitAfter expected outcomes k).getD 0

/-- The attempt is made: all before it are to be made again, and neither budget is at its end. -/
structure Reached (k : ℕ) : Prop where
  retries : k ≤ maxDownloadRetries
  again : ∀ j < k, waitAfter expected outcomes j ≠ none
  slept : sleptBefore expected outcomes k < firstByteBudget * second

end

/-- It ends well: the closure says that it is complete, and the destination has not failed. -/
def Completes (c : Copied Verdict) : Prop := c.broken = false ∧ c.result = .ok .copy

variable {expected written k : ℕ} {outcomes : ℕ → Outcome} {c : Copied Verdict}

theorem settle_eq_ok_iff :
    settle expected written c = .inl (.ok ()) ↔ written = expected ∧ Completes c := by
  constructor
  · intro h
    refine ⟨settle_ok h, settle_unbroken h, ?_⟩
    rw [settle, settle_unbroken h, if_neg Bool.false_ne_true] at h
    split at h
    · assumption
    · cases h
    · split at h <;> cases h
  · rintro ⟨rfl, hbroken, hresult⟩
    rw [settle, hbroken, if_neg Bool.false_ne_true, hresult]
    exact if_pos rfl

/-! ## The counter -/

/-- **No byte passes beyond the end.** -/
theorem length_write (hlen : expected < u64Max) {w : CountedWriter} (o : Offer)
    (h : written + w.taken.flatten.length ≤ expected) :
    written + (w.write expected written o).taken.flatten.length ≤ expected := by
  rw [CountedWriter.write]
  split
  · exact h
  · rename_i hfits
    split
    · exact h
    · rename_i count _
      have hcount : (o.bytes.take count).length ≤ o.bytes.length := List.length_take_le' _ _
      rw [saturatingAdd] at hfits
      simp only [List.flatten_append, List.flatten_singleton, List.length_append]
      omega

theorem length_copied (hlen : expected < u64Max) (o : Outcome) (h : written ≤ expected) :
    written + (o.copied expected written).taken.flatten.length ≤ expected := by
  have hfold : ∀ (offers : List Offer) (w : CountedWriter),
      written + w.taken.flatten.length ≤ expected →
        written + (offers.foldl (CountedWriter.write expected written) w).taken.flatten.length
          ≤ expected := by
    intro offers
    induction offers with
    | nil => exact fun _ h ↦ h
    | cons o offers ih => exact fun w h ↦ ih _ (length_write hlen o h)
  exact hfold o.offers ⟨[], false⟩ h

theorem length_delivered_le (hlen : expected < u64Max) :
    (delivered expected outcomes k).flatten.length ≤ expected := by
  induction k with
  | zero => exact Nat.zero_le _
  | succ k ih =>
    rw [delivered, List.flatten_append, List.length_append]
    exact length_copied hlen _ ih

theorem flatten_delivered : (delivered expected outcomes k).flatten
    = (((List.range k).map (ask expected outcomes)).map Asked.delivered).flatten := by
  induction k with
  | zero => rfl
  | succ k ih =>
    rw [List.range_succ, List.map_append, List.map_append, List.flatten_append, ← ih, delivered,
      List.flatten_append, List.map_singleton, List.map_singleton, List.flatten_singleton]
    rfl

/-! ## The attempts that are made -/

theorem Reached.zero : Reached expected outcomes 0 :=
  ⟨Nat.zero_le _, fun _ h ↦ absurd h (Nat.not_lt_zero _),
    show 0 < firstByteBudget * second by decide⟩

theorem Reached.mono {j : ℕ} (h : Reached expected outcomes k) (hj : j ≤ k) :
    Reached expected outcomes j := by
  have hslept : ∀ n, sleptBefore expected outcomes j ≤ sleptBefore expected outcomes (j + n) := by
    intro n
    induction n with
    | zero => exact Nat.le_refl _
    | succ n ih => exact ih.trans (Nat.le_add_right _ _)
  obtain ⟨n, rfl⟩ := Nat.exists_eq_add_of_le hj
  exact ⟨hj.trans h.retries, fun i hi ↦ h.again i (Nat.lt_of_lt_of_le hi hj),
    Nat.lt_of_le_of_lt (hslept n) h.slept⟩

/-- The run from an attempt on. -/
def resumeAt (expected : ℕ) (outcomes : ℕ → Outcome) (left k : ℕ) : Resumed Unit :=
  resume second expected (fun k written _ ↦ ((outcomes k).copied expected written, ())) left k
    (sleptBefore expected outcomes k) () (delivered expected outcomes k)

/-- It ends with this attempt. -/
structure EndsAt (expected : ℕ) (outcomes : ℕ → Outcome) (k n : ℕ) (r : Resumed Unit) : Prop where
  reached : Reached expected outcomes (k + n)
  last : ¬ Reached expected outcomes (k + n + 1)
  asked : r.asked = (List.range' k (n + 1)).map (ask expected outcomes)
  taken : r.taken = delivered expected outcomes (k + n + 1)
  waits : sleptBefore expected outcomes k + r.waits.sum = sleptBefore expected outcomes (k + n)
  result : r.result = .ok ()
    ↔ settle expected (delivered expected outcomes (k + n + 1)).flatten.length
      (ask expected outcomes (k + n)).copied = .inl (.ok ())

theorem waitAfter_eq_some {after : Option ℕ}
    (h : settle expected (delivered expected outcomes (k + 1)).flatten.length
      (ask expected outcomes k).copied = .inr after) :
    waitAfter expected outcomes k = some (after.getD (downloadBackoff * second)) := by
  rw [waitAfter, h]

theorem Reached.not_succ {result : Except IoError Unit}
    (h : settle expected (delivered expected outcomes (k + 1)).flatten.length
      (ask expected outcomes k).copied = .inl result) : ¬ Reached expected outcomes (k + 1) :=
  fun hnext ↦ hnext.again k (Nat.lt_succ_self k) (by rw [waitAfter, h])

/-- An attempt that is not made again is the last. -/
theorem EndsAt.of_last {r : Resumed Unit} (hk : Reached expected outcomes k)
    (hlast : ¬ Reached expected outcomes (k + 1)) (hasked : r.asked = [ask expected outcomes k])
    (htaken : r.taken = delivered expected outcomes (k + 1)) (hwaits : r.waits = [])
    (hresult : r.result = .ok ()
      ↔ settle expected (delivered expected outcomes (k + 1)).flatten.length
        (ask expected outcomes k).copied = .inl (.ok ())) : EndsAt expected outcomes k 0 r :=
  ⟨hk, hlast, hasked, htaken, by rw [hwaits]; rfl, hresult⟩

/-- **What a run comes to.** The attempts are made up to one after which none is made any more. -/
theorem exists_endsAt {left : ℕ} (hleft : left + k = maxDownloadRetries)
    (hk : Reached expected outcomes k) :
    ∃ n, EndsAt expected outcomes k n (resumeAt expected outcomes left k) := by
  induction left generalizing k with
  | zero =>
    refine ⟨0, ?_⟩
    have hlast : ¬ Reached expected outcomes (k + 1) := fun hnext ↦ by
      have hretries := hnext.retries
      omega
    rw [resumeAt, resume]
    cases hsettle : settle expected (delivered expected outcomes (k + 1)).flatten.length
      (ask expected outcomes k).copied with
    | inl result =>
      rw [delivered, ask] at hsettle
      dsimp only
      rw [hsettle]
      refine .of_last hk hlast rfl rfl rfl ?_
      rw [delivered, ask, hsettle]
      exact ⟨fun h ↦ congrArg _ h, fun h ↦ Sum.inl.inj h⟩
    | inr after =>
      rw [delivered, ask] at hsettle
      dsimp only
      rw [hsettle]
      refine .of_last hk hlast rfl rfl rfl ?_
      rw [delivered, ask, hsettle]
      exact iff_of_false nofun nofun
  | succ left ih =>
    rw [resumeAt, resume]
    cases hsettle : settle expected (delivered expected outcomes (k + 1)).flatten.length
      (ask expected outcomes k).copied with
    | inl result =>
      refine ⟨0, ?_⟩
      have hlast := Reached.not_succ hsettle
      rw [delivered, ask] at hsettle
      dsimp only
      rw [hsettle]
      refine .of_last hk hlast rfl rfl rfl ?_
      rw [delivered, ask, hsettle]
      exact ⟨fun h ↦ congrArg _ h, fun h ↦ Sum.inl.inj h⟩
    | inr after =>
      have hwait := waitAfter_eq_some hsettle
      have hslept : sleptBefore expected outcomes (k + 1)
          = sleptBefore expected outcomes k + after.getD (downloadBackoff * second) := by
        rw [sleptBefore, hwait, Option.getD_some]
      rw [delivered, ask] at hsettle
      dsimp only
      rw [hsettle]
      dsimp only
      rw [← hslept]
      by_cases hlate : firstByteBudget * second ≤ sleptBefore expected outcomes (k + 1)
      · refine ⟨0, ?_⟩
        rw [if_pos hlate]
        refine .of_last hk (fun hnext ↦ absurd hnext.slept (Nat.not_lt.mpr hlate)) rfl rfl rfl ?_
        rw [delivered, ask, hsettle]
        exact iff_of_false nofun nofun
      · have hnext : Reached expected outcomes (k + 1) := by
          refine ⟨by omega, fun j hj ↦ ?_, Nat.lt_of_not_le hlate⟩
          rcases Nat.lt_succ_iff_lt_or_eq.mp hj with hj | rfl
          · exact hk.again j hj
          · rw [hwait]
            exact Option.some_ne_none _
        obtain ⟨n, hn⟩ := ih (by omega) hnext
        have hk' : k + 1 + n = k + (n + 1) := by omega
        refine ⟨n + 1, ?_⟩
        rw [if_neg hlate]
        refine ⟨hk' ▸ hn.reached, hk' ▸ hn.last, ?_, ?_, ?_, ?_⟩
        · dsimp only
          rw [List.range'_succ, List.map_cons, ← hn.asked]
          rfl
        · exact hk' ▸ hn.taken
        · dsimp only
          rw [List.sum_cons, ← Nat.add_assoc, ← hslept, ← hk']
          exact hn.waits
        · rw [← hk']
          exact hn.result

/-! ## What a resumed download is for -/

theorem Reached.le {n : ℕ} (hk : Reached expected outcomes k)
    (hlast : ¬ Reached expected outcomes (n + 1)) : k ≤ n :=
  Nat.le_of_not_lt fun hlt ↦ hlast (hk.mono hlt)

/-- Each attempt is asked for from where the ones before it have stopped. -/
theorem offset_of_asked {n : ℕ} {before after : List Asked} {a : Asked}
    (h : (List.range (n + 1)).map (ask expected outcomes) = before ++ a :: after) :
    ∃ k ≤ n, a = ask expected outcomes k
      ∧ (before.map Asked.delivered).flatten = (delivered expected outcomes k).flatten := by
  obtain ⟨ks, rest, hrange, rfl, hrest⟩ := List.map_eq_append_iff.mp h
  obtain ⟨k, js, rfl, rfl, rfl⟩ := List.map_eq_cons_iff.mp hrest
  have hk : ks = List.range k ∧ k ≤ n := by
    have hlength : ks.length < n + 1 := by
      have := congrArg List.length hrange
      simp only [List.length_range, List.length_append, List.length_cons] at this
      omega
    have hget := congrArg (fun l ↦ l[ks.length]?) hrange
    simp only [List.getElem?_range hlength, List.getElem?_append_right (Nat.le_refl _),
      Nat.sub_self, List.getElem?_cons_zero, Option.some_inj] at hget
    have htake := congrArg (List.take ks.length) hrange
    rw [List.take_left, List.take_range, Nat.min_eq_left hlength.le] at htake
    rw [← hget]
    exact ⟨htake.symm, by omega⟩
  obtain ⟨rfl, hk⟩ := hk
  exact ⟨k, hk, rfl, flatten_delivered.symm⟩

/-- **A resumed download is exact** exactly if the span is not empty and no attempt that is made
ends otherwise than complete once all bytes are there. -/
theorem exact_iff (expected : ℕ) (hlen : expected < u64Max) (outcomes : ℕ → Outcome) :
    Exact expected (resumeOutcomes expected outcomes)
      ↔ 0 < expected ∧ ∀ k, Reached expected outcomes k →
        (delivered expected outcomes (k + 1)).flatten.length = expected →
          Completes (ask expected outcomes k).copied := by
  obtain ⟨n, hn⟩ : ∃ n, EndsAt expected outcomes 0 n (resumeOutcomes expected outcomes) :=
    exists_endsAt (Nat.add_zero maxDownloadRetries) .zero
  have hasked := hn.asked
  have hresult := hn.result
  have hreached := hn.reached
  have hlast := hn.last
  rw [← List.range_eq_range'] at hasked
  rw [Nat.zero_add] at hresult hreached hlast
  rw [settle_eq_ok_iff] at hresult
  have htaken : (resumeOutcomes expected outcomes).taken = delivered expected outcomes (n + 1) := by
    rw [hn.taken, Nat.zero_add]
  constructor
  · intro h
    have hask : ∀ k ≤ n, (delivered expected outcomes k).flatten.length < expected := by
      intro k hk
      have hmem : ask expected outcomes k ∈ (resumeOutcomes expected outcomes).asked := by
        rw [hasked]
        exact List.mem_map_of_mem (List.mem_range.mpr (Nat.lt_succ_of_le hk))
      obtain ⟨before, after, hsplit⟩ := List.append_of_mem hmem
      exact (h.asks before _ after hsplit).2
    refine ⟨hask 0 (Nat.zero_le n), fun k hk hall ↦ ?_⟩
    rcases Nat.lt_or_eq_of_le (hk.le hlast) with hlt | rfl
    · -- another attempt was made, for nothing
      exact absurd hall (Nat.ne_of_lt (hask (k + 1) hlt))
    · exact (hresult.mp (h.ok_iff.mpr (htaken ▸ hall))).2
  · rintro ⟨hpos, hcomplete⟩
    refine ⟨fun before a after hsplit ↦ ?_, ?_, ?_, ?_, ?_, ?_⟩
    · obtain ⟨k, hk, rfl, hbefore⟩ := offset_of_asked (hasked ▸ hsplit)
      rw [hbefore]
      refine ⟨rfl, Nat.lt_of_le_of_ne (length_delivered_le hlen) fun hall ↦ ?_⟩
      cases k with
      | zero => exact absurd hall (Nat.ne_of_lt hpos)
      | succ k =>
        -- the attempt before it would have been the last
        have hdone := hcomplete k (hreached.mono (Nat.le_of_succ_le hk)) hall
        exact Reached.not_succ (settle_eq_ok_iff.mpr ⟨hall, hdone⟩) (hreached.mono hk)
    · rw [htaken, hasked, flatten_delivered]
    · rw [hresult, htaken]
      exact and_iff_left_of_imp (hcomplete n hreached)
    · rw [htaken]
      exact length_delivered_le hlen
    · rw [hasked, List.length_map, List.length_range]
      have := hreached.retries
      omega
    · have hwaits := hn.waits
      rw [Nat.zero_add, sleptBefore, Nat.zero_add] at hwaits
      rw [hwaits]
      exact hreached.slept

/-- A reset in the middle of three bytes, and then the rest of them. -/
def brokenOff : ℕ → Outcome
  | 0 => ⟨[⟨[1], .ok 1⟩], .error ⟨.connectionReset, none, ""⟩⟩
  | _ => ⟨[⟨[2, 3], .ok 2⟩], .ok .copy⟩

theorem exact_brokenOff : Exact 3 (resumeOutcomes 3 brokenOff) := by
  refine (exact_iff 3 (by decide) brokenOff).mpr ⟨by decide, fun k hk hall ↦ ?_⟩
  match k, hk with
  | 0, _ => exact absurd hall (by decide)
  | 1, _ => exact ⟨by decide, by decide⟩
  | k + 2, hk => exact absurd (by decide) (hk.again 1 (by omega))

/-- The connection is reset after the last byte, and then nothing is there to be asked for. -/
def resetAtEnd : ℕ → Outcome
  | 0 => ⟨[⟨[1], .ok 1⟩], .error ⟨.connectionReset, none, ""⟩⟩
  | _ => ⟨[], .error ⟨.invalidData, none, "Graph did not honor a content range; answered 416"⟩⟩

theorem asked_beyond_end : ¬ Exact 1 (resumeOutcomes 1 resetAtEnd)
    ∧ (resumeOutcomes 1 resetAtEnd).taken = [[1]]
    ∧ (resumeOutcomes 1 resetAtEnd).asked.map Asked.offset = [0, 1] := by
  refine ⟨fun h ↦ ?_, by decide, by decide⟩
  exact absurd (h.ok_iff.mpr (by decide)) (by decide)

/-! ## A download -/

/-- The attempts of a download are such a closure: it keeps the remembered locations, and what has
been passed on of which answer. -/
theorem resumeCopy_eq_resume {sink : Sink} {key : ObjectKey} {span : Span} {total : ℕ}
    {tries : ℕ → Try} (left k slept : ℕ) (l : ContentLocations) (taken : List (List UInt8))
    (sources : List Taken) :
    ∃ r, r = resume 1 span.len (fun k written s ↦
        let a := attempt sink key span total written s.1 (tries k)
        (a.copied, a.locations, s.2 ++ a.source.toList)) left k slept (l, sources) taken
      ∧ (resumeCopy sink key span total tries left k slept l taken).result = r.result
      ∧ (resumeCopy sink key span total tries left k slept l taken).taken = r.taken
      ∧ r.state = ((resumeCopy sink key span total tries left k slept l taken).locations,
        sources ++ (resumeCopy sink key span total tries left k slept l taken).sources) := by
  refine ⟨_, rfl, ?_⟩
  induction left generalizing k slept l taken sources with
  | zero =>
    rw [resumeCopy, resume]
    dsimp only
    generalize settle span.len _ _ = settled
    cases settled <;> exact ⟨rfl, rfl, rfl⟩
  | succ left ih =>
    rw [resumeCopy, resume]
    dsimp only
    generalize settle span.len _ _ = settled
    cases settled with
    | inl result => exact ⟨rfl, rfl, rfl⟩
    | inr after =>
      dsimp only
      rw [Nat.mul_one, Nat.mul_one, Nat.div_one, Nat.div_one]
      split
      · exact ⟨rfl, rfl, rfl⟩
      · obtain ⟨hresult, htaken, hstate⟩ := ih _ _ _ _ _
        refine ⟨hresult, htaken, ?_⟩
        dsimp only
        rw [hstate, List.append_assoc]

end HydrationAPI.Graph
