import HydrationAPI.Helper.Placeholder

/-!
# One transfer

The fetch thread carries out transfers one after the other, through descriptors of its own, and
reports on them over a channel. The worker waits for the report of the transfer it asked for and
for no longer than its limits allow; a transfer it gave up on keeps running.

The waiting is a loop, and what ends each turn of it is an argument: the clock, or a message. The
writes of a transfer that has been given up on stay queued in front of those of the next one, so
the last message of a transfer arrives after every write that was ever queued before it.
-/

namespace HydrationAPI

/-- The bytes `[offset, offset + len)` of the object, of one version of it, written at a time. -/
structure Chunk (V : Type*) where
  offset : ℕ
  len : ℕ
  version : V
  time : ℕ

/-- The chunk holds the byte at `x`. -/
def Chunk.Covers {V : Type*} (c : Chunk V) (x : ℕ) : Prop := c.offset ≤ x ∧ x < c.offset + c.len

instance {V : Type*} (c : Chunk V) (x : ℕ) : Decidable (c.Covers x) :=
  inferInstanceAs (Decidable (_ ∧ _))

/-- The version of the last of the chunks that covers the byte at `x`. -/
def lastAt {V : Type*} : List (Chunk V) → ℕ → Option V
  | [], _ => none
  | c :: cs, x => (lastAt cs x).or (if c.Covers x then some c.version else none)

theorem lastAt_append {V : Type*} (cs ds : List (Chunk V)) (x : ℕ) :
    lastAt (cs ++ ds) x = (lastAt ds x).or (lastAt cs x) := by
  induction cs with
  | nil => simp [lastAt]
  | cons c cs ih => rw [List.cons_append, lastAt, ih, lastAt, Option.or_assoc]

theorem exists_of_lastAt {V : Type*} {cs : List (Chunk V)} {x : ℕ} {v : V}
    (h : lastAt cs x = some v) : ∃ c ∈ cs, c.Covers x ∧ c.version = v := by
  induction cs with
  | nil => cases h
  | cons c cs ih =>
    rw [lastAt, Option.or_eq_some_iff] at h
    rcases h with h | ⟨-, h⟩
    · obtain ⟨d, hd, hx⟩ := ih h
      exact ⟨d, List.mem_cons_of_mem _ hd, hx⟩
    · split at h
      · rename_i hx
        exact ⟨c, List.mem_cons_self, hx, Option.some_inj.mp h⟩
      · cases h

theorem lastAt_isSome {V : Type*} {cs : List (Chunk V)} {x : ℕ}
    (h : ∃ c ∈ cs, c.Covers x) : ∃ v, lastAt cs x = some v := by
  rw [← Option.isSome_iff_exists]
  induction cs with
  | nil => simp at h
  | cons c cs ih =>
    rw [lastAt, Option.isSome_or, Bool.or_eq_true]
    obtain ⟨d, hd, hx⟩ := h
    rcases List.mem_cons.mp hd with rfl | hd
    · exact Or.inr (by rw [if_pos hx]; rfl)
    · exact Or.inl (ih ⟨d, hd, hx⟩)

/-- What a `Fetch` does with one span: the writes it makes, the totals it reports as it goes, and
how it ends. It writes inside its span; and one that ends well having reported as many bytes as
the span is long has written every one of them. -/
structure Delivery (V : Type*) (span : Span) where
  chunks : List (Chunk V)
  ticks : List ℕ
  result : Except IoError Unit
  inside : ∀ c ∈ chunks, span.offset ≤ c.offset ∧ c.offset + c.len ≤ span.offset + span.len
  delivered : result = .ok () → span.len ∈ ticks →
    ∀ x, span.offset ≤ x → x < span.offset + span.len → ∃ c ∈ chunks, c.Covers x

/-- A delivery that ends well leaves at every byte of its span one of which `P` holds. -/
def Delivery.Leaves {V : Type*} {span : Span} (P : ℕ → V → Prop) (d : Delivery V span) : Prop :=
  d.result = .ok () → span.len ∈ d.ticks → ∀ x, span.offset ≤ x → x < span.offset + span.len →
    ∃ v, lastAt d.chunks x = some v ∧ P x v

theorem Delivery.leaves_of_forall {V : Type*} {span : Span} {P : ℕ → V → Prop}
    {d : Delivery V span} (h : ∀ c ∈ d.chunks, ∀ x, c.Covers x → P x c.version) : d.Leaves P := by
  intro hres htick x h1 h2
  obtain ⟨v, hv⟩ := lastAt_isSome (d.delivered hres htick x h1 h2)
  obtain ⟨c, hc, hx, rfl⟩ := exists_of_lastAt hv
  exact ⟨_, hv, h c hc x hx⟩

/-- A message of the fetch thread about a transfer. -/
inductive Step where
  | progress (total : ℕ)
  | done
  | failed (e : IoError)
  deriving DecidableEq

/-- What the fetch thread says about a delivery, in order. -/
def Delivery.steps {V : Type*} {span : Span} (d : Delivery V span) : List Step :=
  d.ticks.map .progress ++ [match d.result with | .ok _ => .done | .error e => .failed e]

/-! ## Waiting for it -/

inductive TransferError where
  | short (got size : ℕ)
  | noFirstByte
  | stalled (got size : ℕ)
  | tooLong (got size : ℕ)
  | unresponsive
  | gone
  | provider (e : IoError)
  deriving DecidableEq

def TransferError.text : TransferError → String
  | .short got size => s!"delivered {got} of {size} bytes and claimed completion"
  | .noFirstByte => "the provider sent nothing"
  | .stalled got size => s!"stalled at {got} of {size} bytes"
  | .tooLong got size => s!"abandoned at {got} of {size} bytes: too long to hold a read"
  | .unresponsive => "fetcher unresponsive"
  | .gone => "the fetch thread is gone"
  | .provider e => e.text

/-- The counters by which the worker judges its fetcher. -/
structure Timed where
  seq : ℕ
  missed : ℕ
  abandoned : ℕ
  lost : ℕ
  deriving DecidableEq, Repr

namespace Timed

def new : Timed := ⟨0, 0, 0, 0⟩

/-- After this many misses the fetcher is treated as unresponsive. -/
def wedgedAfter : ℕ := 3

def wedged (t : Timed) : Bool :=
  decide (wedgedAfter ≤ t.missed) || decide (wedgedAfter ≤ t.abandoned) ||
    decide (wedgedAfter ≤ t.lost)

/-- Wedged in a way that makes another attempt cost a full deadline. -/
def expensiveToProbe (t : Timed) : Bool :=
  decide (wedgedAfter ≤ t.missed) || decide (wedgedAfter ≤ t.abandoned)

def missedOne (t : Timed) : Timed := { t with missed := t.missed + 1 }

def lostOne (t : Timed) : Timed := { t with lost := t.lost + 1 }

def abandonedOne (t : Timed) : Timed := { t with abandoned := t.abandoned + 1 }

def answered (t : Timed) : Timed := { t with missed := 0, abandoned := 0, lost := 0 }

end Timed

/-- What ends one turn of the waiting loop. -/
inductive Wait where
  /-- The total is past. -/
  | total
  /-- The deadline is past. -/
  | deadline
  /-- A message about another transfer. -/
  | stale
  /-- The next message about this transfer; nothing, when there is none. -/
  | own
  /-- Nothing within a heartbeat. -/
  | timeout
  | disconnected
  deriving DecidableEq

/-- What the waiting loop returns: the result, the counters, and whether the last message about
the transfer was among those received. -/
structure Listened where
  result : Except TransferError ℕ
  timed : Timed
  last : Bool

/-- The waiting loop of `Timed::run`. The clock ends it at the latest: where the turns run out the
total is past. -/
def listen (span : Span) (t : Timed) (moved : ℕ) : List Wait → List Step → Listened
  | [], _ => ⟨.error (.tooLong moved span.len), t.abandonedOne, false⟩
  | .total :: _, _ => ⟨.error (.tooLong moved span.len), t.abandonedOne, false⟩
  | .deadline :: _, _ =>
    if moved = 0 then ⟨.error .noFirstByte, t.missedOne, false⟩
    else ⟨.error (.stalled moved span.len), t.abandonedOne, false⟩
  | .stale :: ws, steps => listen span t moved ws steps
  | .timeout :: ws, steps => listen span t moved ws steps
  | .disconnected :: _, _ => ⟨.error .gone, t, false⟩
  | .own :: ws, [] => listen span t moved ws []
  | .own :: ws, .progress total :: steps =>
    if moved < total then
      listen span (if moved = 0 then t.answered else t) total ws steps
    -- progress that delivered nothing is not progress
    else listen span t moved ws steps
  | .own :: _, .done :: _ =>
    if moved ≠ span.len then ⟨.error (.short moved span.len), t.answered, true⟩
    else ⟨.ok moved, t.answered, true⟩
  | .own :: _, .failed e :: _ =>
    ⟨.error (.provider e),
      if isConnectionLost e then t.lostOne else if 0 < moved then t.answered else t, true⟩

/-- **A transfer that is reported as good** has ended well, and the total it last reported is the
length of the span; and nothing of it is still to come. -/
theorem listen_ok {span : Span} {ws : List Wait} :
    ∀ {steps : List Step} {t : Timed} {moved n : ℕ},
      (listen span t moved ws steps).result = .ok n →
        (listen span t moved ws steps).last = true ∧ Step.done ∈ steps ∧
          (moved = span.len ∨ Step.progress span.len ∈ steps) := by
  induction ws with
  | nil => intro steps t moved n h; cases h
  | cons w ws ih =>
    intro steps t moved n h
    cases w with
    | total => cases h
    | deadline =>
      rw [listen] at h
      split at h <;> cases h
    | stale => exact ih h
    | timeout => exact ih h
    | disconnected => cases h
    | own =>
      cases steps with
      | nil => exact ih h
      | cons s steps =>
        cases s with
        | progress total =>
          rw [listen] at h ⊢
          split at h
          · rename_i hlt
            rw [if_pos hlt]
            obtain ⟨h1, h2, h3⟩ := ih h
            refine ⟨h1, List.mem_cons_of_mem _ h2, Or.inr ?_⟩
            rcases h3 with h3 | h3
            · rw [h3]
              exact List.mem_cons_self
            · exact List.mem_cons_of_mem _ h3
          · rename_i hlt
            rw [if_neg hlt]
            obtain ⟨h1, h2, h3⟩ := ih h
            exact ⟨h1, List.mem_cons_of_mem _ h2, h3.imp_right (List.mem_cons_of_mem _)⟩
        | done =>
          rw [listen] at h ⊢
          split at h
          · cases h
          · rename_i hmoved
            rw [if_neg hmoved]
            exact ⟨rfl, List.mem_cons_self, Or.inl (by simpa using hmoved)⟩
        | failed e => cases h

/-! ## Asking for it -/

/-- What becomes of one transfer. -/
structure Attempt (V : Type*) where
  dup : Option IoError
  /-- Something of an earlier transfer is in the channel. -/
  heard : Bool
  /-- The fetch thread is gone. -/
  refused : Bool
  /-- What the fetcher does with a file, its size and a span of it. -/
  deliver : FileId → ℕ → (span : Span) → Delivery V span
  waits : List Wait
  /-- How many of the queued writes are made before the worker stops waiting. -/
  carried : ℕ

/-- What a transfer comes to: the result, the counters, whether the fetch thread was asked, and
whether its last message was received. -/
structure Ran where
  result : Except TransferError Unit
  timed : Timed
  sent : Bool
  last : Bool

namespace Timed

variable {V : Type*}

/-- Ask the fetch thread for a span and wait for it. -/
def send (t : Timed) (id : FileId) (size : ℕ) (span : Span) (a : Attempt V) : Ran :=
  let t := { t with seq := t.seq + 1 }
  if a.refused then ⟨.error .gone, t, false, false⟩
  else
    let heard := listen span t 0 a.waits (a.deliver id size span).steps
    ⟨heard.result.map fun _ ↦ (), heard.timed, true, heard.last⟩

def run (t : Timed) (id : FileId) (size : ℕ) (span : Span) (a : Attempt V) : Ran :=
  match a.dup with
  | some e => ⟨.error (.provider e), t, false, false⟩
  | none =>
    if t.expensiveToProbe then
      -- anything from an abandoned transfer is proof of life
      if a.heard then t.answered.send id size span a
      else ⟨.error .unresponsive, t, false, false⟩
    else t.send id size span a

private theorem send_ok {t : Timed} {id : FileId} {size : ℕ} {span : Span} {a : Attempt V}
    (h : (t.send id size span a).result = .ok ()) :
    (t.send id size span a).sent = true ∧ (t.send id size span a).last = true
      ∧ (a.deliver id size span).result = .ok ()
      ∧ (span.len = 0 ∨ span.len ∈ (a.deliver id size span).ticks) := by
  rw [send] at h ⊢
  dsimp only at h ⊢
  split at h
  · cases h
  · rename_i hsent
    rw [if_neg hsent]
    cases hres : (listen span { t with seq := t.seq + 1 } 0 a.waits
        (a.deliver id size span).steps).result with
    | error e => simp [hres, Except.map] at h
    | ok n =>
      obtain ⟨hlast, hdone, hmoved⟩ := listen_ok hres
      refine ⟨rfl, hlast, ?_, ?_⟩
      · cases hend : (a.deliver id size span).result with
        | ok _ => rfl
        | error e => simp [Delivery.steps, hend] at hdone
      · refine hmoved.imp (fun h ↦ h.symm) fun h ↦ ?_
        cases hend : (a.deliver id size span).result <;> simpa [Delivery.steps, hend] using h

/-- **A transfer that is reported as good** was asked for and heard to its end, and the delivery
ended well having reported the length of the span. -/
theorem run_ok {t : Timed} {id : FileId} {size : ℕ} {span : Span} {a : Attempt V}
    (h : (t.run id size span a).result = .ok ()) :
    (t.run id size span a).sent = true ∧ (t.run id size span a).last = true
      ∧ (a.deliver id size span).result = .ok ()
      ∧ (span.len = 0 ∨ span.len ∈ (a.deliver id size span).ticks) := by
  rw [run] at h ⊢
  split at h
  · cases h
  · split at h
    · rename_i hexp
      rw [if_pos hexp]
      split at h
      · rename_i hheard
        rw [if_pos hheard]
        exact send_ok h
      · cases h
    · rename_i hexp
      rw [if_neg hexp]
      exact send_ok h

end Timed

end HydrationAPI
