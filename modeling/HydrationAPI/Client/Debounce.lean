import HydrationAPI.Client.Queue

/-!
# The upload driver

The driver asks the queue which files are due, and works the answer off, one upload after the other;
meanwhile files are touched, and may be cancelled. It does not ask again before it begins with a
file, so that one that has been touched or cancelled since is begun all the same. A file that is
still due when it is begun has been left alone for as long as it should, unless an attempt that
failed has put a shorter wait in the place of a longer one.
-/

namespace HydrationAPI.Client

open Queue

/-- The driver, with the queue and what has been done to it. -/
structure Driver where
  queue : Queue
  now : ℕ
  /-- What is left of the answer, and what is being sent. -/
  left : List FileId
  sending : Option FileId
  /-- What has been done to the queue, altogether and since the driver asked. -/
  done : List (ℕ × QueueOp)
  since : List (ℕ × QueueOp)

/-- What happens, to the driver or by it. -/
inductive DriverEvent where
  | passes (time : ℕ)
  | touched (file : FileId)
  | cancelled (file : FileId)
  | looks
  | begins
  /-- An upload is over, and whether it has failed. -/
  | ends (failed : Bool)
  deriving DecidableEq, Repr

namespace Driver

def start (debounce : ℕ) : Driver := ⟨new debounce, 0, [], none, [], []⟩

/-- Something is done to the queue. -/
def does (d : Driver) (op : QueueOp) : Driver :=
  { d with
    queue := d.queue.apply (d.now, op)
    done := d.done ++ [(d.now, op)]
    since := d.since ++ [(d.now, op)] }

def step (d : Driver) : DriverEvent → Option Driver
  | .passes time => some { d with now := d.now + time }
  | .touched file => some (d.does (.touch file))
  | .cancelled file => some (d.does (.cancel file))
  | .looks =>
    match d.left, d.sending with
    | [], none => some { d with left := d.queue.due d.now, since := [] }
    | _, _ => none
  | .begins =>
    match d.left, d.sending with
    | file :: left, none => some { d.does (.begin file) with left := left, sending := some file }
    | _, _ => none
  | .ends failed =>
    match d.sending with
    | some file =>
      some { (d.does (.finish file)).does (if failed then .failed file else .sent file) with
        sending := none }
    | none => none

/-- A run from the start. -/
def run (debounce : ℕ) (events : List DriverEvent) : Option Driver :=
  events.foldlM step (start debounce)

/-- In the run the event happens to the driver in that state. -/
def Meets (debounce : ℕ) (events : List DriverEvent) (d : Driver) (e : DriverEvent) : Prop :=
  ∃ before after, events = before ++ e :: after ∧ run debounce before = some d
    ∧ (d.step e).isSome

/-! ## What is asked of the driver -/

/-- The last touch of a file. -/
def touchedAt (file : FileId) (last : Option ℕ) : ℕ × QueueOp → Option ℕ
  | (now, .touch f) => if f = file then some now else last
  | _ => last

def lastTouch (file : FileId) (ops : List (ℕ × QueueOp)) : Option ℕ :=
  ops.foldl (touchedAt file) none

/-- What was last said of a file: when it was touched, or that it was cancelled. -/
def saidOf (file : FileId) (last : Option (Option ℕ)) : ℕ × QueueOp → Option (Option ℕ)
  | (now, .touch f) => if f = file then some (some now) else last
  | (_, .cancel f) => if f = file then some none else last
  | _ => last

def lastWord (file : FileId) (ops : List (ℕ × QueueOp)) : Option (Option ℕ) :=
  ops.foldl (saidOf file) none

/-- An upload is begun when the debounce has passed since the last touch of its file, and of a file
that has not been cancelled since the driver asked. -/
def Respects (d : Driver) : DriverEvent → Prop
  | .begins => ∀ file left, d.left = file :: left →
      (∀ touched, lastTouch file d.done = some touched → touched + d.queue.debounce ≤ d.now)
        ∧ lastWord file d.since ≠ some none
  | _ => True

/-- The file that is begun is still due. -/
def StillDue (d : Driver) : DriverEvent → Prop
  | .begins => ∀ file left, d.left = file :: left → file ∈ d.queue.due d.now
  | _ => True

/-- An attempt that fails does not shorten the wait of a touch that came while it was running. -/
def Patient (d : Driver) : DriverEvent → Prop
  | .ends true => ∀ file touched, d.sending = some file → lastTouch file d.done = some touched →
      touched + d.queue.debounce ≤ d.now + d.queue.backoff file
  | _ => True

variable {d d' : Driver} {debounce : ℕ} {events : List DriverEvent} {e : DriverEvent}
  {file other : FileId} {op : QueueOp}

/-! ## What the queue knows of a file -/

@[simp] theorem debounce_does : (d.does op).queue.debounce = d.queue.debounce := debounce_apply _

theorem lastTouch_does :
    lastTouch file (d.does op).done = touchedAt file (lastTouch file d.done) (d.now, op) :=
  List.foldl_concat ..

theorem lastWord_does :
    lastWord file (d.does op).since = saidOf file (lastWord file d.since) (d.now, op) :=
  List.foldl_concat ..

/-- A file that is on the list, as the queue has it: nothing has been said of it since, or it has
been touched, or cancelled. -/
def Listed (d : Driver) (file : FileId) : Prop :=
  match lastWord file d.since with
  | none => ∃ at', d.queue.waiting.lookup file = some at' ∧ at' ≤ d.now
  | some none => d.queue.waiting.lookup file = none
  | some (some touched) => d.queue.waiting.lookup file = some (touched + d.queue.debounce)
      ∧ lastTouch file d.done = some touched

/-- What holds of the driver at any time. -/
structure Sound (d : Driver) : Prop where
  /-- No file is due before its debounce is over. -/
  waits : ∀ file at' touched, d.queue.waiting.lookup file = some at' →
    lastTouch file d.done = some touched → touched + d.queue.debounce ≤ at'
  nodup : d.left.Nodup
  listed : ∀ file ∈ d.left, d.Listed file
  sending : ∀ file, d.sending = some file → file ∉ d.left
  past : ∀ file touched, lastTouch file d.done = some touched → touched ≤ d.now

theorem sound_start (debounce : ℕ) : (start debounce).Sound :=
  ⟨fun _ _ _ h ↦ absurd h.symm (Option.some_ne_none _), List.nodup_nil,
    fun _ h ↦ absurd h List.not_mem_nil, fun _ _ ↦ List.not_mem_nil, nofun⟩

theorem nodup_due (q : Queue) (now : ℕ) : (q.due now).Nodup := by
  rw [due, (List.mergeSort_perm _ _).nodup_iff]
  exact q.waiting.nodupKeys.sublist List.filter_sublist

/-- **What the driver owes is that the file is still due.** -/
theorem Sound.respects_iff (h : d.Sound) : d.Respects e ↔ d.StillDue e := by
  match e with
  | .begins =>
    refine forall₃_congr fun file left hleft ↦ ?_
    have hlisted := h.listed file (hleft ▸ List.mem_cons_self)
    rw [mem_due]
    rw [Listed] at hlisted
    match hsaid : lastWord file d.since with
    | none =>
      rw [hsaid] at hlisted
      obtain ⟨at', hat, hle⟩ := hlisted
      refine iff_of_true ⟨fun touched htouched ↦ ?_, nofun⟩ ⟨at', hat, hle⟩
      exact (h.waits file at' touched hat htouched).trans hle
    | some none =>
      rw [hsaid] at hlisted
      refine iff_of_false (fun h ↦ h.2 rfl) fun ⟨at', hat, _⟩ ↦ ?_
      exact Option.some_ne_none at' (hat.symm.trans hlisted)
    | some (some touched) =>
      rw [hsaid] at hlisted
      obtain ⟨hat, htouched⟩ := hlisted
      constructor
      · exact fun ⟨hquiet, _⟩ ↦ ⟨_, hat, hquiet touched htouched⟩
      · rintro ⟨at', hat', hle⟩
        cases hat.symm.trans hat'
        refine ⟨fun touched' htouched' ↦ ?_, nofun⟩
        cases htouched.symm.trans htouched'
        exact hle
  | .passes _ | .touched _ | .cancelled _ | .looks | .ends _ => exact Iff.rfl

/-- What is done to the queue leaves a file as it is known, if it is not about that file. -/
theorem Listed.does (h : d.Listed other) (op : QueueOp)
    (hlookup : (d.does op).queue.waiting.lookup other = d.queue.waiting.lookup other)
    (htouch : touchedAt other (lastTouch other d.done) (d.now, op) = lastTouch other d.done)
    (hsaid : saidOf other (lastWord other d.since) (d.now, op) = lastWord other d.since) :
    (d.does op).Listed other := by
  rw [Listed] at h ⊢
  rw [lastWord_does, hsaid, hlookup, lastTouch_does, htouch, debounce_does]
  exact h

/-- A deadline that is as it was is no shorter than it should be. -/
theorem Sound.waits_does (h : d.Sound) (op : QueueOp)
    (hwaits : ∀ file at', (d.does op).queue.waiting.lookup file = some at' →
      d.queue.waiting.lookup file = some at'
          ∧ touchedAt file (lastTouch file d.done) (d.now, op) = lastTouch file d.done
        ∨ ∀ touched, touchedAt file (lastTouch file d.done) (d.now, op) = some touched →
          touched + d.queue.debounce ≤ at') :
    ∀ file at' touched, (d.does op).queue.waiting.lookup file = some at' →
      lastTouch file (d.does op).done = some touched →
      touched + (d.does op).queue.debounce ≤ at' := by
  intro file at' touched hat htouched
  rw [lastTouch_does] at htouched
  rw [debounce_does]
  rcases hwaits file at' hat with ⟨hat, hsame⟩ | hlate
  · exact h.waits file at' touched hat (hsame.symm.trans htouched)
  · exact hlate touched htouched

theorem Sound.past_does (h : d.Sound) (op : QueueOp) (touched : ℕ)
    (htouched : lastTouch file (d.does op).done = some touched) : touched ≤ (d.does op).now := by
  rw [lastTouch_does] at htouched
  unfold touchedAt at htouched
  split at htouched
  · split at htouched
    · rename_i hop _
      cases htouched
      exact le_of_eq (Prod.mk.inj hop).1.symm
    · exact h.past file touched htouched
  · exact h.past file touched htouched

theorem Sound.touched (h : d.Sound) : (d.does (.touch file)).Sound where
  waits := h.waits_does _ fun g at' hat ↦ by
    by_cases hg : g = file
    · subst hg
      have hinsert : (d.does (.touch g)).queue.waiting.lookup g = some (d.now + d.queue.debounce) :=
        AList.lookup_insert _
      cases hinsert.symm.trans hat
      refine Or.inr fun touched htouched ↦ ?_
      rw [touchedAt, if_pos rfl] at htouched
      cases htouched
      exact le_rfl
    · refine Or.inl ⟨(AList.lookup_insert_ne hg).symm.trans hat, if_neg (Ne.symm hg)⟩
  nodup := h.nodup
  listed g hg := by
    by_cases heq : g = file
    · subst heq
      rw [Listed, lastWord_does, saidOf, if_pos rfl]
      refine ⟨AList.lookup_insert _, ?_⟩
      rw [lastTouch_does, touchedAt, if_pos rfl]
    · exact (h.listed g hg).does _ (AList.lookup_insert_ne heq) (if_neg (Ne.symm heq))
        (if_neg (Ne.symm heq))
  sending := h.sending
  past _ := h.past_does _

theorem Sound.cancelled (h : d.Sound) : (d.does (.cancel file)).Sound where
  waits := h.waits_does _ fun g at' hat ↦ by
    by_cases hg : g = file
    · subst hg
      exact absurd (hat.symm.trans (AList.lookup_erase _ _)) (Option.some_ne_none at')
    · exact Or.inl ⟨(AList.lookup_erase_ne hg).symm.trans hat, rfl⟩
  nodup := h.nodup
  listed g hg := by
    by_cases heq : g = file
    · subst heq
      rw [Listed, lastWord_does, saidOf, if_pos rfl]
      exact AList.lookup_erase _ _
    · exact (h.listed g hg).does _ (AList.lookup_erase_ne heq) rfl (if_neg (Ne.symm heq))
  sending := h.sending
  past _ := h.past_does _

/-- The file that is begun leaves the list, on which it is once. -/
theorem Sound.begins {left : List FileId} (h : d.Sound) (hleft : d.left = file :: left) :
    ({ d.does (.begin file) with left := left, sending := some file } : Driver).Sound where
  waits := h.waits_does (.begin file) fun g at' hat ↦ by
    by_cases hg : g = file
    · subst hg
      exact absurd (hat.symm.trans (AList.lookup_erase _ _)) (Option.some_ne_none at')
    · exact Or.inl ⟨(AList.lookup_erase_ne hg).symm.trans hat, rfl⟩
  nodup := (List.nodup_cons.mp (hleft ▸ h.nodup)).2
  listed g hg := by
    have hne : g ≠ file := fun heq ↦ (List.nodup_cons.mp (hleft ▸ h.nodup)).1 (heq ▸ hg)
    exact (h.listed g (hleft ▸ List.mem_cons_of_mem _ hg)).does (.begin file)
      (AList.lookup_erase_ne hne) rfl rfl
  sending g hg := by
    cases hg
    exact (List.nodup_cons.mp (hleft ▸ h.nodup)).1
  past _ := h.past_does (.begin file)

/-- What is done to a file that is not on the list, and leaves its deadline or puts it off. -/
theorem Sound.does_apart (h : d.Sound)
    (hop : op = .finish file ∨ op = .failed file ∨ op = .sent file) (hfile : file ∉ d.left)
    (hpatient : op = .failed file → ∀ touched, lastTouch file d.done = some touched →
      touched + d.queue.debounce ≤ d.now + d.queue.backoff file) : (d.does op).Sound := by
  have hsame : ∀ g, g ≠ file →
      (d.does op).queue.waiting.lookup g = d.queue.waiting.lookup g := by
    intro g hg
    rcases hop with rfl | rfl | rfl
    · rfl
    · exact AList.lookup_insert_ne hg
    · rfl
  have htouch : ∀ g, touchedAt g (lastTouch g d.done) (d.now, op) = lastTouch g d.done := by
    intro g
    rcases hop with rfl | rfl | rfl <;> rfl
  have hsaid : ∀ g, saidOf g (lastWord g d.since) (d.now, op) = lastWord g d.since := by
    intro g
    rcases hop with rfl | rfl | rfl <;> rfl
  refine ⟨h.waits_does _ fun g at' hat ↦ ?_, h.nodup, fun g hg ↦ ?_, h.sending,
    fun _ ↦ h.past_does op⟩
  · by_cases hg : g = file
    · subst hg
      rcases hop with rfl | rfl | rfl
      · exact Or.inl ⟨hat, htouch g⟩
      · have hinsert : (d.does (.failed g)).queue.waiting.lookup g
            = some (d.now + d.queue.backoff g) := AList.lookup_insert _
        cases hinsert.symm.trans hat
        exact Or.inr fun touched htouched ↦ hpatient rfl touched ((htouch g).symm.trans htouched)
      · exact Or.inl ⟨hat, htouch g⟩
    · exact Or.inl ⟨(hsame g hg).symm.trans hat, htouch g⟩
  · have hne : g ≠ file := fun heq ↦ hfile (heq ▸ hg)
    exact (h.listed g hg).does _ (hsame g hne) (htouch g) (hsaid g)

/-- The end of an upload. -/
theorem Sound.ends {failed : Bool} (h : d.Sound) (hsending : d.sending = some file)
    (hpatient : d.Patient (.ends failed)) :
    ({ (d.does (.finish file)).does (if failed then .failed file else .sent file) with
      sending := none } : Driver).Sound := by
  have hfile := h.sending file hsending
  have hfinished : (d.does (.finish file)).Sound := h.does_apart (Or.inl rfl) hfile nofun
  have hended :
      ((d.does (.finish file)).does (if failed then .failed file else .sent file)).Sound := by
    match failed with
    | false => exact hfinished.does_apart (Or.inr (Or.inr rfl)) hfile nofun
    | true =>
      refine hfinished.does_apart (Or.inr (Or.inl rfl)) hfile fun _ touched htouched ↦ ?_
      rw [lastTouch_does] at htouched
      exact hpatient file touched hsending htouched
  exact ⟨hended.waits, hended.nodup, hended.listed, nofun, hended.past⟩

/-- One step. -/
theorem Sound.step (h : d.Sound) (hpatient : d.Patient e) (hstep : d.step e = some d') :
    d'.Sound := by
  match e with
  | .passes time =>
    cases hstep
    refine ⟨h.waits, h.nodup, fun file hfile ↦ ?_, h.sending, fun file touched htouched ↦
      (h.past file touched htouched).trans (Nat.le_add_right _ _)⟩
    have hlisted := h.listed file hfile
    rw [Listed] at hlisted ⊢
    match hsaid : lastWord file d.since with
    | none =>
      rw [hsaid] at hlisted
      obtain ⟨at', hat, hle⟩ := hlisted
      exact ⟨at', hat, hle.trans (Nat.le_add_right _ _)⟩
    | some none | some (some _) =>
      rw [hsaid] at hlisted
      exact hlisted
  | .touched file =>
    cases hstep
    exact h.touched
  | .cancelled file =>
    cases hstep
    exact h.cancelled
  | .looks =>
    rw [Driver.step] at hstep
    match hleft : d.left, hsending : d.sending with
    | [], none =>
      rw [hleft, hsending] at hstep
      cases hstep
      exact ⟨h.waits, nodup_due _ _, fun file hfile ↦ mem_due.mp hfile, nofun, h.past⟩
    | _ :: _, _ =>
      rw [hleft] at hstep
      cases hstep
    | [], some _ =>
      rw [hleft, hsending] at hstep
      cases hstep
  | .begins =>
    rw [Driver.step] at hstep
    match hleft : d.left, hsending : d.sending with
    | file :: left, none =>
      rw [hleft, hsending] at hstep
      cases hstep
      exact h.begins hleft
    | [], _ =>
      rw [hleft] at hstep
      cases hstep
    | _ :: _, some _ =>
      rw [hleft, hsending] at hstep
      cases hstep
  | .ends failed =>
    rw [Driver.step] at hstep
    match hsending : d.sending with
    | some file =>
      rw [hsending] at hstep
      cases hstep
      exact h.ends hsending hpatient
    | none =>
      rw [hsending] at hstep
      cases hstep

/-! ## Runs -/

theorem run_concat : run debounce (events ++ [e]) = (run debounce events).bind (·.step e) := by
  simp only [run, List.foldlM_append, List.foldlM_cons, List.foldlM_nil, Option.bind_eq_bind,
    Option.pure_def, Option.bind_fun_some]

/-- The driver is sound at any time of a run whose attempts are patient. -/
theorem sound_run {before after : List DriverEvent} (hevents : events = before ++ after)
    (hpatient : ∀ d e, d.Sound → Meets debounce events d e → d.Patient e)
    (hd : run debounce before = some d) : d.Sound := by
  induction before using List.reverseRecOn generalizing d after with
  | nil =>
    cases hd
    exact sound_start debounce
  | append_singleton before e ih =>
    rw [run_concat] at hd
    obtain ⟨d₀, hd₀, hstep⟩ := Option.bind_eq_some_iff.mp hd
    rw [List.append_assoc] at hevents
    have hsound := ih hevents hd₀
    refine hsound.step (hpatient d₀ e hsound ⟨before, after, hevents, hd₀, ?_⟩) hstep
    exact Option.isSome_iff_exists.mpr ⟨d, hstep⟩

/-- The penalty is no shorter than a debounce that is itself no longer than the longest penalty. -/
theorem debounce_le_backoff {q : Queue} (h : q.debounce ≤ retryCeiling) :
    q.debounce ≤ q.backoff file := by
  have hdouble : q.debounce ≤ q.debounce * 2 ^ min (q.failuresAfter file) retryDoublings :=
    Nat.le_mul_of_pos_right _ (Nat.two_pow_pos _)
  exact le_min (le_min hdouble (h.trans (by decide))) h

/-- With such a debounce every attempt is patient. -/
theorem Sound.patient (h : d.Sound) (hdebounce : d.queue.debounce ≤ retryCeiling) :
    d.Patient e := by
  match e with
  | .ends true =>
    exact fun file touched _ htouched ↦ Nat.add_le_add (h.past file touched htouched)
      (debounce_le_backoff hdebounce)
  | .passes _ | .touched _ | .cancelled _ | .looks | .begins | .ends false => trivial

theorem debounce_step (hstep : d.step e = some d') : d'.queue.debounce = d.queue.debounce := by
  match e with
  | .passes _ | .touched _ | .cancelled _ =>
    cases hstep
    rfl
  | .looks | .begins | .ends _ =>
    rw [Driver.step] at hstep
    split at hstep
    · cases hstep
      simp
    · cases hstep

theorem debounce_run (hd : run debounce events = some d) : d.queue.debounce = debounce := by
  induction events using List.reverseRecOn generalizing d with
  | nil =>
    cases hd
    rfl
  | append_singleton events e ih =>
    rw [run_concat] at hd
    obtain ⟨d₀, hd₀, hstep⟩ := Option.bind_eq_some_iff.mp hd
    exact (debounce_step hstep).trans (ih hd₀)

theorem patient_run (h : debounce ≤ retryCeiling) (d : Driver) (e : DriverEvent)
    (hmeets : Meets debounce events d e) : d.Patient e := by
  have hpatient : ∀ d e, d.Sound → Meets debounce events d e → d.Patient e :=
    fun d e hsound ⟨_, _, _, hd, _⟩ ↦ hsound.patient ((debounce_run hd).le.trans h)
  obtain ⟨before, after, hevents, hd, henabled⟩ := hmeets
  exact hpatient d e (sound_run hevents hpatient hd) ⟨before, after, hevents, hd, henabled⟩

/-- **The debounce is respected by the driver**, in a run whose failed attempts shorten no wait, if
and only if every file is still due when it is begun. -/
theorem respects_iff_stillDue
    (hpatient : ∀ d e, Meets debounce events d e → d.Patient e) :
    (∀ d e, Meets debounce events d e → d.Respects e)
      ↔ ∀ d e, Meets debounce events d e → d.StillDue e := by
  refine forall₂_congr fun d e ↦ forall_congr' fun ⟨before, after, hevents, hd, _⟩ ↦ ?_
  exact (sound_run hevents (fun d e _ ↦ hpatient d e) hd).respects_iff

/-! ### A file that is saved while another one is sent -/

def savedQueue : Queue := (((new 10).touch 0 ⟨1, 9⟩).touch 0 ⟨1, 8⟩).touch 0 ⟨1, 7⟩

/-- Three files are due, and the driver has asked. -/
def savedList : List DriverEvent :=
  [.touched ⟨1, 9⟩, .touched ⟨1, 8⟩, .touched ⟨1, 7⟩, .passes 10, .looks]

theorem due_savedQueue : savedQueue.due 10 = [⟨1, 7⟩, ⟨1, 8⟩, ⟨1, 9⟩] :=
  List.mergeSort_of_pairwise (by decide)

theorem run_savedList : run 10 savedList = some ⟨savedQueue, 10, [⟨1, 7⟩, ⟨1, 8⟩, ⟨1, 9⟩], none,
    [(0, .touch ⟨1, 9⟩), (0, .touch ⟨1, 8⟩), (0, .touch ⟨1, 7⟩)], []⟩ := by
  rw [← due_savedQueue]
  rfl

/-- While the first of them is being sent the second is touched and the third is cancelled. -/
def savedMeanwhile : List DriverEvent :=
  [.begins, .passes 5, .touched ⟨1, 8⟩, .cancelled ⟨1, 9⟩, .ends false]

/-- Both are begun next. -/
theorem saved_begun : ¬ ∀ debounce events d e, Meets debounce events d e → d.Respects e := by
  intro h
  have hrun : ∃ d, run 10 (savedList ++ savedMeanwhile) = some d ∧ d.now = 15
      ∧ d.queue.debounce = 10 ∧ d.left = [⟨1, 8⟩, ⟨1, 9⟩] ∧ (d.step .begins).isSome
      ∧ lastTouch ⟨1, 8⟩ d.done = some 15 := by
    rw [run, List.foldlM_append, ← run, run_savedList]
    exact ⟨_, rfl, rfl, rfl, rfl, rfl, rfl⟩
  obtain ⟨d, hd, hnow, hdebounce, hleft, henabled, htouched⟩ := hrun
  have hquiet := (h 10 (savedList ++ savedMeanwhile ++ [.begins]) d .begins
    ⟨_, [], rfl, hd, henabled⟩ ⟨1, 8⟩ [⟨1, 9⟩] hleft).1 15 htouched
  rw [hnow, hdebounce] at hquiet
  exact absurd hquiet (by decide)

theorem due_alone : ((new 10).touch 0 ⟨1, 7⟩).due 10 = [⟨1, 7⟩] :=
  List.mergeSort_of_pairwise (by decide)

/-- A file is due, and the driver has asked. -/
def aloneList : Driver := ⟨(new 10).touch 0 ⟨1, 7⟩, 10, [⟨1, 7⟩], none, [(0, .touch ⟨1, 7⟩)], []⟩

theorem run_alone : run 10 [.touched ⟨1, 7⟩, .passes 10, .looks] = some aloneList := by
  rw [aloneList, ← due_alone]
  rfl

/-- A file that is left alone until it is begun. -/
theorem unsaved_respected : aloneList.Respects .begins := by
  refine (respects_iff_stillDue (patient_run (by decide))).mpr ?_ aloneList .begins ⟨_, [], rfl, run_alone, rfl⟩
  rintro d e ⟨before, after, hevents, hd, -⟩
  match e with
  | .begins =>
    rcases before with _ | ⟨a, _ | ⟨b, _ | ⟨c, _ | ⟨x, before⟩⟩⟩⟩
    · cases hevents
    · cases hevents
    · cases hevents
    · cases hevents
      cases hd
      intro file left hleft
      have hmem : file ∈ ((new 10).touch 0 ⟨1, 7⟩).due 10 :=
        (congrArg (file ∈ ·) hleft).mpr List.mem_cons_self
      exact hmem
    · simp at hevents
  | .passes _ | .touched _ | .cancelled _ | .looks | .ends _ => trivial

end Driver

end HydrationAPI.Client
