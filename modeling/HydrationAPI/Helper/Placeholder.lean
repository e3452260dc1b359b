import HydrationAPI.Helper.Partial
import HydrationAPI.Protocol.Errors

/-!
# Placeholders

A file as the worker reaches it through the descriptor of an event, and the operations that fill
it, finish it and put it back. The state of a placeholder is its mark; the bytes are tracked by
where they came from, since what matters about a byte is whether it is a hole, something the
remote delivered, or something a user wrote.

Every system call can fail. Its outcome is an argument: `none` when it succeeds, the error when it
does not. Setting an extended attribute moves the ctime of a file and not its mtime.
-/

namespace HydrationAPI

/-! ## Files -/

/-- Where a byte of a file came from. A byte of the remote object carries the version of the
object it belongs to. -/
inductive Cell (V : Type*) where
  | hole
  | remote (v : V)
  | user (b : UInt8)
  deriving DecidableEq, Repr

/-- A file of the mount. `mtime` is the modification time in nanoseconds. -/
structure File (V : Type*) where
  size : ℕ
  /-- The size is a `u64`. -/
  size_le : size ≤ u64Max
  nlink : ℕ
  mtime : ℕ
  cells : ℕ → Cell V
  marked : Bool
  nodump : Bool
  ignored : Bool
  stamp : Option String
  hydratedAt : Option ℕ

/-- A hole that is to be punched: whether the call succeeds, what goes even if it does not, and
the time it happens at. -/
structure Punch where
  error : Option IoError
  gone : ℕ → Bool
  time : ℕ

namespace File

variable {V : Type*}

/-- `Witness::of`, the two fields of the modification time apart. -/
def witness (f : File V) : Witness := ⟨f.mtime / 10 ^ 9, f.mtime % 10 ^ 9, f.size⟩

/-- Replace the cells that satisfy `p`. -/
def put (f : File V) (p : ℕ → Bool) (c : Cell V) (time : ℕ) : File V :=
  { f with cells := fun x ↦ if p x then c else f.cells x, mtime := max f.mtime time }

/-- The byte at `x` lies in `[offset, offset + len)`. -/
def inRange (offset len x : ℕ) : Bool := decide (offset ≤ x) && decide (x < offset + len)

/-- `pwrite` of bytes of the remote object. A write past the end of the file extends it. -/
def fill (f : File V) (offset len : ℕ) (v : V) (time : ℕ) : File V :=
  if len = 0 then f
  else
    { f.put (inRange offset len) (.remote v) time with
      size := max f.size (min (offset + len) u64Max)
      size_le := max_le f.size_le (min_le_right _ _) }

@[simp] theorem put_size (f : File V) (p : ℕ → Bool) (c : Cell V) (t : ℕ) :
    (f.put p c t).size = f.size := rfl

@[simp] theorem put_marked (f : File V) (p : ℕ → Bool) (c : Cell V) (t : ℕ) :
    (f.put p c t).marked = f.marked := rfl

@[simp] theorem put_mtime (f : File V) (p : ℕ → Bool) (c : Cell V) (t : ℕ) :
    (f.put p c t).mtime = max f.mtime t := rfl

@[simp] theorem put_cells (f : File V) (p : ℕ → Bool) (c : Cell V) (t x : ℕ) :
    (f.put p c t).cells x = if p x then c else f.cells x := rfl

@[simp] theorem fill_marked (f : File V) (o l : ℕ) (v : V) (t : ℕ) :
    (f.fill o l v t).marked = f.marked := by
  rw [fill]
  split <;> rfl

@[simp] theorem fill_nodump (f : File V) (o l : ℕ) (v : V) (t : ℕ) :
    (f.fill o l v t).nodump = f.nodump := by
  rw [fill]
  split <;> rfl

theorem le_fill_mtime (f : File V) (o l : ℕ) (v : V) (t : ℕ) :
    f.mtime ≤ (f.fill o l v t).mtime := by
  rw [fill]
  split
  · exact le_rfl
  · exact le_max_left _ _

theorem le_fill_size (f : File V) (o l : ℕ) (v : V) (t : ℕ) :
    f.size ≤ (f.fill o l v t).size := by
  rw [fill]
  split
  · exact le_rfl
  · exact le_max_left _ _

theorem inRange_iff {offset len x : ℕ} :
    inRange offset len x = true ↔ offset ≤ x ∧ x < offset + len := by
  simp [inRange]

theorem fill_cells (f : File V) (o l : ℕ) (v : V) (t x : ℕ) :
    (f.fill o l v t).cells x = if inRange o l x then .remote v else f.cells x := by
  rw [fill]
  split
  · rename_i h
    have hno : inRange o l x = false := by
      rw [Bool.eq_false_iff, ne_eq, inRange_iff, h]
      omega
    rw [hno, if_neg (by simp)]
  · rfl

/-- `stamp::write_fd`, best effort. -/
def writeStamp (f : File V) (ok : Bool) : File V :=
  if ok then
    { f with stamp := some s!"{f.mtime / 10 ^ 9}.{f.mtime % 10 ^ 9}:{f.size}" }
  else f

/-- `hydrated::write_fd` at the time `now`, best effort. -/
def writeHydrated (f : File V) (ok : Bool) (now : ℕ) : File V :=
  if ok then { f with hydratedAt := some (now / 10 ^ 9) } else f

/-- The same file as far as its bytes, its size, its times and its mark are concerned. -/
structure Same (f g : File V) : Prop where
  cells : f.cells = g.cells
  size : f.size = g.size
  mtime : f.mtime = g.mtime
  marked : f.marked = g.marked

theorem Same.refl (f : File V) : Same f f := ⟨rfl, rfl, rfl, rfl⟩

theorem Same.trans {f g h : File V} (h₁ : Same f g) (h₂ : Same g h) : Same f h :=
  ⟨h₁.cells.trans h₂.cells, h₁.size.trans h₂.size, h₁.mtime.trans h₂.mtime,
    h₁.marked.trans h₂.marked⟩

theorem Same.witness {f g : File V} (h : Same f g) : f.witness = g.witness := by
  rw [File.witness, File.witness, h.mtime, h.size]

theorem writeStamp_same (f : File V) (ok : Bool) : Same (f.writeStamp ok) f := by
  rw [writeStamp]
  split <;> exact ⟨rfl, rfl, rfl, rfl⟩

@[simp] theorem writeStamp_nodump (f : File V) (ok : Bool) :
    (f.writeStamp ok).nodump = f.nodump := by
  rw [writeStamp]
  split <;> rfl

theorem writeHydrated_same (f : File V) (ok : Bool) (now : ℕ) :
    Same (f.writeHydrated ok now) f := by
  rw [writeHydrated]
  split <;> exact ⟨rfl, rfl, rfl, rfl⟩

end File

/-! ## Punching -/

namespace Placeholder

variable {V : Type*}

/-- Punch away one range, leaving the rest of the file alone. -/
def punchRangeFd (f : File V) (p : Punch) (offset len : ℕ) : Except IoError Unit × File V :=
  if len = 0 then (.ok (), f)
  else match p.error with
    | none => (.ok (), f.put (File.inRange offset len) .hole p.time)
    | some e =>
      (.error e, f.put (fun x ↦ File.inRange offset len x && p.gone x) .hole p.time)

/-- Punch a file's content away. -/
def punchFd (f : File V) (p : Punch) (len : ℕ) : Except IoError Unit × File V :=
  punchRangeFd f p 0 len

/-- What a punch of `[offset, offset + len)` can leave of a file. -/
structure Punched (offset len : ℕ) (f g : File V) : Prop where
  cells : ∀ x, g.cells x = f.cells x ∨ (offset ≤ x ∧ x < offset + len ∧ g.cells x = .hole)
  size : g.size = f.size
  mtime : f.mtime ≤ g.mtime
  marked : g.marked = f.marked
  nodump : g.nodump = f.nodump

theorem punchRangeFd_punched (f : File V) (p : Punch) (offset len : ℕ) :
    Punched offset len f (punchRangeFd f p offset len).2 := by
  rw [punchRangeFd]
  split
  · exact ⟨fun _ ↦ Or.inl rfl, rfl, le_rfl, rfl, rfl⟩
  · split
    · refine ⟨fun x ↦ ?_, rfl, le_max_left _ _, rfl, rfl⟩
      rw [File.put_cells]
      split
      · rename_i h
        obtain ⟨h1, h2⟩ := File.inRange_iff.mp h
        exact Or.inr ⟨h1, h2, rfl⟩
      · exact Or.inl rfl
    · refine ⟨fun x ↦ ?_, rfl, le_max_left _ _, rfl, rfl⟩
      rw [File.put_cells]
      split
      · rename_i h
        obtain ⟨h1, h2⟩ := File.inRange_iff.mp ((Bool.and_eq_true _ _).mp h).1
        exact Or.inr ⟨h1, h2, rfl⟩
      · exact Or.inl rfl

theorem punchFd_punched (f : File V) (p : Punch) (len : ℕ) :
    Punched 0 len f (punchFd f p len).2 :=
  punchRangeFd_punched f p 0 len

/-- A punch that succeeds leaves nothing in its range. -/
theorem punchRangeFd_ok {f : File V} {p : Punch} {offset len : ℕ}
    (h : (punchRangeFd f p offset len).1 = .ok ()) {x : ℕ} (hx : offset ≤ x ∧ x < offset + len) :
    (punchRangeFd f p offset len).2.cells x = .hole := by
  rw [punchRangeFd] at h ⊢
  split
  · omega
  · rename_i hlen
    rw [if_neg hlen] at h
    split
    · rw [File.put_cells, if_pos (File.inRange_iff.mpr hx)]
    · rename_i e he
      rw [he] at h
      cases h

/-! ## Finishing, settling, putting back -/

/-- Clear the placeholder mark. -/
def unmarkFd (f : File V) (error : Option IoError) : Except IoError Unit × File V :=
  match error with
  | none => (.ok (), { f with marked := false })
  | some e =>
    -- not marked is the state that was wanted
    if e.rawOsError = some enodata then (.ok (), { f with marked := false }) else (.error e, f)

/-- What the two ioctls behind the `nodump` flag answer. -/
structure Flags where
  getFlags : Option IoError
  setFlags : Option IoError

/-- A filesystem that has no such flag says so in its own way. -/
def unsupportedOr (e : IoError) : IoError :=
  if e.rawOsError = some enotty ∨ e.rawOsError = some eopnotsupp then
    ⟨.unsupported, none, "this filesystem has no nodump flag"⟩
  else e

/-- Set or clear `nodump`; the second ioctl is made only when the flag has to change. -/
def setNodumpFd (f : File V) (c : Flags) (on : Bool) : Except IoError Unit × File V :=
  match c.getFlags with
  | some e => (.error (unsupportedOr e), f)
  | none =>
    if f.nodump = on then (.ok (), f)
    else match c.setFlags with
      | some e => (.error (unsupportedOr e), f)
      | none => (.ok (), { f with nodump := on })

/-- The answers to the system calls that finish, settle or put back a placeholder. -/
structure Closing where
  fsync : Option IoError
  /-- The punch that follows an `fsync` that failed. -/
  rollback : Punch
  unmark : Option IoError
  flags : Flags
  stamp : Bool
  hydrated : Bool
  now : ℕ

/-- Everything a completed transfer still owes the file. -/
def finishHydration (f : File V) (c : Closing) (expected : ℕ) : Except IoError Unit × File V :=
  match c.fsync with
  | some e => (.error e, (punchFd f c.rollback expected).2.writeStamp c.stamp)
  | none =>
    match unmarkFd f c.unmark with
    | (.error e, f) => (.error e, f)
    | (.ok _, f) =>
      match setNodumpFd f c.flags false with
      | (.ok _, f) => (.ok (), (f.writeStamp c.stamp).writeHydrated c.hydrated c.now)
      | (.error e, f) =>
        if e.kind = .unsupported then
          (.ok (), (f.writeStamp c.stamp).writeHydrated c.hydrated c.now)
        else (.error e, f)

/-- Make a range that has just been filled durable, without finishing the file. -/
def settleRange (f : File V) (c : Closing) : Except IoError Unit × File V :=
  match c.fsync with
  | some e => (.error e, f)
  | none => (.ok (), f.writeStamp c.stamp)

/-- Put a placeholder back: punch the whole declared size. -/
def abandon (f : File V) (p : Punch) (stamp : Bool) (expected : ℕ) :
    Except IoError Unit × File V :=
  match punchFd f p expected with
  | (.error e, f) => (.error e, f)
  | (.ok _, f) => (.ok (), f.writeStamp stamp)

/-- Clear whatever an interrupted transfer left, before the next one starts. -/
def clearResidue (f : File V) (p : Punch) (expected : ℕ) : Except IoError Unit × File V :=
  punchFd f p expected

theorem clearResidue_ok {f : File V} {p : Punch} {n x : ℕ}
    (h : (clearResidue f p n).1 = .ok ()) (hx : x < n) : (clearResidue f p n).2.cells x = .hole :=
  punchRangeFd_ok h ⟨Nat.zero_le x, by omega⟩

/-- The `nodump` flag cannot be cleared, and not because the filesystem has none. -/
def Flags.Refuse (c : Flags) (f : File V) : Prop :=
  ∃ e, (setNodumpFd f c false).1 = .error e ∧ e.kind ≠ .unsupported

theorem unmarkFd_cases (f : File V) (error : Option IoError) :
    ((unmarkFd f error).1 = .ok () ∧ (unmarkFd f error).2 = { f with marked := false })
      ∨ ((∃ e, (unmarkFd f error).1 = .error e) ∧ (unmarkFd f error).2 = f) := by
  cases error with
  | none => exact Or.inl ⟨rfl, rfl⟩
  | some e =>
    rw [unmarkFd]
    split
    · exact Or.inl ⟨rfl, rfl⟩
    · exact Or.inr ⟨⟨_, rfl⟩, rfl⟩

theorem unmarkFd_fst (f g : File V) (error : Option IoError) :
    (unmarkFd f error).1 = (unmarkFd g error).1 := by
  cases error with
  | none => rfl
  | some e =>
    rw [unmarkFd, unmarkFd]
    split <;> rfl

theorem setNodumpFd_same (f : File V) (c : Flags) (on : Bool) :
    File.Same (setNodumpFd f c on).2 f := by
  rw [setNodumpFd]
  split
  · exact File.Same.refl _
  · split
    · exact File.Same.refl _
    · split
      · exact File.Same.refl _
      · exact ⟨rfl, rfl, rfl, rfl⟩

theorem settleRange_same (f : File V) (c : Closing) : File.Same (settleRange f c).2 f := by
  rw [settleRange]
  split
  · exact File.Same.refl _
  · exact File.writeStamp_same _ _

theorem settleRange_nodump (f : File V) (c : Closing) :
    (settleRange f c).2.nodump = f.nodump := by
  rw [settleRange]
  split
  · rfl
  · exact File.writeStamp_nodump _ _

theorem Punched.of_same {f g h : File V} {offset len : ℕ} (h₁ : Punched offset len f g)
    (h₂ : File.Same h g) (hn : h.nodump = g.nodump) : Punched offset len f h :=
  ⟨fun x ↦ by rw [h₂.cells]; exact h₁.cells x, h₂.size.trans h₁.size, h₂.mtime ▸ h₁.mtime,
    h₂.marked.trans h₁.marked, hn.trans h₁.nodump⟩

theorem punched_of_same {f g : File V} (offset len : ℕ) (h : File.Same g f)
    (hn : g.nodump = f.nodump) : Punched offset len f g :=
  ⟨fun x ↦ by rw [h.cells]; exact Or.inl rfl, h.size, h.mtime.ge, h.marked, hn⟩

theorem Punched.trans {f g h : File V} {offset len : ℕ} (h₁ : Punched offset len f g)
    (h₂ : Punched offset len g h) : Punched offset len f h := by
  refine ⟨fun x ↦ ?_, h₂.size.trans h₁.size, h₁.mtime.trans h₂.mtime,
    h₂.marked.trans h₁.marked, h₂.nodump.trans h₁.nodump⟩
  rcases h₂.cells x with heq | hhole
  · rw [heq]
    exact h₁.cells x
  · exact Or.inr hhole

theorem abandon_punched (f : File V) (p : Punch) (stamp : Bool) (expected : ℕ) :
    Punched 0 expected f (abandon f p stamp expected).2 := by
  have hp := punchFd_punched f p expected
  rw [abandon]
  split
  · rename_i heq
    rw [heq] at hp
    exact hp
  · rename_i heq
    rw [heq] at hp
    exact hp.of_same (File.writeStamp_same _ _) (File.writeStamp_nodump _ _)

theorem abandon_cells (f : File V) (p : Punch) (stamp : Bool) (expected x : ℕ) :
    (abandon f p stamp expected).2.cells x =
      if x < expected ∧ (p.error = none ∨ p.gone x = true) then .hole else f.cells x := by
  rw [abandon, punchFd, punchRangeFd]
  by_cases hlen : expected = 0
  · rw [if_pos hlen, (File.writeStamp_same _ _).cells, if_neg (by omega)]
  · rw [if_neg hlen]
    cases p.error with
    | none =>
      dsimp only
      rw [(File.writeStamp_same _ _).cells, File.put_cells]
      simp [File.inRange]
    | some e =>
      dsimp only
      rw [File.put_cells]
      simp [File.inRange]

theorem setNodumpFd_fst_congr {f g : File V} (h : f.nodump = g.nodump) (c : Flags) (on : Bool) :
    (setNodumpFd f c on).1 = (setNodumpFd g c on).1 := by
  rw [setNodumpFd, setNodumpFd, h]
  cases c.getFlags with
  | some e => rfl
  | none =>
    by_cases hon : g.nodump = on
    · simp only [if_pos hon]
    · simp only [if_neg hon]
      cases c.setFlags <;> rfl

theorem refuse_unmarked {c : Flags} {f : File V} :
    c.Refuse { f with marked := false } ↔ c.Refuse f := by
  simp only [Flags.Refuse,
    setNodumpFd_fst_congr (f := { f with marked := false }) (g := f) rfl]

/-- **The three ways `finish_hydration` ends**: the file is finished; or it keeps its mark and
may have been punched; or its mark is already gone when the flag cannot be cleared. -/
theorem finishHydration_cases (f : File V) (c : Closing) (expected : ℕ) :
    ((finishHydration f c expected).1 = .ok () ∧
        File.Same (finishHydration f c expected).2 { f with marked := false } ∧
        c.fsync = none ∧ (unmarkFd f c.unmark).1 = .ok () ∧ ¬c.flags.Refuse f)
      ∨ ((∃ e, (finishHydration f c expected).1 = .error e) ∧
        Punched 0 expected f (finishHydration f c expected).2 ∧
        (c.fsync ≠ none ∨ (unmarkFd f c.unmark).1 ≠ .ok ()))
      ∨ ((∃ e, (finishHydration f c expected).1 = .error e) ∧
        File.Same (finishHydration f c expected).2 { f with marked := false } ∧
        c.fsync = none ∧ (unmarkFd f c.unmark).1 = .ok () ∧ c.flags.Refuse f) := by
  cases hsync : c.fsync with
  | some e =>
    refine Or.inr (Or.inl ?_)
    simp only [finishHydration, hsync]
    exact ⟨⟨e, rfl⟩, (punchFd_punched _ _ _).of_same (File.writeStamp_same _ _)
      (File.writeStamp_nodump _ _), by simp⟩
  | none =>
    rcases unmarkFd_cases f c.unmark with ⟨hok, hf⟩ | ⟨⟨e, he⟩, hf⟩
    · have hun : unmarkFd f c.unmark = (.ok (), { f with marked := false }) :=
        Prod.ext hok hf
      have hsame := setNodumpFd_same { f with marked := false } c.flags false
      have href := refuse_unmarked (c := c.flags) (f := f)
      simp only [finishHydration, hsync, hun]
      rw [← href, Flags.Refuse]
      generalize hset : setNodumpFd { f with marked := false } c.flags false = r at hsame
      obtain ⟨res, g⟩ := r
      cases res with
      | ok _ =>
        refine Or.inl ⟨rfl, ?_, trivial, trivial, by simp⟩
        exact (File.writeHydrated_same _ _ _).trans ((File.writeStamp_same _ _).trans hsame)
      | error e =>
        by_cases hk : e.kind = .unsupported
        · refine Or.inl ?_
          simp only [hk, if_true]
          refine ⟨trivial, ?_, trivial, trivial, by simp [hk]⟩
          exact (File.writeHydrated_same _ _ _).trans ((File.writeStamp_same _ _).trans hsame)
        · refine Or.inr (Or.inr ?_)
          simp only [hk, if_false]
          exact ⟨⟨e, rfl⟩, hsame, trivial, trivial, ⟨e, rfl, hk⟩⟩
    · have hun : unmarkFd f c.unmark = (.error e, f) := Prod.ext he hf
      refine Or.inr (Or.inl ?_)
      simp only [finishHydration, hsync, hun]
      exact ⟨⟨e, rfl⟩, punched_of_same _ _ (File.Same.refl f) rfl, by simp⟩

end Placeholder

end HydrationAPI
