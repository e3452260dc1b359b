import HydrationAPI.Lib.Dialogue
import Mathlib.Data.List.Infix
import Mathlib.Logic.Function.Basic

/-!
# Files that are replaced

A file is replaced by writing another one beside it, having that one put on the disk, and renaming
it; then the directory is put on the disk as well. Power may fail in between. What a directory is
then is what it was at one of its changes, not before it was last put on the disk; what a file has
in it is what it had when it was put on the disk, if nothing has been written to it since, and
anything otherwise.

A file is spoken of by the name it was opened under, which it keeps until it is renamed.
-/

namespace Replace

variable {C N L β ε K : Type}

/-! ## Files, and what may become of them -/

/-- The files of one directory, as the programs that use it see them, and what of them is on the
disk. -/
structure Files (N L β : Type) where
  dir : N → Option ℕ
  /-- What the directory has been since it was last put on the disk, and how many files had been
  renamed by then. -/
  past : List ((N → Option ℕ) × ℕ)
  data : ℕ → List β
  /-- What a file has in it is on the disk. -/
  kept : ℕ → Bool
  next : ℕ
  /-- The files that have been renamed, and what they were meant to be. -/
  log : List (N × L)
  /-- How many of them are on the disk for good. -/
  lasting : ℕ

/-- What is asked of the files; some calls leave them as they are. -/
inductive Call (C N L β : Type) where
  | still (what : C)
  | openTruncated (name : N)
  | write (name : N) (bytes : List β)
  | syncFile (name : N)
  | rename (src dst : N) (update : L)
  | syncDir

namespace Files

/-- What the directory may be once power has failed. -/
def states (w : Files N L β) : List ((N → Option ℕ) × ℕ) := (w.dir, w.log.length) :: w.past

def read (w : Files N L β) (n : N) : Option (List β) := (w.dir n).map w.data

/-- The file under a name, or the one that is made under it. -/
def fileAt (w : Files N L β) (n : N) : ℕ := (w.dir n).getD w.next

def written (w : Files N L β) (n : N) (bytes : List β) : Files N L β :=
  { w with
    data := fun i ↦ if w.dir n = some i then w.data i ++ bytes else w.data i
    kept := fun i ↦ if w.dir n = some i then false else w.kept i }

def synced (w : Files N L β) (n : N) : Files N L β :=
  { w with kept := fun i ↦ if w.dir n = some i then true else w.kept i }

def settled (w : Files N L β) : Files N L β := { w with past := [], lasting := w.log.length }

variable [DecidableEq N]

def opened (w : Files N L β) (n : N) : Files N L β :=
  { w with
    dir := Function.update w.dir n (some (w.fileAt n))
    past := w.states
    data := Function.update w.data (w.fileAt n) []
    kept := Function.update w.kept (w.fileAt n) false
    next := max w.next (w.fileAt n + 1) }

def renamed (w : Files N L β) (src dst : N) (update : L) : Files N L β :=
  match w.dir src with
  -- What is renamed has been written before, so that this is never asked.
  | none => w
  | some i =>
    { w with
      dir := Function.update (Function.update w.dir dst (some i)) src none
      past := w.states
      log := w.log ++ [(dst, update)] }

def does (w : Files N L β) : Call C N L β → Files N L β
  | .still _ => w
  | .openTruncated n => w.opened n
  | .write n bytes => w.written n bytes
  | .syncFile n => w.synced n
  | .rename src dst update => w.renamed src dst update
  | .syncDir => w.settled

/-- A call that fails may have done what was asked, and a write a part of it. -/
def Fails (w : Files N L β) : Call C N L β → Files N L β → Prop
  | .write n bytes, w' => ∃ part, part <+: bytes ∧ w' = w.written n part
  | q, w' => w' = w ∨ w' = w.does q

def Answers (w : Files N L β) (q : Call C N L β) : Except ε Unit → Files N L β → Prop
  | .ok _, w' => w' = w.does q
  | .error _, w' => w.Fails q w'

omit [DecidableEq N] in
/-- Power fails: the directory is what it was at one of its changes. -/
def Lost (w w' : Files N L β) : Prop :=
  ∃ d k, (d, k) ∈ w.states ∧ w'.dir = d ∧ w'.past = [] ∧ w'.log = w.log.take k ∧ w'.lasting = k
    ∧ w'.next = w.next ∧ ∀ i, w.kept i = true → w'.data i = w.data i ∧ w'.kept i = true

end Files

/-! ## What is there after any number of them -/

section Last

variable [DecidableEq N] {log : List (N × L)} {n : N}

/-- What a name was last renamed to. -/
def lastOf (log : List (N × L)) (n : N) : Option L :=
  log.foldl (fun last u ↦ if u.1 = n then some u.2 else last) none

@[simp] theorem lastOf_nil : lastOf ([] : List (N × L)) n = none := rfl

theorem lastOf_concat (u : N × L) :
    lastOf (log ++ [u]) n = if u.1 = n then some u.2 else lastOf log n := by
  simp [lastOf]

@[simp] theorem lastOf_concat_self (l : L) : lastOf (log ++ [(n, l)]) n = some l := by
  simp [lastOf_concat]

theorem lastOf_concat_of_ne {u : N × L} (h : u.1 ≠ n) : lastOf (log ++ [u]) n = lastOf log n := by
  simp [lastOf_concat, h]

theorem mem_of_lastOf {l : L} (h : lastOf log n = some l) : (n, l) ∈ log := by
  induction log using List.reverseRecOn with
  | nil => contradiction
  | append_singleton log u ih =>
    rw [lastOf_concat] at h
    split at h
    · rename_i hu
      obtain ⟨m, l'⟩ := u
      cases h
      simp [← hu]
    · exact List.mem_append_left _ (ih h)

/-- What others are renamed to does not count. -/
theorem lastOf_append {more : List (N × L)} (h : ∀ u ∈ more, u.1 ≠ n) :
    lastOf (log ++ more) n = lastOf log n := by
  induction more using List.reverseRecOn with
  | nil => simp
  | append_singleton more u ih =>
    rw [← List.append_assoc, lastOf_concat_of_ne (h u (by simp)),
      ih fun v hv ↦ h v (by simp [hv])]

end Last

/-- Which names are read, and what is to be read under them. -/
structure Layout (N L β : Type) where
  final : N → Prop
  bytes : L → List β

variable {lay : Layout N L β} {w w' : Files N L β} {n m : N} {i j k : ℕ} {d : N → Option ℕ}

/-- Whatever the directory may be once power has failed, what is read is what was renamed up to some
time, whole, and the files that are being written are others. -/
structure Sound [DecidableEq N] (lay : Layout N L β) (w : Files N L β) : Prop where
  bounds : ∀ d k, (d, k) ∈ w.states → w.lasting ≤ k ∧ k ≤ w.log.length
  reads : ∀ d k, (d, k) ∈ w.states → ∀ n, lay.final n →
    (d n).map w.data = (lastOf (w.log.take k) n).map lay.bytes
  kept : ∀ d k, (d, k) ∈ w.states → ∀ n i, lay.final n → d n = some i → w.kept i = true
  apart : ∀ d k, (d, k) ∈ w.states → ∀ n i, lay.final n → d n = some i →
    ∀ m, w.dir m = some i → lay.final m
  single : ∀ d k, (d, k) ∈ w.states → ∀ m n i, d m = some i → d n = some i → m = n
  old : ∀ d k, (d, k) ∈ w.states → ∀ n i, d n = some i → i < w.next

namespace Sound

variable [DecidableEq N]

theorem here (h : Sound lay w) (hn : lay.final n) :
    (w.dir n).map w.data = (lastOf w.log n).map lay.bytes := by
  simpa using h.reads w.dir w.log.length List.mem_cons_self n hn

/-- There is nothing yet. -/
theorem of_empty (hdir : ∀ n, w.dir n = none) (hpast : w.past = []) (hlog : w.log = [])
    (hlasting : w.lasting = 0) : Sound lay w := by
  have hstates : ∀ d k, (d, k) ∈ w.states → (∀ n, d n = none) ∧ k = 0 := by
    intro d k hd
    rw [Files.states, hpast, hlog] at hd
    obtain ⟨rfl, rfl⟩ := Prod.mk.inj (List.mem_singleton.mp hd)
    exact ⟨hdir, rfl⟩
  have hnone : ∀ d k, (d, k) ∈ w.states → ∀ n i, d n ≠ some i := fun d k hd n i hi ↦
    nomatch ((hstates d k hd).1 n).symm.trans hi
  refine ⟨fun d k hd ↦ ?_, fun d k hd n _ ↦ ?_, fun d k hd n i _ hi ↦ absurd hi (hnone d k hd n i),
    fun d k hd n i _ hi ↦ absurd hi (hnone d k hd n i),
    fun d k hd m n i hi ↦ absurd hi (hnone d k hd m i), fun d k hd n i hi ↦
      absurd hi (hnone d k hd n i)⟩
  · obtain ⟨-, rfl⟩ := hstates d k hd
    exact ⟨hlasting.le, Nat.zero_le _⟩
  · rw [(hstates d k hd).1 n, hlog, List.take_nil]
    rfl

/-- The file that is being written is nowhere read. -/
theorem ne_of_final (h : Sound lay w) (hn : ¬ lay.final n) (hd : (d, k) ∈ w.states)
    (hm : lay.final m) (hi : d m = some i) : i ≠ w.fileAt n := by
  rintro rfl
  cases hfile : w.dir n with
  | none =>
    have hold := h.old d k hd m _ hi
    rw [Files.fileAt, hfile] at hold
    exact lt_irrefl _ hold
  | some j =>
    rw [Files.fileAt, hfile] at hi
    exact hn (h.apart d k hd m j hm hi n hfile)

/-- What is done to a file that is nowhere read may do anything to what it has in it. -/
theorem scribbled (h : Sound lay w) (hn : ¬ lay.final n) {data : ℕ → List β} {kept : ℕ → Bool}
    (hdata : ∀ i, w.dir n ≠ some i → data i = w.data i)
    (hkept : ∀ i, w.dir n ≠ some i → kept i = w.kept i) :
    Sound lay { w with data := data, kept := kept } := by
  have hother : ∀ d k, (d, k) ∈ w.states → ∀ m i, lay.final m → d m = some i →
      w.dir n ≠ some i := fun d k hd m i hm hi hfile ↦ hn (h.apart d k hd m i hm hi n hfile)
  refine ⟨h.bounds, fun d k hd m hm ↦ ?_, fun d k hd m i hm hi ↦ ?_, h.apart, h.single, h.old⟩
  · rw [← h.reads d k hd m hm]
    cases hi : d m with
    | none => rfl
    | some i => exact congrArg some (hdata i (hother d k hd m i hm hi))
  · exact (hkept i (hother d k hd m i hm hi)).trans (h.kept d k hd m i hm hi)

theorem written (h : Sound lay w) (hn : ¬ lay.final n) (bytes : List β) :
    Sound lay (w.written n bytes) :=
  h.scribbled hn (fun _ hi ↦ if_neg hi) fun _ hi ↦ if_neg hi

theorem synced (h : Sound lay w) (hn : ¬ lay.final n) : Sound lay (w.synced n) :=
  h.scribbled hn (fun _ _ ↦ rfl) fun _ hi ↦ if_neg hi

/-- The directory changes: what has been read stays as it is, and is not what is being written. -/
theorem changed (h : Sound lay w) (hstates : w'.states = (w'.dir, w'.log.length) :: w.states)
    (hlasting : w'.lasting = w.lasting) (hlog : w.log <+: w'.log) (hnext : w.next ≤ w'.next)
    (hthere : ∀ d k, (d, k) ∈ w.states → ∀ n i, lay.final n → d n = some i →
      w'.data i = w.data i ∧ w'.kept i = true ∧ ∀ m, w'.dir m = some i → lay.final m)
    (hreads : ∀ n, lay.final n → (w'.dir n).map w'.data = (lastOf w'.log n).map lay.bytes)
    (hkept : ∀ n i, lay.final n → w'.dir n = some i → w'.kept i = true)
    (hsingle : ∀ m n i, w'.dir m = some i → w'.dir n = some i → m = n)
    (hold : ∀ n i, w'.dir n = some i → i < w'.next) : Sound lay w' := by
  have hlength := hlog.length_le
  have hlast := (h.bounds w.dir w.log.length List.mem_cons_self).1
  refine ⟨fun d k hd ↦ ?_, fun d k hd n hn ↦ ?_, fun d k hd n i hn hi ↦ ?_,
    fun d k hd n i hn hi m hm ↦ ?_, fun d k hd m n i hm hn ↦ ?_, fun d k hd n i hi ↦ ?_⟩
  -- The directory is what it is now, or what it may have been before.
  all_goals
    rw [hstates] at hd
    rcases List.mem_cons.mp hd with heq | hd
  · cases heq
    exact ⟨by omega, le_rfl⟩
  · have := h.bounds d k hd
    exact ⟨by omega, by omega⟩
  · cases heq
    rw [List.take_length]
    exact hreads n hn
  · have htake : w'.log.take k = w.log.take k := by
      obtain ⟨more, hmore⟩ := hlog
      rw [← hmore, List.take_append_of_le_length (h.bounds d k hd).2]
    rw [htake, ← h.reads d k hd n hn]
    cases hi : d n with
    | none => rfl
    | some i => exact congrArg some (hthere d k hd n i hn hi).1
  · cases heq
    exact hkept n i hn hi
  · exact (hthere d k hd n i hn hi).2.1
  · cases heq
    exact hsingle m n i hm hi ▸ hn
  · exact (hthere d k hd n i hn hi).2.2 m hm
  · cases heq
    exact hsingle m n i hm hn
  · exact h.single d k hd m n i hm hn
  · cases heq
    exact hold n i hi
  · exact lt_of_lt_of_le (h.old d k hd n i hi) hnext

/-- No name but its own has the file that is opened. -/
theorem eq_of_fileAt (h : Sound lay w) (hm : w.dir m = some (w.fileAt n)) : m = n := by
  have hhere : (w.dir, w.log.length) ∈ w.states := List.mem_cons_self
  cases hfile : w.dir n with
  | none =>
    have hold := h.old _ _ hhere m _ hm
    rw [Files.fileAt, hfile] at hold
    exact absurd hold (lt_irrefl _)
  | some j =>
    rw [Files.fileAt, hfile] at hm
    exact h.single _ _ hhere m n j hm hfile

theorem opened (h : Sound lay w) (hn : ¬ lay.final n) : Sound lay (w.opened n) := by
  have hhere : (w.dir, w.log.length) ∈ w.states := List.mem_cons_self
  have hdir : ∀ m i, (w.opened n).dir m = some i →
      m = n ∧ i = w.fileAt n ∨ m ≠ n ∧ w.dir m = some i := by
    intro m i hi
    by_cases hm : m = n
    · subst hm
      exact Or.inl ⟨rfl, (Option.some_inj.mp ((Function.update_self m _ _).symm.trans hi)).symm⟩
    · exact Or.inr ⟨hm, (Function.update_of_ne hm _ _).symm.trans hi⟩
  -- What has been read is another file, so that it keeps what it has in it.
  have hthere : ∀ d k, (d, k) ∈ w.states → ∀ m i, lay.final m → d m = some i →
      (w.opened n).data i = w.data i ∧ (w.opened n).kept i = w.kept i := fun d k hd m i hm hi ↦
    have hne := h.ne_of_final hn hd hm hi
    ⟨Function.update_of_ne hne _ _, Function.update_of_ne hne _ _⟩
  refine h.changed rfl rfl (List.prefix_refl _) (le_max_left _ _) (fun d k hd m i hm hi ↦ ?_)
    (fun m hm ↦ ?_) (fun m i hm hi ↦ ?_) (fun m m' i hm hm' ↦ ?_) fun m i hi ↦ ?_
  · obtain ⟨hdata, hkept⟩ := hthere d k hd m i hm hi
    refine ⟨hdata, hkept.trans (h.kept d k hd m i hm hi), fun m' hm' ↦ ?_⟩
    rcases hdir m' i hm' with ⟨-, hfile⟩ | ⟨-, hm'⟩
    · exact absurd hfile (h.ne_of_final hn hd hm hi)
    · exact h.apart d k hd m i hm hi m' hm'
  · have hm' : m ≠ n := by
      rintro rfl
      exact hn hm
    have hsame : (w.opened n).dir m = w.dir m := Function.update_of_ne hm' _ _
    rw [hsame, show (w.opened n).log = w.log from rfl, ← h.here hm]
    cases hi : w.dir m with
    | none => rfl
    | some i => exact congrArg some (hthere _ _ hhere m i hm hi).1
  · rcases hdir m i hi with ⟨rfl, -⟩ | ⟨-, hi⟩
    · exact absurd hm hn
    · exact (hthere _ _ hhere m i hm hi).2.trans (h.kept _ _ hhere m i hm hi)
  · rcases hdir m i hm with ⟨rfl, rfl⟩ | ⟨-, hfile⟩
    · rcases hdir m' _ hm' with ⟨rfl, -⟩ | ⟨-, hfile'⟩
      · rfl
      · exact (h.eq_of_fileAt hfile').symm
    · rcases hdir m' i hm' with ⟨rfl, rfl⟩ | ⟨-, hfile'⟩
      · exact h.eq_of_fileAt hfile
      · exact h.single _ _ hhere m m' i hfile hfile'
  · rcases hdir m i hi with ⟨-, rfl⟩ | ⟨-, hi⟩
    · exact lt_of_lt_of_le (Nat.lt_succ_self _) (le_max_right _ _)
    · exact lt_of_lt_of_le (h.old _ _ hhere m i hi) (le_max_left _ _)

/-- What is renamed has to be whole and on the disk. -/
theorem renamed {src dst : N} {update : L} (h : Sound lay w) (hsrc : ¬ lay.final src)
    (hdst : lay.final dst) (hfile : w.dir src = some i) (hdata : w.data i = lay.bytes update)
    (hkept : w.kept i = true) : Sound lay (w.renamed src dst update) := by
  have hne : dst ≠ src := by
    rintro rfl
    exact hsrc hdst
  have hhere : (w.dir, w.log.length) ∈ w.states := List.mem_cons_self
  have hw : w.renamed src dst update = { w with
      dir := Function.update (Function.update w.dir dst (some i)) src none
      past := w.states
      log := w.log ++ [(dst, update)] } := by rw [Files.renamed, hfile]
  rw [hw]
  -- Only the new name has the file, and no other name has lost its own.
  have hdir : ∀ m j, Function.update (Function.update w.dir dst (some i)) src none m = some j →
      m = dst ∧ j = i ∨ m ≠ dst ∧ m ≠ src ∧ w.dir m = some j := by
    intro m j hj
    by_cases hm : m = src
    · subst hm
      simp at hj
    · rw [Function.update_of_ne hm] at hj
      by_cases hm' : m = dst
      · subst hm'
        rw [Function.update_self] at hj
        exact Or.inl ⟨rfl, (Option.some_inj.mp hj).symm⟩
      · rw [Function.update_of_ne hm'] at hj
        exact Or.inr ⟨hm', hm, hj⟩
  refine h.changed rfl rfl (List.prefix_append _ _) le_rfl (fun d k hd m j hm hj ↦ ?_)
    (fun m hm ↦ ?_) (fun m j hm hj ↦ ?_) (fun m n j hm hn ↦ ?_) fun m j hj ↦ ?_
  · refine ⟨rfl, h.kept d k hd m j hm hj, fun m' hm' ↦ ?_⟩
    rcases hdir m' j hm' with ⟨rfl, -⟩ | ⟨-, -, hm'⟩
    · exact hdst
    · exact h.apart d k hd m j hm hj m' hm'
  · have hmsrc : m ≠ src := by
      rintro rfl
      exact hsrc hm
    dsimp only
    rw [Function.update_of_ne hmsrc]
    by_cases hmdst : m = dst
    · subst hmdst
      simp [hdata]
    · rw [Function.update_of_ne hmdst, lastOf_concat_of_ne (Ne.symm hmdst), ← h.here hm]
  · rcases hdir m j hj with ⟨-, rfl⟩ | ⟨-, -, hj⟩
    · exact hkept
    · exact h.kept _ _ hhere m j hm hj
  · rcases hdir m j hm with ⟨rfl, rfl⟩ | ⟨-, hmsrc, hfile₁⟩
    · rcases hdir n _ hn with ⟨rfl, -⟩ | ⟨-, hnsrc, hfile₂⟩
      · rfl
      · exact absurd (h.single _ _ hhere _ _ _ hfile₂ hfile) hnsrc
    · rcases hdir n j hn with ⟨rfl, rfl⟩ | ⟨-, -, hfile₂⟩
      · exact absurd (h.single _ _ hhere _ _ _ hfile₁ hfile) hmsrc
      · exact h.single _ _ hhere m n j hfile₁ hfile₂
  · rcases hdir m j hj with ⟨-, rfl⟩ | ⟨-, -, hj⟩
    · exact h.old _ _ hhere src j hfile
    · exact h.old _ _ hhere m j hj

theorem settled (h : Sound lay w) : Sound lay w.settled := by
  have hstates : ∀ d k, (d, k) ∈ w.settled.states → (d, k) ∈ w.states := by
    intro d k hd
    rw [List.mem_singleton.mp hd]
    exact List.mem_cons_self
  refine ⟨fun d k hd ↦ ?_, fun d k hd ↦ h.reads d k (hstates d k hd),
    fun d k hd ↦ h.kept d k (hstates d k hd), fun d k hd ↦ h.apart d k (hstates d k hd),
    fun d k hd ↦ h.single d k (hstates d k hd), fun d k hd ↦ h.old d k (hstates d k hd)⟩
  cases List.mem_singleton.mp hd
  exact ⟨le_rfl, le_rfl⟩

/-- **Power may fail at any time.** -/
theorem lost (h : Sound lay w) (hlost : w.Lost w') : Sound lay w' := by
  obtain ⟨d, k, hd, hdir, hpast, hlog, hlasting, hnext, hdata⟩ := hlost
  have hk := h.bounds d k hd
  have hlength : w'.log.length = k := by rw [hlog, List.length_take, Nat.min_eq_left hk.2]
  have hstates : ∀ d' k', (d', k') ∈ w'.states → d' = d ∧ k' = k := by
    intro d' k' hd'
    rw [Files.states, hpast, hdir, hlength] at hd'
    exact Prod.mk.inj (List.mem_singleton.mp hd')
  refine ⟨fun d' k' hd' ↦ ?_, fun d' k' hd' n hn ↦ ?_, fun d' k' hd' n i hn hi ↦ ?_,
    fun d' k' hd' n i hn hi m hm ↦ ?_, fun d' k' hd' m n i hm hi ↦ ?_, fun d' k' hd' n i hi ↦ ?_⟩
  all_goals obtain ⟨rfl, rfl⟩ := hstates d' k' hd'
  · exact ⟨hlasting.le, hlength.ge⟩
  · rw [hlog, List.take_take, Nat.min_self, ← h.reads d' k' hd n hn]
    cases hi : d' n with
    | none => rfl
    | some i => exact congrArg some (hdata i (h.kept d' k' hd n i hn hi)).1
  · exact (hdata i (h.kept d' k' hd n i hn hi)).2
  · rw [hdir] at hm
    exact h.single d' k' hd m n i hm hi ▸ hn
  · exact h.single d' k' hd m n i hm hi
  · exact hnext ▸ h.old d' k' hd n i hi

end Sound

/-! ## What others do -/

/-- The names a call is about. -/
def Call.Of (own : N → Prop) : Call C N L β → Prop
  | .still _ | .syncDir => True
  | .openTruncated n | .write n _ | .syncFile n => own n
  | .rename src dst _ => own src ∧ own dst

/-- What may happen beside a program that has names of its own. -/
structure Beside (own : N → Prop) (w w' : Files N L β) : Prop where
  dir : ∀ n, own n → w'.dir n = w.dir n
  data : ∀ n i, own n → w.dir n = some i → w'.data i = w.data i ∧ w'.kept i = w.kept i
  log : ∃ more, w'.log = w.log ++ more ∧ ∀ u ∈ more, ¬ own u.1
  lasting : w.lasting ≤ w'.lasting

section Beside

variable {own other : N → Prop}

/-- Nothing is renamed. -/
theorem adds_nothing (own : N → Prop) (h : w'.log = w.log) :
    ∃ more, w'.log = w.log ++ more ∧ ∀ u ∈ more, ¬ own u.1 := ⟨[], by simp [h], nofun⟩

theorem Beside.refl (own : N → Prop) (w : Files N L β) : Beside own w w :=
  ⟨fun _ _ ↦ rfl, fun _ _ _ _ ↦ ⟨rfl, rfl⟩, adds_nothing own rfl, le_rfl⟩

variable [DecidableEq N]

theorem Sound.dir_ne (h : Sound lay w) (hm : w.dir m = some i) (hmn : m ≠ n) :
    w.dir n ≠ some i := fun hn ↦ hmn (h.single _ _ List.mem_cons_self m n i hm hn)

theorem Sound.beside_written (h : Sound lay w) (hn : ¬ own n) (bytes : List β) :
    Beside own w (w.written n bytes) := by
  refine ⟨fun _ _ ↦ rfl, fun m i hm hi ↦ ?_, adds_nothing own rfl, le_rfl⟩
  have hne := h.dir_ne hi (n := n) (by rintro rfl; exact hn hm)
  exact ⟨if_neg hne, if_neg hne⟩

/-- **What is asked about other names** happens beside the program. -/
theorem Sound.beside_does (h : Sound lay w) {q : Call C N L β} (hq : q.Of other)
    (hother : ∀ n, own n → ¬ other n) : Beside own w (w.does q) := by
  have hbound := (h.bounds w.dir w.log.length List.mem_cons_self).1
  cases q with
  | still what => exact Beside.refl own w
  | openTruncated n =>
    have hne : ∀ m, own m → m ≠ n := fun m hm hmn ↦ hother m hm (hmn ▸ hq)
    refine ⟨fun m hm ↦ Function.update_of_ne (hne m hm) _ _, fun m i hm hi ↦ ?_,
      adds_nothing own rfl, le_rfl⟩
    have hfile : i ≠ w.fileAt n := fun hfile ↦ hne m hm (h.eq_of_fileAt (hfile ▸ hi))
    exact ⟨Function.update_of_ne hfile _ _, Function.update_of_ne hfile _ _⟩
  | write n bytes => exact h.beside_written (fun hn ↦ hother n hn hq) bytes
  | syncFile n =>
    refine ⟨fun _ _ ↦ rfl, fun m i hm hi ↦ ⟨rfl, if_neg ?_⟩, adds_nothing own rfl, le_rfl⟩
    exact h.dir_ne hi (by rintro rfl; exact hother m hm hq)
  | rename src dst update =>
    rw [Files.does, Files.renamed]
    split
    · exact Beside.refl own w
    · refine ⟨fun m hm ↦ ?_, fun _ _ _ _ ↦ ⟨rfl, rfl⟩, ⟨[(dst, update)], rfl, ?_⟩, le_rfl⟩
      · have hsrc : m ≠ src := by
          rintro rfl
          exact hother m hm hq.1
        have hdst : m ≠ dst := by
          rintro rfl
          exact hother m hm hq.2
        exact (Function.update_of_ne hsrc _ _).trans (Function.update_of_ne hdst _ _)
      · intro u hu
        rw [List.mem_singleton.mp hu]
        exact fun hown ↦ hother dst hown hq.2
  | syncDir => exact ⟨fun _ _ ↦ rfl, fun _ _ _ _ ↦ ⟨rfl, rfl⟩, adds_nothing own rfl, hbound⟩

theorem Sound.beside_answers (h : Sound lay w) {q : Call C N L β} {a : Except ε Unit}
    (hq : q.Of other) (hother : ∀ n, own n → ¬ other n) (ha : w.Answers q a w') :
    Beside own w w' := by
  have hdoes := h.beside_does hq hother
  cases a with
  | ok a =>
    obtain rfl : w' = w.does q := ha
    exact hdoes
  | error e =>
    have hsame : w' = w ∨ w' = w.does q → Beside own w w' := by
      rintro (rfl | rfl)
      · exact Beside.refl own w'
      · exact hdoes
    cases q with
    | write n bytes =>
      obtain ⟨part, -, rfl⟩ : ∃ part, part <+: bytes ∧ w' = w.written n part := ha
      exact h.beside_written (fun hn ↦ hother n hn hq) part
    | still what => exact hsame ha
    | openTruncated n => exact hsame ha
    | syncFile n => exact hsame ha
    | rename src dst update => exact hsame ha
    | syncDir => exact hsame ha

end Beside

/-! ## What is there for good -/

/-- What was on the disk for good is so still. -/
structure Endures (w w' : Files N L β) : Prop where
  lasting : w.lasting ≤ w'.lasting
  log : w'.log.take w.lasting = w.log.take w.lasting

theorem Endures.refl (w : Files N L β) : Endures w w := ⟨le_rfl, rfl⟩

theorem Endures.trans {w₁ w₂ w₃ : Files N L β} (h : Endures w₁ w₂) (h' : Endures w₂ w₃) :
    Endures w₁ w₃ := by
  refine ⟨h.lasting.trans h'.lasting, ?_⟩
  rw [← h.log, ← Nat.min_eq_left h.lasting, ← List.take_take, ← List.take_take, h'.log]

theorem Beside.endures {own : N → Prop} (h : Beside own w w') (hw : w.lasting ≤ w.log.length) :
    Endures w w' := by
  obtain ⟨more, hmore, -⟩ := h.log
  exact ⟨h.lasting, by rw [hmore, List.take_append_of_le_length hw]⟩

section Endures

variable [DecidableEq N]

theorem Sound.lasting_le (h : Sound lay w) : w.lasting ≤ w.log.length :=
  (h.bounds w.dir w.log.length List.mem_cons_self).1

theorem Sound.endures_answers (h : Sound lay w) {q : Call C N L β} {a : Except ε Unit}
    (ha : w.Answers q a w') : Endures w w' := by
  have hall : q.Of fun _ ↦ True := by cases q <;> simp [Call.Of]
  have hbeside : Beside (fun _ ↦ False) w w' := h.beside_answers hall (fun _ hn ↦ hn.elim) ha
  exact hbeside.endures h.lasting_le

theorem Sound.endures_lost (h : Sound lay w) (hlost : w.Lost w') : Endures w w' := by
  obtain ⟨d, k, hd, -, -, hlog, hlasting, -⟩ := hlost
  have hk := (h.bounds d k hd).1
  exact ⟨hlasting ▸ hk, by rw [hlog, List.take_take, Nat.min_eq_left hk]⟩

/-- **Whatever is there after a failure of power is what had been renamed up to some time**, which
is not before what was on the disk for good. -/
theorem Sound.exists_survivors (h : Sound lay w) (hw' : w' = w ∨ w.Lost w') :
    ∃ k, w.lasting ≤ k ∧ ∀ n, lay.final n → w'.read n = (lastOf (w.log.take k) n).map lay.bytes := by
  rcases hw' with rfl | hlost
  · exact ⟨w'.log.length, h.lasting_le, fun n hn ↦ by
      rw [List.take_length]
      exact h.here hn⟩
  · obtain ⟨d, k, hd, hdir, -, -, -, -, hdata⟩ := hlost
    refine ⟨k, (h.bounds d k hd).1, fun n hn ↦ ?_⟩
    rw [← h.reads d k hd n hn, Files.read, hdir]
    cases hi : d n with
    | none => rfl
    | some i => exact congrArg some (hdata i (h.kept d k hd n i hn hi)).1

end Endures

/-! ## One program that replaces a file -/

section Rules

open Dialogue Errand

variable [DecidableEq N] {S : Type} {own : N → Prop} {tmp dst : N} {update : L} {bytes : List β}
  {E : Env (Call C N L β) (fun _ ↦ Except ε Unit) (Files N L β × K)}
  {I P P' : Files N L β × K → Prop}

/-- A program with names of its own, beside which nothing happens to them. -/
structure Owns (own : N → Prop)
    (E : Env (Call C N L β) (fun _ ↦ Except ε Unit) (Files N L β × K)) : Prop where
  answers : ∀ q w a w', E.answers q w a w' → w.1.Answers q a w'.1 ∧ w'.2 = w.2
  others : ∀ w w', E.others w w' → Beside own w.1 w'.1

/-- A property that is about what has been renamed, and does not mind how the files are made. -/
structure View (lay : Layout N L β)
    (E : Env (Call C N L β) (fun _ ↦ Except ε Unit) (Files N L β × K))
    (I P : Files N L β × K → Prop) : Prop where
  inv : ∀ w, P w → I w
  sound : ∀ w, P w → Sound lay w.1
  stable : Stable E P
  kept : ∀ w w', P w → Sound lay w'.1 → w'.1.log = w.1.log → w.1.lasting ≤ w'.1.lasting →
    w'.2 = w.2 → P w'

/-- The file under the name has this in it, and on the disk if that is asked. -/
def Has (n : N) (bytes : List β) (kept : Prop) (w : Files N L β) : Prop :=
  ∃ i, w.dir n = some i ∧ w.data i = bytes ∧ (kept → w.kept i = true)

omit [DecidableEq N] in
theorem Beside.has {kept : Prop} (h : Beside own w w') (hn : own n) (hw : Has n bytes kept w) :
    Has n bytes kept w' := by
  obtain ⟨i, hi, hdata, hkept⟩ := hw
  obtain ⟨hdata', hkept'⟩ := h.data n i hn hi
  exact ⟨i, (h.dir n hn).trans hi, hdata'.trans hdata, fun hk ↦ hkept'.trans (hkept hk)⟩

/-- The file has been renamed, and its directory has not been touched by its owner since. -/
def Landed (own : N → Prop) (dst : N) (update : L) (w : Files N L β) : Prop :=
  ∃ before after, w.log = before ++ (dst, update) :: after ∧ ∀ u ∈ after, ¬ own u.1

/-- And that is on the disk for good. -/
def Settled (own : N → Prop) (dst : N) (update : L) (w : Files N L β) : Prop :=
  ∃ before after, w.log = before ++ (dst, update) :: after ∧ (∀ u ∈ after, ¬ own u.1)
    ∧ before.length < w.lasting

omit [DecidableEq N] in
/-- What is on the disk for good ends with what the owner has done last. -/
theorem Settled.exists_take (h : Settled own dst update w) (hk : w.lasting ≤ k) :
    ∃ before after after', w.log = before ++ [(dst, update)] ++ after
      ∧ w.log.take k = before ++ [(dst, update)] ++ after' ∧ (∀ u ∈ after, ¬ own u.1)
      ∧ ∀ u ∈ after', ¬ own u.1 := by
  obtain ⟨before, after, hlog, hafter, hlasting⟩ := h
  have hlog' : w.log = (before ++ [(dst, update)]) ++ after := by simp [hlog]
  refine ⟨before, after, after.take (k - (before.length + 1)), hlog', ?_, hafter,
    fun u hu ↦ hafter u (List.mem_of_mem_take hu)⟩
  rw [hlog', List.take_append, List.take_of_length_le (by simp; omega)]
  simp

theorem Settled.lastOf_take (h : Settled own dst update w) (hdst : own dst) (hk : w.lasting ≤ k) :
    lastOf (w.log.take k) dst = some update := by
  obtain ⟨before, after, after', -, htake, -, hafter'⟩ := h.exists_take hk
  rw [htake, lastOf_append fun u hu heq ↦ hafter' u hu (heq ▸ hdst), lastOf_concat_self]

omit [DecidableEq N] in
theorem Beside.landed (h : Beside own w w') (hw : Landed own dst update w) :
    Landed own dst update w' := by
  obtain ⟨before, after, hlog, hafter⟩ := hw
  obtain ⟨more, hmore, hothers⟩ := h.log
  refine ⟨before, after ++ more, by simp [hmore, hlog], fun u hu ↦ ?_⟩
  exact (List.mem_append.mp hu).elim (hafter u) (hothers u)

omit [DecidableEq N] in
theorem Beside.settled (h : Beside own w w') (hw : Settled own dst update w) :
    Settled own dst update w' := by
  obtain ⟨before, after, hlog, hafter, hlasting⟩ := hw
  obtain ⟨more, hmore, hothers⟩ := h.log
  refine ⟨before, after ++ more, by simp [hmore, hlog], fun u hu ↦ ?_,
    lt_of_lt_of_le hlasting h.lasting⟩
  exact (List.mem_append.mp hu).elim (hafter u) (hothers u)

/-- A call whose error ends the program. -/
def call (q : Call C N L β) : Errand (Call C N L β) (fun _ ↦ Except ε Unit) S ε Unit :=
  ask q >>= lift

variable {s : S} {α : Type} {w : Files N L β × K} {post : Except ε α → S → Files N L β × K → Prop}
  {f : Unit → Errand (Call C N L β) (fun _ ↦ Except ε Unit) S ε α} {q : Call C N L β}
  {X Y : Files N L β × K → Prop}

theorem meets_call (howns : Owns own E) (hlasts : Lasting E I post) (hstable : Stable E X)
    (hinv : ∀ w, X w → I w) (hw : X w)
    (hok : ∀ w w', X w → w'.1 = w.1.does q → w'.2 = w.2 → Meets E I post (f ()) s w')
    (herror : ∀ e w w', X w → w.1.Fails q w'.1 → w'.2 = w.2 → post (.error e) s w') :
    Meets E I post (call q >>= f) s w := by
  refine safe_ask hstable hw hinv fun v a v' hv ha ↦ ?_
  obtain ⟨hanswer, hrest⟩ := howns.answers q v a v' ha
  cases a with
  | ok a => exact hok v v' hv hanswer hrest
  | error e => exact meets_throw hlasts (herror e v v' hv hanswer hrest)

/-- A call that has done all that was asked or nothing, if it fails. -/
theorem meets_whole (howns : Owns own E) (hlasts : Lasting E I post) (hstable : Stable E X)
    (hinv : ∀ w, X w → I w) (hw : X w)
    (hfails : ∀ v v' : Files N L β, v.Fails q v' → v' = v ∨ v' = v.does q)
    (hdoes : ∀ w w', X w → w'.1 = w.1.does q → w'.2 = w.2 → Y w')
    (hok : ∀ w, Y w → Meets E I post (f ()) s w)
    (herror : ∀ e w, X w ∨ Y w → post (.error e) s w) :
    Meets E I post (call q >>= f) s w := by
  refine meets_call howns hlasts hstable hinv hw (fun v v' hv h₁ h₂ ↦ hok v' (hdoes v v' hv h₁ h₂))
    fun e v v' hv hfailed h₂ ↦ ?_
  rcases hfails v.1 v'.1 hfailed with h₁ | h₁
  · exact Prod.ext h₁ h₂ ▸ herror e v (Or.inl hv)
  · exact herror e v' (Or.inr (hdoes v v' hv h₁ h₂))

/-- A call that leaves the files as they are. -/
theorem meets_still {what : C} (howns : Owns own E) (hlasts : Lasting E I post)
    (hstable : Stable E X) (hinv : ∀ w, X w → I w) (hw : X w)
    (hok : ∀ w, X w → Meets E I post (f ()) s w) (herror : ∀ e w, X w → post (.error e) s w) :
    Meets E I post (call (.still what) >>= f) s w := by
  refine meets_whole howns hlasts hstable hinv hw (fun _ _ h ↦ h) (fun v v' hv h₁ h₂ ↦ ?_) hok
    fun e v hv ↦ herror e v (or_self_iff.mp hv)
  exact (Prod.ext h₁ h₂ : v' = v) ▸ hv

/-- **The directory is put on the disk**, and with it all that has been renamed. -/
theorem meets_syncDir (hP : View lay E I P) (howns : Owns own E) (hlasts : Lasting E I post)
    (hw : P w ∧ Landed own dst update w.1)
    (hok : ∀ w, P w → Settled own dst update w.1 → Meets E I post (f ()) s w)
    (herror : ∀ e w, P w → post (.error e) s w) :
    Meets E I post (call .syncDir >>= f) s w := by
  have hstable : Stable E fun w ↦ P w ∧ Landed own dst update w.1 := fun w w' hothers h ↦
    ⟨hP.stable w w' hothers h.1, (howns.others w w' hothers).landed h.2⟩
  refine meets_whole (Y := fun w ↦ P w ∧ Settled own dst update w.1) howns hlasts hstable
    (fun v hv ↦ hP.inv v hv.1) hw (fun _ _ h ↦ h) (fun v v' hv h₁ h₂ ↦ ?_)
    (fun v hv ↦ hok v hv.1 hv.2) fun e v hv ↦ herror e v (hv.elim And.left And.left)
  obtain ⟨hv, before, after, hlog, hafter⟩ := hv
  have hsound := hP.sound v hv
  refine ⟨hP.kept v v' hv (h₁ ▸ hsound.settled) (by rw [h₁]; rfl) (h₁ ▸ hsound.lasting_le) h₂,
    before, after, ?_, hafter, ?_⟩
  · rw [h₁]
    exact hlog
  · rw [h₁]
    simp [Files.does, Files.settled, hlog]

variable (hP : View lay E I P) (howns : Owns own E) (hlasts : Lasting E I post)
  (htmp : own tmp) (hhid : ¬ lay.final tmp)

include hP howns

theorem View.has (htmp : own tmp) (bytes : List β) (kept : Prop) :
    Stable E fun w ↦ P w ∧ Has tmp bytes kept w.1 := fun w w' hothers h ↦
  ⟨hP.stable w w' hothers h.1, (howns.others w w' hothers).has htmp h.2⟩

include hlasts hhid

theorem meets_openTruncated (hw : P w)
    (hok : ∀ w, P w → Has tmp [] False w.1 → Meets E I post (f ()) s w)
    (herror : ∀ e w, P w → post (.error e) s w) :
    Meets E I post (call (.openTruncated tmp) >>= f) s w := by
  refine meets_whole (Y := fun w ↦ P w ∧ Has tmp [] False w.1) howns hlasts hP.stable hP.inv hw
    (fun _ _ h ↦ h) (fun v v' hv h₁ h₂ ↦ ?_) (fun v hv ↦ hok v hv.1 hv.2)
    fun e v hv ↦ herror e v (hv.elim id And.left)
  refine ⟨hP.kept v v' hv (h₁ ▸ (hP.sound v hv).opened hhid) (by rw [h₁]; rfl) (by rw [h₁]; rfl) h₂,
    v.1.fileAt tmp, ?_, ?_, False.elim⟩
  · rw [h₁]
    exact Function.update_self _ _ _
  · rw [h₁]
    exact Function.update_self _ _ _

include htmp

theorem meets_write (hw : P w ∧ Has tmp [] False w.1)
    (hok : ∀ w, P w → Has tmp bytes False w.1 → Meets E I post (f ()) s w)
    (herror : ∀ e w, P w → post (.error e) s w) :
    Meets E I post (call (.write tmp bytes) >>= f) s w := by
  have hwritten : ∀ (v v' : Files N L β × K) part, P v → v'.1 = v.1.written tmp part →
      v'.2 = v.2 → P v' := fun v v' part hv h₁ h₂ ↦
    hP.kept v v' hv (h₁ ▸ (hP.sound v hv).written hhid part) (by rw [h₁]; rfl) (by rw [h₁]; rfl) h₂
  refine meets_call howns hlasts (hP.has howns htmp [] False) (fun v hv ↦ hP.inv v hv.1) hw
    (fun v v' hv h₁ h₂ ↦ ?_) fun e v v' hv hfails h₂ ↦ ?_
  · obtain ⟨hv, i, hi, hdata, -⟩ := hv
    refine hok v' (hwritten v v' bytes hv h₁ h₂) ⟨i, ?_, ?_, False.elim⟩
    · rw [h₁]
      exact hi
    · rw [h₁]
      simp [Files.does, Files.written, hi, hdata]
  · obtain ⟨part, -, h₁⟩ := hfails
    exact herror e v' (hwritten v v' part hv.1 h₁ h₂)

theorem meets_syncFile (hw : P w ∧ Has tmp bytes False w.1)
    (hok : ∀ w, P w → Has tmp bytes True w.1 → Meets E I post (f ()) s w)
    (herror : ∀ e w, P w → post (.error e) s w) :
    Meets E I post (call (.syncFile tmp) >>= f) s w := by
  refine meets_whole (Y := fun w ↦ P w ∧ Has tmp bytes True w.1) howns hlasts
    (hP.has howns htmp bytes False) (fun v hv ↦ hP.inv v hv.1) hw (fun _ _ h ↦ h)
    (fun v v' hv h₁ h₂ ↦ ?_) (fun v hv ↦ hok v hv.1 hv.2)
    fun e v hv ↦ herror e v (hv.elim And.left And.left)
  obtain ⟨hv, i, hi, hdata, -⟩ := hv
  refine ⟨hP.kept v v' hv (h₁ ▸ (hP.sound v hv).synced hhid) (by rw [h₁]; rfl) (by rw [h₁]; rfl) h₂,
    i, ?_, ?_, fun _ ↦ ?_⟩
  · rw [h₁]
    exact hi
  · rw [h₁]
    exact hdata
  · rw [h₁]
    exact if_pos hi

/-- From the rename on, the property may be another. -/
theorem meets_rename (hdst : lay.final dst)
    (hland : ∀ w w', P w → Sound lay w'.1 → w'.1.log = w.1.log ++ [(dst, update)] →
      w'.1.lasting = w.1.lasting → w'.2 = w.2 → P' w')
    (hw : P w ∧ Has tmp (lay.bytes update) True w.1)
    (hok : ∀ w, P' w → Landed own dst update w.1 → Meets E I post (f ()) s w)
    (herror : ∀ e w, P w ∨ P' w → post (.error e) s w) :
    Meets E I post (call (.rename tmp dst update) >>= f) s w := by
  refine meets_whole (Y := fun w ↦ P' w ∧ Landed own dst update w.1) howns hlasts
    (hP.has howns htmp _ True) (fun v hv ↦ hP.inv v hv.1) hw (fun _ _ h ↦ h) ?_
    (fun v hv ↦ hok v hv.1 hv.2) fun e v hv ↦ herror e v (hv.imp And.left And.left)
  rintro v v' ⟨hv, i, hi, hdata, hkept⟩ h₁ h₂
  have hsound := (hP.sound v hv).renamed hhid hdst hi hdata (hkept trivial)
  have hfiles : v'.1 = { v.1 with
      dir := Function.update (Function.update v.1.dir dst (some i)) tmp none
      past := v.1.states
      log := v.1.log ++ [(dst, update)] } := by rw [h₁, Files.does, Files.renamed, hi]
  exact ⟨hland v v' hv (h₁ ▸ hsound) (by rw [hfiles]) (by rw [hfiles]) h₂,
    v.1.log, [], by rw [hfiles], nofun⟩

end Rules

end Replace
