import HydrationAPI.Helper.Daemon

/-!
# What filling does to the disk

Between the decision to fill and the answer, the worker and the fetch thread do two things to a
file: bytes of the remote object are written, and a span that failed is punched back out. `Kept`
says that nothing else happens, and where holes can appear; it composes, so the loop is followed
span by span.

The bytes are tracked by two *sources*. Every write in the queue and every write of a transfer of
this event comes from the first, so that a byte that changes in any file becomes one of it. Every
byte a good transfer leaves behind comes from the second, and so do the bytes that are held: what
is queued when a range is held does not touch it, or comes from that source too.
-/

namespace HydrationAPI

variable {V : Type*}

/-- Which version of the object the byte at some position of a file may come from. -/
abbrev Source (V : Type*) := FileId → ℕ → V → Prop

/-- Everything the write puts down satisfies the source. -/
def Write.From (S : Source V) (wr : Write V) : Prop :=
  ∀ x, wr.chunk.Covers x → S wr.file x wr.chunk.version

/-- Every transfer that can be made for the event puts down what satisfies the source. -/
def Calls.From (S : Source V) (c : Calls V) (id : FileId) (size : ℕ) : Prop :=
  ∀ span, span.Within size → (∀ k, ∀ ch ∈ ((c.attempt k).deliver id size span).chunks, (Write.mk id ch).From S)
    ∧ ∀ ch ∈ (c.retry.deliver id size span).chunks, (Write.mk id ch).From S

/-- The source that asks nothing. -/
def Source.any : Source V := fun _ _ _ ↦ True

theorem Source.from_any (ws : List (Write V)) : ∀ wr ∈ ws, wr.From Source.any :=
  fun _ _ _ _ ↦ trivial

theorem Calls.from_any (c : Calls V) (id : FileId) (size : ℕ) : c.From Source.any id size :=
  fun _ _ ↦ ⟨fun _ _ _ _ _ ↦ trivial, fun _ _ _ _ ↦ trivial⟩

/-- Every transfer that can be made for the event and ends well leaves bytes of the source. -/
def Calls.Leave (G : Source V) (c : Calls V) (id : FileId) (size : ℕ) : Prop :=
  ∀ span, span.Within size → (∀ k, ((c.attempt k).deliver id size span).Leaves (G id))
    ∧ (c.retry.deliver id size span).Leaves (G id)

theorem Calls.From.leave {S : Source V} {c : Calls V} {id : FileId} {size : ℕ}
    (h : c.From S id size) : c.Leave S id size :=
  fun span hs ↦ ⟨fun k ↦ Delivery.leaves_of_forall fun ch hch ↦ (h span hs).1 k ch hch,
    Delivery.leaves_of_forall fun ch hch ↦ (h span hs).2 ch hch⟩

/-- What is queued for the file touches none of the ranges, or comes from the source. -/
def World.Spares (G : Source V) (id : FileId) (r : Ranges) (w : World V) : Prop :=
  ∀ wr ∈ w.pending, wr.file = id → ∀ x, wr.chunk.Covers x → r.Mem x → G id x wr.chunk.version

theorem World.spares_of_from {G : Source V} {w : World V} (h : ∀ wr ∈ w.pending, wr.From G)
    (id : FileId) (r : Ranges) : w.Spares G id r := by
  rintro wr hwr rfl x hx -
  exact h wr hwr x hx

/-! ## Writes -/

namespace World

theorem apply_cells (disk : FileId → File V) (wr : Write V) (g : FileId) (x : ℕ) :
    (apply disk wr g).cells x = (disk g).cells x ∧ ¬(wr.file = g ∧ wr.chunk.Covers x)
      ∨ wr.file = g ∧ wr.chunk.Covers x ∧ (apply disk wr g).cells x = .remote wr.chunk.version := by
  rw [apply]
  rcases eq_or_ne g wr.file with rfl | hne
  · rw [Function.update_self, File.fill_cells]
    by_cases hx : wr.chunk.Covers x
    · rw [if_pos (File.inRange_iff.mpr hx)]
      exact Or.inr ⟨rfl, hx, rfl⟩
    · rw [if_neg (mt File.inRange_iff.mp hx)]
      exact Or.inl ⟨rfl, fun h ↦ hx h.2⟩
  · rw [Function.update_of_ne hne]
    exact Or.inl ⟨rfl, fun h ↦ hne h.1.symm⟩

/-- **A byte after a sequence of writes** is what it was, and then no write covered it, or what
one of the writes that covered it put there. -/
theorem foldl_apply_cells (ws : List (Write V)) (disk : FileId → File V) (g : FileId) (x : ℕ) :
    (((ws.foldl apply disk) g).cells x = (disk g).cells x
        ∧ ∀ wr ∈ ws, ¬(wr.file = g ∧ wr.chunk.Covers x))
      ∨ ∃ wr ∈ ws, wr.file = g ∧ wr.chunk.Covers x
        ∧ ((ws.foldl apply disk) g).cells x = .remote wr.chunk.version := by
  induction ws generalizing disk with
  | nil => exact Or.inl ⟨rfl, by simp⟩
  | cons wr ws ih =>
    rw [List.foldl_cons]
    rcases ih (apply disk wr) with ⟨heq, hno⟩ | ⟨wr', hmem, h⟩
    · rcases apply_cells disk wr g x with ⟨heq', hno'⟩ | ⟨hfile, hcov, hcell⟩
      · refine Or.inl ⟨heq.trans heq', fun wr' hwr' ↦ ?_⟩
        rcases List.mem_cons.mp hwr' with rfl | hwr'
        · exact hno'
        · exact hno wr' hwr'
      · exact Or.inr ⟨wr, List.mem_cons_self, hfile, hcov, heq.trans hcell⟩
    · exact Or.inr ⟨wr', List.mem_cons_of_mem _ hmem, h⟩

/-- After the writes of one file, a byte of it is what the last of them that covered it put
there. -/
theorem foldl_apply_lastAt (id : FileId) (cs : List (Chunk V)) (disk : FileId → File V) (x : ℕ) :
    (((cs.map (Write.mk id)).foldl apply disk) id).cells x
      = ((lastAt cs x).map Cell.remote).getD ((disk id).cells x) := by
  induction cs generalizing disk with
  | nil => rfl
  | cons c cs ih =>
    rw [List.map_cons, List.foldl_cons, ih, lastAt]
    cases lastAt cs x with
    | some v => rfl
    | none =>
      rcases apply_cells disk ⟨id, c⟩ id x with ⟨heq, hno⟩ | ⟨-, hx, heq⟩
      · rw [if_neg fun hx ↦ hno ⟨rfl, hx⟩]
        exact heq
      · rw [if_pos hx]
        exact heq

theorem foldl_apply_frame (ws : List (Write V)) (disk : FileId → File V) (g : FileId) :
    ((ws.foldl apply disk) g).marked = (disk g).marked
      ∧ ((ws.foldl apply disk) g).nodump = (disk g).nodump
      ∧ (disk g).size ≤ ((ws.foldl apply disk) g).size
      ∧ (disk g).mtime ≤ ((ws.foldl apply disk) g).mtime := by
  induction ws generalizing disk with
  | nil => exact ⟨rfl, rfl, le_rfl, le_rfl⟩
  | cons wr ws ih =>
    obtain ⟨h1, h2, h3, h4⟩ := ih (apply disk wr)
    have hstep : (apply disk wr g).marked = (disk g).marked
        ∧ (apply disk wr g).nodump = (disk g).nodump
        ∧ (disk g).size ≤ (apply disk wr g).size ∧ (disk g).mtime ≤ (apply disk wr g).mtime := by
      rw [apply]
      rcases eq_or_ne g wr.file with rfl | hne
      · rw [Function.update_self]
        exact ⟨File.fill_marked _ _ _ _ _, File.fill_nodump _ _ _ _ _,
          File.le_fill_size _ _ _ _ _, File.le_fill_mtime _ _ _ _ _⟩
      · rw [Function.update_of_ne hne]
        exact ⟨rfl, rfl, le_rfl, le_rfl⟩
    obtain ⟨h1', h2', h3', h4'⟩ := hstep
    rw [List.foldl_cons]
    exact ⟨h1.trans h1', h2.trans h2', h3'.trans h3, h4'.trans h4⟩

/-- Writes that lie within the first `n` bytes of a file do not extend it beyond them. -/
theorem foldl_apply_size_le {n : ℕ} {g : FileId} (ws : List (Write V)) (disk : FileId → File V)
    (hws : ∀ wr ∈ ws, wr.file = g → ∀ x, wr.chunk.Covers x → x < n)
    (hdisk : (disk g).size ≤ n) : ((ws.foldl apply disk) g).size ≤ n := by
  induction ws generalizing disk with
  | nil => exact hdisk
  | cons wr ws ih =>
    rw [List.foldl_cons]
    refine ih (apply disk wr) (fun wr' hwr' ↦ hws wr' (List.mem_cons_of_mem _ hwr')) ?_
    rw [apply]
    rcases eq_or_ne g wr.file with rfl | hne
    · rw [Function.update_self, File.fill]
      split
      · exact hdisk
      · rename_i hlen
        have hlast := hws wr List.mem_cons_self rfl (wr.chunk.offset + wr.chunk.len - 1)
          ⟨by omega, by omega⟩
        refine max_le hdisk ((min_le_left _ _).trans ?_)
        omega
    · rwa [Function.update_of_ne hne]

@[simp] theorem setFile_disk_self (w : World V) (id : FileId) (f : File V) :
    (w.setFile id f).disk id = f := Function.update_self _ _ _

theorem setFile_disk_ne (w : World V) {id g : FileId} (f : File V) (hne : g ≠ id) :
    (w.setFile id f).disk g = w.disk g := Function.update_of_ne hne _ _

/-! ## What is kept -/

/-- From `w` to `w'` the files change only by writes that satisfy the source `S`, and in the file
`id` by holes within `H`; what is queued afterwards satisfies the source. -/
structure Kept (S : Source V) (id : FileId) (H : ℕ → Prop) (w w' : World V) : Prop where
  cells : ∀ g x, (w'.disk g).cells x = (w.disk g).cells x
    ∨ (g = id ∧ H x ∧ (w'.disk g).cells x = .hole)
    ∨ ∃ v, (w'.disk g).cells x = .remote v ∧ S g x v
  marked : ∀ g, (w'.disk g).marked = (w.disk g).marked
  nodump : ∀ g, (w'.disk g).nodump = (w.disk g).nodump
  size : ∀ g, (w.disk g).size ≤ (w'.disk g).size
  /-- A file is not extended beyond what the source has bytes for. -/
  bound : ∀ g n, (∀ x v, S g x v → x < n) → (w.disk g).size ≤ n → (w'.disk g).size ≤ n
  mtime : ∀ g, (w.disk g).mtime ≤ (w'.disk g).mtime
  pending : ∀ wr ∈ w'.pending, wr.From S
  policy : w'.policy = w.policy

namespace Kept

variable {S : Source V} {id : FileId} {H K : ℕ → Prop} {w w' w'' : World V}

theorem of_eq (hdisk : w'.disk = w.disk) (hpolicy : w'.policy = w.policy)
    (h : ∀ wr ∈ w'.pending, wr.From S) : Kept S id H w w' := by
  refine ⟨fun g x ↦ Or.inl ?_, fun g ↦ ?_, fun g ↦ ?_, fun g ↦ ?_, fun g n _ hn ↦ ?_,
    fun g ↦ ?_, h, hpolicy⟩
  all_goals rw [hdisk]
  exact hn

theorem refl (h : ∀ wr ∈ w.pending, wr.From S) : Kept S id H w w := of_eq rfl rfl h

theorem mono (h : Kept S id H w w') (hHK : ∀ x, H x → K x) : Kept S id K w w' := by
  refine ⟨fun g x ↦ ?_, h.marked, h.nodump, h.size, h.bound, h.mtime, h.pending, h.policy⟩
  rcases h.cells g x with heq | ⟨hg, hx, hhole⟩ | hrem
  · exact Or.inl heq
  · exact Or.inr (Or.inl ⟨hg, hHK x hx, hhole⟩)
  · exact Or.inr (Or.inr hrem)

theorem trans (h₁ : Kept S id H w w') (h₂ : Kept S id H w' w'') : Kept S id H w w'' := by
  refine ⟨fun g x ↦ ?_, fun g ↦ (h₂.marked g).trans (h₁.marked g),
    fun g ↦ (h₂.nodump g).trans (h₁.nodump g), fun g ↦ (h₁.size g).trans (h₂.size g),
    fun g n hS hn ↦ h₂.bound g n hS (h₁.bound g n hS hn),
    fun g ↦ (h₁.mtime g).trans (h₂.mtime g), h₂.pending, h₂.policy.trans h₁.policy⟩
  rcases h₂.cells g x with heq | hhole | hrem
  · rcases h₁.cells g x with heq' | ⟨hg, hx, hhole⟩ | ⟨v, hv, hS⟩
    · exact Or.inl (heq.trans heq')
    · exact Or.inr (Or.inl ⟨hg, hx, heq.trans hhole⟩)
    · exact Or.inr (Or.inr ⟨v, heq.trans hv, hS⟩)
  · exact Or.inr (Or.inl hhole)
  · exact Or.inr (Or.inr hrem)

end Kept

/-- A change of one file leaves the others alone. -/
theorem kept_setFile {S : Source V} {id : FileId} {H : ℕ → Prop} {w : World V} {f : File V}
    (hpend : ∀ wr ∈ w.pending, wr.From S)
    (hcells : ∀ x, f.cells x = (w.disk id).cells x ∨ (H x ∧ f.cells x = .hole))
    (hmarked : f.marked = (w.disk id).marked) (hnodump : f.nodump = (w.disk id).nodump)
    (hsize : f.size = (w.disk id).size) (hmtime : (w.disk id).mtime ≤ f.mtime) :
    Kept S id H w (w.setFile id f) := by
  have hother : ∀ g, g ≠ id → (w.setFile id f).disk g = w.disk g :=
    fun g hne ↦ setFile_disk_ne w f hne
  refine ⟨fun g x ↦ ?_, fun g ↦ ?_, fun g ↦ ?_, fun g ↦ ?_, fun g n _ hn ↦ ?_, fun g ↦ ?_, hpend,
    rfl⟩
  all_goals rcases eq_or_ne g id with rfl | hne
  all_goals first | rw [setFile_disk_self] | rw [hother g hne]
  · exact (hcells x).imp_right fun h ↦ Or.inl ⟨rfl, h⟩
  · exact Or.inl rfl
  · exact hmarked
  · exact hnodump
  · exact hsize.ge
  · exact hsize.trans_le hn
  · exact hn
  · exact hmtime

theorem kept_writeStamp {S : Source V} {id : FileId} {H : ℕ → Prop} {w : World V} (ok : Bool)
    (hpend : ∀ wr ∈ w.pending, wr.From S) :
    Kept S id H w (w.setFile id ((w.disk id).writeStamp ok)) := by
  have h := File.writeStamp_same (w.disk id) ok
  exact kept_setFile hpend (fun x ↦ Or.inl (by rw [h.cells])) h.marked
    (File.writeStamp_nodump _ _) h.size h.mtime.ge

theorem kept_of_punched {S : Source V} {id : FileId} {H : ℕ → Prop} {w : World V} {f : File V}
    {offset len : ℕ} (hpend : ∀ wr ∈ w.pending, wr.From S)
    (h : Placeholder.Punched offset len (w.disk id) f)
    (hH : ∀ x, offset ≤ x → x < offset + len → H x) : Kept S id H w (w.setFile id f) := by
  refine kept_setFile hpend (fun x ↦ ?_) h.marked h.nodump h.size h.mtime
  rcases h.cells x with heq | ⟨h1, h2, hhole⟩
  · exact Or.inl heq
  · exact Or.inr ⟨hH x h1 h2, hhole⟩

theorem carry_kept {S : Source V} {id : FileId} {H : ℕ → Prop} {w : World V} (n : ℕ)
    (hpend : ∀ wr ∈ w.pending, wr.From S) : Kept S id H w (w.carry n) := by
  refine ⟨fun g x ↦ ?_, fun g ↦ (foldl_apply_frame _ _ g).1,
    fun g ↦ (foldl_apply_frame _ _ g).2.1, fun g ↦ (foldl_apply_frame _ _ g).2.2.1,
    fun g n hS hn ↦ foldl_apply_size_le _ _ (fun wr hwr hfile x hx ↦ ?_) hn, fun g ↦ (foldl_apply_frame _ _ g).2.2.2,
    fun wr hwr ↦ hpend wr (List.mem_of_mem_drop hwr), rfl⟩
  · rcases foldl_apply_cells (w.pending.take n) w.disk g x with
      ⟨heq, -⟩ | ⟨wr, hmem, rfl, hcov, hc⟩
    · exact Or.inl heq
    · exact Or.inr (Or.inr ⟨_, hc, hpend wr (List.mem_of_mem_take hmem) x hcov⟩)
  · have hsource := hpend wr (List.mem_of_mem_take hwr) x hx
    rw [hfile] at hsource
    exact hS x _ hsource

theorem Spares.carry {G : Source V} {id : FileId} {r : Ranges} {w : World V}
    (h : w.Spares G id r) (n : ℕ) : (w.carry n).Spares G id r :=
  fun wr hwr ↦ h wr (List.mem_of_mem_drop hwr)

theorem carry_held {G : Source V} {id : FileId} {r : Ranges} {w : World V} (n : ℕ)
    (h : w.Spares G id r) {x : ℕ} (hr : r.Mem x) :
    ((w.carry n).disk id).cells x = (w.disk id).cells x
      ∨ ∃ v, ((w.carry n).disk id).cells x = .remote v ∧ G id x v := by
  rcases foldl_apply_cells (w.pending.take n) w.disk id x with ⟨heq, -⟩ | ⟨wr, hmem, hf, hx, hc⟩
  · exact Or.inl heq
  · exact Or.inr ⟨_, hc, h wr (List.mem_of_mem_take hmem) hf x hx hr⟩

end World

/-! ## One transfer -/

namespace Worker

open Placeholder World

/-- The queue once the writes of a delivery have been added to it. -/
def queued (w : World V) (id : FileId) (size : ℕ) (span : Span) (a : Attempt V) (t : Timed) :
    World V :=
  { w with
    fetch := t
    pending := w.pending ++ (a.deliver id size span).chunks.map (Write.mk id) }

/-- **What a transfer does**: it queues nothing and fails; or it queues the writes of a delivery,
and some of the queue is carried out. If it is reported as good then all of the queue is, and the
delivery ended well having reported the length of the span. -/
theorem transfer_cases (w : World V) (id : FileId) (size : ℕ) (span : Span) (a : Attempt V) :
    ((transfer w id size span a).1 ≠ .ok ()
        ∧ ∃ t, (transfer w id size span a).2 = { w with fetch := t })
      ∨ ∃ t n, (transfer w id size span a).2 = (queued w id size span a t).carry n
        ∧ ((transfer w id size span a).1 = .ok () → (queued w id size span a t).pending.length ≤ n
          ∧ (a.deliver id size span).result = .ok ()
          ∧ (span.len = 0 ∨ span.len ∈ (a.deliver id size span).ticks)) := by
  rw [transfer]
  dsimp only
  split
  · refine Or.inr ⟨_, _, rfl, fun h ↦ ?_⟩
    obtain ⟨-, hlast, hend⟩ := Timed.run_ok h
    refine ⟨?_, hend⟩
    rw [if_pos hlast]
    exact le_rfl
  · rename_i hsent
    exact Or.inl ⟨fun h ↦ hsent (Timed.run_ok h).1, ⟨_, rfl⟩⟩

theorem transfer_fst (w : World V) (id : FileId) (size : ℕ) (span : Span) (a : Attempt V) :
    (transfer w id size span a).1 = (w.fetch.run id size span a).result := by
  rw [transfer]
  dsimp only
  split <;> rfl

theorem transfer_fetch (w : World V) (id : FileId) (size : ℕ) (span : Span) (a : Attempt V) :
    (transfer w id size span a).2.fetch = (w.fetch.run id size span a).timed := by
  rw [transfer]
  dsimp only
  split <;> rfl

variable {S G : Source V} {w : World V} {id : FileId} {size : ℕ} {span : Span} {a : Attempt V}

@[simp] theorem transfer_partials : (transfer w id size span a).2.partials = w.partials := by
  rcases transfer_cases w id size span a with ⟨-, t, h⟩ | ⟨t, n, h, -⟩
  · rw [h]
  · rw [h]
    rfl

private theorem queued_from (hpend : ∀ wr ∈ w.pending, wr.From S)
    (hsrc : ∀ ch ∈ (a.deliver id size span).chunks, (Write.mk id ch).From S) (t : Timed)
    (wr : Write V) (hwr : wr ∈ (queued w id size span a t).pending) : wr.From S := by
  rcases List.mem_append.mp hwr with hwr | hwr
  · exact hpend wr hwr
  · obtain ⟨ch, hch, rfl⟩ := List.mem_map.mp hwr
    exact hsrc ch hch

theorem transfer_kept {H : ℕ → Prop} (hpend : ∀ wr ∈ w.pending, wr.From S)
    (hsrc : ∀ ch ∈ (a.deliver id size span).chunks, (Write.mk id ch).From S) :
    Kept S id H w (transfer w id size span a).2 := by
  rcases transfer_cases w id size span a with ⟨-, t, h⟩ | ⟨t, n, h, -⟩
  · rw [h]
    exact Kept.of_eq rfl rfl hpend
  · rw [h]
    have hstart : Kept S id H w (queued w id size span a t) :=
      Kept.of_eq rfl rfl (queued_from hpend hsrc t)
    exact hstart.trans (carry_kept n hstart.pending)

/-- **A transfer that is reported as good** has written every byte of its span, and leaves
nothing queued. -/
theorem transfer_ok (hgood : (a.deliver id size span).Leaves (G id))
    (h : (transfer w id size span a).1 = .ok ()) :
    (transfer w id size span a).2.pending = []
      ∧ ∀ x, span.offset ≤ x → x < span.offset + span.len →
        ∃ v, ((transfer w id size span a).2.disk id).cells x = .remote v ∧ G id x v := by
  rcases transfer_cases w id size span a with ⟨hno, -⟩ | ⟨t, n, hw, hok⟩
  · exact absurd h hno
  · obtain ⟨hn, hres, htick⟩ := hok h
    rw [hw]
    refine ⟨List.drop_eq_nil_of_le hn, fun x h1 h2 ↦ ?_⟩
    obtain ⟨v, hv, hG⟩ := hgood hres (htick.resolve_left (by omega)) x h1 h2
    refine ⟨v, ?_, hG⟩
    rw [World.carry, List.take_of_length_le hn]
    dsimp only [queued]
    rw [List.foldl_append, foldl_apply_lastAt, hv]
    rfl

/-- The bytes of a transfer lie in its span; ranges that have none of it keep their bytes, or get
bytes of the source, and are spared by what is queued. -/
theorem transfer_held {r : Ranges} (hspare : w.Spares G id r)
    (hapart : ∀ x, span.offset ≤ x → x < span.offset + span.len → ¬r.Mem x) :
    (transfer w id size span a).2.Spares G id r
      ∧ ∀ x, r.Mem x → ((transfer w id size span a).2.disk id).cells x = (w.disk id).cells x
        ∨ ∃ v, ((transfer w id size span a).2.disk id).cells x = .remote v ∧ G id x v := by
  rcases transfer_cases w id size span a with ⟨-, t, h⟩ | ⟨t, n, h, -⟩
  · rw [h]
    exact ⟨hspare, fun _ _ ↦ Or.inl rfl⟩
  · have hqueued : (queued w id size span a t).Spares G id r := by
      intro wr hwr hfile x hx hr
      rcases List.mem_append.mp hwr with hwr | hwr
      · exact hspare wr hwr hfile x hx hr
      · obtain ⟨ch, hch, rfl⟩ := List.mem_map.mp hwr
        obtain ⟨hlo, hhi⟩ := (a.deliver id size span).inside ch hch
        obtain ⟨h1, h2⟩ := hx
        dsimp only at h1 h2
        exact absurd hr (hapart x (by omega) (by omega))
    rw [h]
    exact ⟨hqueued.carry n, fun x hr ↦ carry_held n hqueued hr⟩

@[simp] theorem rollBack_partials (p : Punch) : (rollBack w id p span).partials = w.partials := rfl

@[simp] theorem rollBack_pending (p : Punch) : (rollBack w id p span).pending = w.pending := rfl

theorem rollBack_kept (p : Punch) (hpend : ∀ wr ∈ w.pending, wr.From S) :
    Kept S id (fun x ↦ span.offset ≤ x ∧ x < span.offset + span.len) w (rollBack w id p span) :=
  kept_of_punched hpend (punchRangeFd_punched _ _ _ _) fun _ h1 h2 ↦ ⟨h1, h2⟩

/-! ## The loop over the missing spans -/

/-- What the loop is given: spans that have bytes, in order, none of which is held, none of which
starts before the demand, and which together with what is held make up the demand. -/
structure Todo (demanded : Span) (spans : List Span) (r : Ranges) : Prop where
  proper : ∀ s ∈ spans, 0 < s.len ∧ s.end' = s.offset + s.len
  after : ∀ s ∈ spans, demanded.offset ≤ s.offset
  order : spans.Pairwise fun s t ↦ s.end' ≤ t.offset
  apart : ∀ s ∈ spans, ∀ x, s.Mem x → ¬r.Mem x
  covers : ∀ x, demanded.Mem x → r.Mem x ∨ ∃ s ∈ spans, s.Mem x

section Todo

variable {demanded s only : Span} {rest : List Span} {r : Ranges}

theorem Todo.offset_le (h : Todo demanded (s :: rest) r) : s.offset ≤ u64Max := by
  obtain ⟨-, hend⟩ := h.proper s List.mem_cons_self
  have hmax : s.end' ≤ u64Max := min_le_right _ _
  omega

theorem Todo.mem_iff (h : Todo demanded (s :: rest) r) {x : ℕ} :
    s.Mem x ↔ s.offset ≤ x ∧ x < s.offset + s.len := by
  rw [Span.Mem, (h.proper s List.mem_cons_self).2]

/-- A span of the list and one after it have no byte in common. -/
theorem Todo.not_mem (h : Todo demanded (s :: rest) r) {t : Span} (ht : t ∈ rest) {x : ℕ}
    (hx : t.Mem x) : ¬s.Mem x := by
  have hst : s.end' ≤ t.offset := (List.pairwise_cons.mp h.order).1 t ht
  rintro ⟨-, h2⟩
  have hx1 := hx.1
  omega

theorem Todo.next (h : Todo demanded (s :: rest) r) : Todo demanded rest (r.add s) := by
  refine ⟨fun t ht ↦ h.proper t (List.mem_cons_of_mem _ ht),
    fun t ht ↦ h.after t (List.mem_cons_of_mem _ ht), (List.pairwise_cons.mp h.order).2,
    fun t ht x hx ↦ ?_, fun x hx ↦ ?_⟩
  · rw [Ranges.mem_add h.offset_le, not_or]
    exact ⟨h.not_mem ht hx, h.apart t (List.mem_cons_of_mem _ ht) x hx⟩
  · rw [Ranges.mem_add h.offset_le]
    rcases h.covers x hx with hr | ⟨t, ht, hx⟩
    · exact Or.inl (Or.inr hr)
    · rcases List.mem_cons.mp ht with rfl | ht
      · exact Or.inl (Or.inl hx)
      · exact Or.inr ⟨t, ht, hx⟩

/-- A demanded byte in a later span makes the whole of this one demanded. -/
theorem Todo.intersect_of_later (h : Todo demanded (s :: rest) r) {t : Span} (ht : t ∈ rest)
    {x : ℕ} (hx : t.Mem x) (hd : demanded.Mem x) : s.intersect demanded = some s := by
  obtain ⟨hlen, hend⟩ := h.proper s List.mem_cons_self
  have hst : s.end' ≤ t.offset := (List.pairwise_cons.mp h.order).1 t ht
  refine Span.intersect_eq_self hlen hend (h.after s List.mem_cons_self) ?_
  exact hst.trans (hx.1.trans hd.2.le)

/-- Where the first span is speculation only, what is held makes up the demand. -/
theorem Todo.covers_of_none (h : Todo demanded (s :: rest) r)
    (hnone : s.intersect demanded = none) {x : ℕ} (hx : demanded.Mem x) : r.Mem x := by
  rcases h.covers x hx with hr | ⟨t, ht, hxt⟩
  · exact hr
  · rcases List.mem_cons.mp ht with rfl | ht
    · exact absurd hx (Span.not_mem_of_intersect_eq_none hnone hxt)
    · rw [h.intersect_of_later ht hxt hx] at hnone
      cases hnone

/-- Where part of the first span is demanded, what is held makes up the demand with that part. -/
theorem Todo.covers_of_some (h : Todo demanded (s :: rest) r)
    (hsome : s.intersect demanded = some only) (hne : only ≠ s) {x : ℕ} (hx : demanded.Mem x) :
    only.Mem x ∨ r.Mem x := by
  rcases h.covers x hx with hr | ⟨t, ht, hxt⟩
  · exact Or.inr hr
  · rcases List.mem_cons.mp ht with rfl | ht
    · exact Or.inl ((Span.mem_intersect_iff hsome).mpr ⟨hxt, hx⟩)
    · rw [h.intersect_of_later ht hxt hx, Option.some_inj] at hsome
      exact absurd hsome.symm hne

/-- A part of a span that is not the span leaves a byte of it out. -/
theorem Todo.exists_not_mem (h : Todo demanded (s :: rest) r)
    (hsome : s.intersect demanded = some only) (hne : only ≠ s) :
    ∃ x, s.Mem x ∧ ¬only.Mem x := by
  by_contra hall
  push Not at hall
  obtain ⟨hlen, hend⟩ := h.proper s List.mem_cons_self
  have hlast : s.Mem (s.end' - 1) := ⟨by omega, by omega⟩
  have hin := ((Span.mem_intersect_iff hsome).mp (hall _ hlast)).2
  have hin2 := hin.2
  rw [Span.intersect_eq_self hlen hend (h.after s List.mem_cons_self) (by omega),
    Option.some_inj] at hsome
  exact hne hsome.symm

end Todo

/-- The bytes of `r` are in the file `id`: they were among the ranges `r₀` that were trusted when
the world was `w₀`, and have not changed since, or they come from the source; and what is queued
spares them. -/
structure Present (G : Source V) (id : FileId) (r₀ : Ranges) (w₀ w : World V) (r : Ranges) :
    Prop where
  cells : ∀ x, r.Mem x → (r₀.Mem x ∧ (w.disk id).cells x = (w₀.disk id).cells x)
    ∨ ∃ v, (w.disk id).cells x = .remote v ∧ G id x v
  spares : w.Spares G id r

theorem present_self {r : Ranges} {w : World V} (h : w.Spares G id r) : Present G id r w w r :=
  ⟨fun _ hx ↦ Or.inl ⟨hx, rfl⟩, h⟩

theorem present_empty (G : Source V) (id : FileId) (r₀ : Ranges) (w₀ w : World V) :
    Present G id r₀ w₀ w .empty :=
  ⟨fun x hx ↦ absurd hx (Ranges.not_mem_empty x),
    fun _ _ _ x _ hx ↦ absurd hx (Ranges.not_mem_empty x)⟩

section Present

variable {r₀ r : Ranges} {w₀ w' : World V}

theorem Present.of_held (h : Present G id r₀ w₀ w r)
    (hcells : ∀ x, r.Mem x → (w'.disk id).cells x = (w.disk id).cells x
      ∨ ∃ v, (w'.disk id).cells x = .remote v ∧ G id x v) (hspare : w'.Spares G id r) :
    Present G id r₀ w₀ w' r := by
  refine ⟨fun x hx ↦ ?_, hspare⟩
  rcases hcells x hx with heq | hrem
  · rw [heq]
    exact h.cells x hx
  · exact Or.inr hrem

/-- What is held stays so while a span that is apart from it is transferred, -/
theorem Present.transfer (h : Present G id r₀ w₀ w r)
    (hapart : ∀ x, span.offset ≤ x → x < span.offset + span.len → ¬r.Mem x) :
    Present G id r₀ w₀ (transfer w id size span a).2 r :=
  h.of_held (transfer_held h.spares hapart).2 (transfer_held h.spares hapart).1

/-- and while it is rolled back. -/
theorem Present.rollBack (h : Present G id r₀ w₀ w r) (p : Punch)
    (hapart : ∀ x, span.offset ≤ x → x < span.offset + span.len → ¬r.Mem x) :
    Present G id r₀ w₀ (rollBack w id p span) r := by
  refine h.of_held (fun x hx ↦ Or.inl ?_) h.spares
  rw [Worker.rollBack, setFile_disk_self]
  rcases (punchRangeFd_punched (w.disk id) p span.offset span.len).cells x with heq | ⟨h1, h2, -⟩
  · exact heq
  · exact absurd hx (hapart x h1 h2)

theorem Present.disk_eq (h : Present G id r₀ w₀ w r) (hd : (w'.disk id).cells = (w.disk id).cells)
    (hp : w'.pending = w.pending) : Present G id r₀ w₀ w' r :=
  h.of_held (fun x _ ↦ Or.inl (congrFun hd x)) fun wr hwr ↦ h.spares wr (hp ▸ hwr)

/-- A span filled in full joins the ranges that are present. -/
theorem Present.add {s : Span} (hoff : s.offset ≤ u64Max) (h : Present G id r₀ w₀ w r)
    (hempty : w.pending = []) (hfull : ∀ x, s.offset ≤ x → x < s.offset + s.len →
      ∃ v, (w.disk id).cells x = .remote v ∧ G id x v) : Present G id r₀ w₀ w (r.add s) := by
  refine ⟨fun x hx ↦ ?_, fun wr hwr ↦ by rw [hempty] at hwr; cases hwr⟩
  rcases (Ranges.mem_add hoff).mp hx with ⟨h1, h2⟩ | hr
  · refine Or.inr (hfull x h1 ?_)
    have hle : s.end' ≤ s.offset + s.len := min_le_left _ _
    omega
  · exact h.cells x hr

end Present

/-- How the loop ends, from the ranges `r` held when the world was `w`. -/
structure Filled (S G : Source V) (id : FileId) (r₀ : Ranges) (w₀ w : World V) (demanded : Span)
    (spans : List Span) (r : Ranges) (result : (Ranges ⊕ Handled) × World V) : Prop where
  kept : Kept S id (fun x ↦ ∃ s ∈ spans, s.Mem x) w result.2
  /-- With ranges: they are present, they make up the demand, they are among what was held and
  what was asked for, and if they leave nothing of that out then nothing is queued. -/
  ranges : ∀ r', result.1 = .inl r' →
    result.2.partials = w.partials ∧ Present G id r₀ w₀ result.2 r'
      ∧ (∀ x, demanded.Mem x → r'.Mem x)
      ∧ (∀ x, r'.Mem x → r.Mem x ∨ ∃ s ∈ spans, s.Mem x)
      ∧ ((∀ x, (∃ s ∈ spans, s.Mem x) → r'.Mem x) → result.2.pending = [])
  /-- With an answer: it is not an allow, and what is on record for the file is present. -/
  answer : ∀ o, result.1 = .inr o →
    o.allowed = false ∧ (∀ g, g ≠ id → result.2.partials.KeepsFrom w.partials g)
      ∧ ∀ h, result.2.partials.get id = some h →
        h.witness = (result.2.disk id).witness ∧ Present G id r₀ w₀ result.2 h.have'

private theorem fillFailed_spec (r₀ : Ranges) {r : Ranges} (w₀ : World V) {H : ℕ → Prop}
    (hpend : ∀ wr ∈ w.pending, wr.From S) (hpres : Present G id r₀ w₀ w r) (e : TransferError)
    (c : Calls V) :
    (fillFailed w id r e c).1.allowed = false ∧ Kept S id H w (fillFailed w id r e c).2
      ∧ (∀ g, g ≠ id → (fillFailed w id r e c).2.partials.KeepsFrom w.partials g)
      ∧ ∀ h, (fillFailed w id r e c).2.partials.get id = some h →
        h.witness = ((fillFailed w id r e c).2.disk id).witness
          ∧ Present G id r₀ w₀ (fillFailed w id r e c).2 h.have' := by
  have hsame := File.writeStamp_same (w.disk id) c.failStamp
  have hstamped : Kept S id H w (w.setFile id ((w.disk id).writeStamp c.failStamp)) :=
    kept_writeStamp c.failStamp hpend
  refine ⟨by cases e <;> rfl, ?_⟩
  rw [fillFailed]
  dsimp only
  cases c.failWitness with
  | none =>
    refine ⟨hstamped.trans (Kept.of_eq rfl rfl hpend),
      fun g hg ↦ Partial.record_keepsFrom hg, fun h hh ↦ ?_⟩
    obtain ⟨hwit, hhave⟩ := Partial.get_record_self hh
    refine ⟨by rw [hwit]; simp [World.record], ?_⟩
    rw [hhave]
    exact hpres.disk_eq (by simp [World.record, hsame.cells]) rfl
  | some _ =>
    refine ⟨hstamped.trans (Kept.of_eq rfl rfl hpend),
      fun g _ ↦ Partial.forget_keepsFrom _ _ _, fun h hh ↦ ?_⟩
    rw [World.forget, Partial.get_forget_self] at hh
    cases hh

/-- Where the loop gives up, what is held is recorded as it is. -/
theorem filled_fillFailed {demanded : Span} {spans : List Span} {r₀ r : Ranges} {w₀ w' : World V}
    (hkept : Kept S id (fun x ↦ ∃ s ∈ spans, s.Mem x) w w') (hpart : w'.partials = w.partials)
    (hpres : Present G id r₀ w₀ w' r) (e : TransferError) (c : Calls V) :
    Filled S G id r₀ w₀ w demanded spans r
      (.inr (fillFailed w' id r e c).1, (fillFailed w' id r e c).2) := by
  obtain ⟨hrefused, hfailed, hothers, hrecord⟩ :=
    fillFailed_spec r₀ w₀ hkept.pending hpres e c
  refine ⟨hkept.trans hfailed, by rintro r' ⟨⟩, ?_⟩
  rintro o ⟨⟩
  exact ⟨hrefused, fun g hg ↦ hpart ▸ hothers g hg, hrecord⟩

/-- What the loop comes to after its first span has been filled, it comes to from before. -/
theorem Filled.cons {demanded s : Span} {rest : List Span} {r₀ r : Ranges} {w₀ w₁ : World V}
    {result : (Ranges ⊕ Handled) × World V} (hoff : s.offset ≤ u64Max)
    (hkept : Kept S id (fun x ↦ ∃ t ∈ s :: rest, t.Mem x) w w₁) (hpart : w₁.partials = w.partials)
    (h : Filled S G id r₀ w₀ w₁ demanded rest (r.add s) result) :
    Filled S G id r₀ w₀ w demanded (s :: rest) r result := by
  have hlater : ∀ x, (∃ t ∈ rest, t.Mem x) → ∃ t ∈ s :: rest, t.Mem x :=
    fun x ⟨t, ht, hx⟩ ↦ ⟨t, List.mem_cons_of_mem _ ht, hx⟩
  refine ⟨hkept.trans (h.kept.mono hlater), fun r' hr' ↦ ?_, fun o ho ↦ ?_⟩
  · obtain ⟨hsame, hpres, hcovers, hamong, hquiet⟩ := h.ranges r' hr'
    refine ⟨hsame.trans hpart, hpres, hcovers, fun x hx ↦ ?_,
      fun hall ↦ hquiet fun x hx ↦ hall x (hlater x hx)⟩
    rcases hamong x hx with hx | hx
    · rcases (Ranges.mem_add hoff).mp hx with hx | hx
      · exact Or.inr ⟨s, List.mem_cons_self, hx⟩
      · exact Or.inl hx
    · exact Or.inr (hlater x hx)
  · obtain ⟨hrefused, hothers, hrecord⟩ := h.answer o ho
    exact ⟨hrefused, fun g hg ↦ hpart ▸ hothers g hg, hrecord⟩

/-- Where nothing of the span that could not be filled is demanded, what is held will do. -/
theorem Todo.filled_of_none {demanded s : Span} {rest : List Span} {r₀ r : Ranges}
    {w₀ w' : World V} (h : Todo demanded (s :: rest) r) (hnone : s.intersect demanded = none)
    (hkept : Kept S id (fun x ↦ ∃ t ∈ s :: rest, t.Mem x) w w') (hpart : w'.partials = w.partials)
    (hpres : Present G id r₀ w₀ w' r) :
    Filled S G id r₀ w₀ w demanded (s :: rest) r (.inl r, w') := by
  obtain ⟨hlen, hend⟩ := h.proper s List.mem_cons_self
  have hfirst : s.Mem s.offset := ⟨le_rfl, by omega⟩
  refine ⟨hkept, ?_, by rintro o ⟨⟩⟩
  rintro r' ⟨⟩
  refine ⟨hpart, hpres, fun x hx ↦ h.covers_of_none hnone hx, fun x hx ↦ Or.inl hx, fun hall ↦ ?_⟩
  have hheld : r.Mem s.offset := hall _ ⟨s, List.mem_cons_self, hfirst⟩
  exact absurd hheld (h.apart s List.mem_cons_self _ hfirst)

/-- Where part of it is demanded, that part is asked for once more, and the loop ends with it. -/
theorem Todo.filled_retry {demanded s only : Span} {rest : List Span} {c : Calls V}
    {r₀ r : Ranges} {w₀ w' w'' : World V} {res : Except TransferError Unit} (h : Todo demanded (s :: rest) r) (hs : s.Within size)
    (hsrc : c.From S id size) (hgood : c.Leave G id size)
    (hsome : s.intersect demanded = some only) (hne : only ≠ s)
    (hkept : Kept S id (fun x ↦ ∃ t ∈ s :: rest, t.Mem x) w w') (hpart : w'.partials = w.partials)
    (hpres : Present G id r₀ w₀ w' r) (hretry : transfer w' id size only c.retry = (res, w'')) :
    (∀ again, res = .error again → Filled S G id r₀ w₀ w demanded (s :: rest) r
      (.inr (fillFailed (rollBack w'' id c.retryRollback only) id r again c).1,
        (fillFailed (rollBack w'' id c.retryRollback only) id r again c).2))
    ∧ (res = .ok () → Filled S G id r₀ w₀ w demanded (s :: rest) r (.inl (r.add only), w'')) := by
  obtain ⟨honlyLen, -, honlyEnd⟩ := Span.bounds_of_intersect hsome
  have hin : ∀ x, only.Mem x → s.Mem x := fun x hx ↦ ((Span.mem_intersect_iff hsome).mp hx).1
  have honly : only.Within size := Span.within_of_intersect hsome hs
  have hoff : only.offset ≤ u64Max := by
    have hmax : only.end' ≤ u64Max := min_le_right _ _
    omega
  have hapart : ∀ x, only.offset ≤ x → x < only.offset + only.len → ¬r.Mem x :=
    fun x h1 h2 ↦ h.apart s List.mem_cons_self x (hin x ⟨h1, by rwa [honlyEnd]⟩)
  have hsent : Kept S id (fun x ↦ ∃ t ∈ s :: rest, t.Mem x) w'
      (transfer w' id size only c.retry).2 := transfer_kept hkept.pending (hsrc only honly).2
  have hsame : (transfer w' id size only c.retry).2.partials = w'.partials := transfer_partials
  have hok : (transfer w' id size only c.retry).1 = .ok () → _ := transfer_ok (hgood only honly).2
  have hstill : Present G id r₀ w₀ (transfer w' id size only c.retry).2 r := hpres.transfer hapart
  rw [hretry] at hsent hsame hok hstill
  refine ⟨?_, fun hdone ↦ ?_⟩
  · rintro again -
    -- what arrived of it goes as well, and the reader is told
    have hback : Kept S id (fun x ↦ ∃ t ∈ s :: rest, t.Mem x) w''
        (rollBack w'' id c.retryRollback only) :=
      (rollBack_kept _ hsent.pending).mono fun x hx ↦ ⟨s, List.mem_cons_self, hin x
        ⟨hx.1, by rw [honlyEnd]; exact hx.2⟩⟩
    exact filled_fillFailed ((hkept.trans hsent).trans hback) (hsame.trans hpart)
      (hstill.rollBack c.retryRollback hapart) again c
  · obtain ⟨hempty, hfull⟩ := hok hdone
    refine ⟨hkept.trans hsent, ?_, by rintro o ⟨⟩⟩
    rintro r' ⟨⟩
    refine ⟨hsame.trans hpart, hstill.add hoff hempty hfull, fun x hx ↦ ?_, fun x hx ↦ ?_,
      fun _ ↦ hempty⟩
    · rw [Ranges.mem_add hoff]
      exact h.covers_of_some hsome hne hx
    · rcases (Ranges.mem_add hoff).mp hx with hx | hx
      · exact Or.inr ⟨s, List.mem_cons_self, hin x hx⟩
      · exact Or.inl hx

/-- **The loop.** Every span is written in full, or punched back out and not held; where the loop
stops early without an answer it is because nothing more was demanded. -/
theorem fill_filled {demanded : Span} {c : Calls V} {r₀ : Ranges} {w₀ : World V}
    (hsrc : c.From S id size) (hgood : c.Leave G id size) {spans : List Span} :
    ∀ {k : ℕ} {w : World V} {r : Ranges}, (∀ s ∈ spans, s.Within size) →
      (∀ wr ∈ w.pending, wr.From S) →
      Todo demanded spans r → Present G id r₀ w₀ w r → (spans = [] → w.pending = []) →
      Filled S G id r₀ w₀ w demanded spans r (fill w id size demanded c k spans r) := by
  induction spans with
  | nil =>
    intro k w r _ hpend htodo hpres hq
    rw [fill]
    refine ⟨Kept.refl hpend, ?_, by rintro o ⟨⟩⟩
    rintro r' ⟨⟩
    exact ⟨rfl, hpres, fun x hx ↦ (htodo.covers x hx).resolve_right (by simp),
      fun x hx ↦ Or.inl hx, fun _ ↦ hq rfl⟩
  | cons s rest ih =>
    intro k w r hwithin hpend htodo hpres hq
    have hs : s.Within size := hwithin s List.mem_cons_self
    have hkept : Kept S id (fun x ↦ ∃ t ∈ s :: rest, t.Mem x) w
        (transfer w id size s (c.attempt k)).2 := transfer_kept hpend ((hsrc s hs).1 k)
    have hapart : ∀ x, s.offset ≤ x → x < s.offset + s.len → ¬r.Mem x :=
      fun x h1 h2 ↦ htodo.apart s List.mem_cons_self x (htodo.mem_iff.mpr ⟨h1, h2⟩)
    have hpres₁ : Present G id r₀ w₀ (transfer w id size s (c.attempt k)).2 r :=
      hpres.transfer hapart
    have hpart : (transfer w id size s (c.attempt k)).2.partials = w.partials := transfer_partials
    have hok : (transfer w id size s (c.attempt k)).1 = .ok () → _ :=
      transfer_ok ((hgood s hs).1 k)
    rw [fill]
    generalize transfer w id size s (c.attempt k) = r₁ at hkept hpart hok hpres₁
    obtain ⟨res, w₁⟩ := r₁
    cases res with
    | ok _ =>
      obtain ⟨hempty, hfull⟩ := hok rfl
      exact (ih (k := k + 1) (fun t ht ↦ hwithin t (List.mem_cons_of_mem _ ht)) hkept.pending
        htodo.next (hpres₁.add htodo.offset_le hempty hfull) fun _ ↦ hempty).cons htodo.offset_le
        hkept hpart
    | error e =>
      -- what arrived for this span goes, and none of it is held
      have hback : Kept S id (fun x ↦ ∃ t ∈ s :: rest, t.Mem x) w₁
          (rollBack w₁ id (c.rollback k) s) := (rollBack_kept _ hkept.pending).mono fun x hx ↦
        ⟨s, List.mem_cons_self, htodo.mem_iff.mpr hx⟩
      have hkept₂ := hkept.trans hback
      have hpres₂ := hpres₁.rollBack (c.rollback k) hapart
      have hpart₂ : (rollBack w₁ id (c.rollback k) s).partials = w.partials := hpart
      dsimp only
      generalize rollBack w₁ id (c.rollback k) s = w₂ at hkept₂ hpres₂ hpart₂
      split
      · rename_i hnone
        exact htodo.filled_of_none hnone hkept₂ hpart₂ hpres₂
      · rename_i only hsome
        split
        · rename_i hne
          rcases hretry : transfer w₂ id size only c.retry with ⟨again | _, w₃⟩
          · exact (htodo.filled_retry hs hsrc hgood hsome hne hkept₂ hpart₂ hpres₂ hretry).1 _ rfl
          · exact (htodo.filled_retry hs hsrc hgood hsome hne hkept₂ hpart₂ hpres₂ hretry).2 rfl
        · exact filled_fillFailed hkept₂ hpart₂ hpres₂ e c

/-! ## When everything is delivered -/

/-- Every transfer of the loop is reported as good, the first of them the `k`-th, from the
counters `t`. -/
def AllDeliver (id : FileId) (size : ℕ) (c : Calls V) (t : Timed) : ℕ → List Span → Prop
  | _, [] => True
  | k, s :: rest => (t.run id size s (c.attempt k)).result = .ok ()
    ∧ AllDeliver id size c (t.run id size s (c.attempt k)).timed (k + 1) rest

theorem fill_of_allDeliver {demanded : Span} {c : Calls V} {spans : List Span} :
    ∀ {k : ℕ} {w : World V} {r : Ranges}, Todo demanded spans r →
      AllDeliver id size c w.fetch k spans →
      ∃ r', (fill w id size demanded c k spans r).1 = .inl r'
        ∧ ∀ x, r.Mem x ∨ (∃ s ∈ spans, s.Mem x) → r'.Mem x := by
  induction spans with
  | nil => exact fun _ _ ↦ ⟨_, rfl, by simp⟩
  | cons s rest ih =>
    intro k w r htodo ⟨hok, hrest⟩
    rw [← transfer_fst] at hok
    rw [← transfer_fetch] at hrest
    obtain ⟨r', hr', hmem⟩ := ih htodo.next hrest
    rw [fill]
    generalize transfer w id size s (c.attempt k) = t at hok hr'
    obtain ⟨res, w'⟩ := t
    dsimp only at hok
    subst hok
    refine ⟨r', hr', fun x hx ↦ hmem x ?_⟩
    rw [Ranges.mem_add htodo.offset_le]
    rcases hx with hx | ⟨t, ht, hx⟩
    · exact Or.inl (Or.inr hx)
    · rcases List.mem_cons.mp ht with rfl | ht
      · exact Or.inl (Or.inl hx)
      · exact Or.inr ⟨t, ht, hx⟩

/-- **A loop that leaves nothing out** had every transfer delivered: a span that fails leaves at
least one byte that is not held. -/
theorem allDeliver_of_fill {demanded : Span} {c : Calls V} {spans : List Span} :
    ∀ {k : ℕ} {w : World V} {r r' : Ranges}, Todo demanded spans r →
      (fill w id size demanded c k spans r).1 = .inl r' →
      (∀ x, (∃ s ∈ spans, s.Mem x) → r'.Mem x) → AllDeliver id size c w.fetch k spans := by
  induction spans with
  | nil => exact fun _ _ _ ↦ trivial
  | cons s rest ih =>
    intro k w r r' htodo hfill hall
    obtain ⟨hlen, hend⟩ := htodo.proper s List.mem_cons_self
    have hfirst : s.Mem s.offset := ⟨le_rfl, by omega⟩
    have hout : ∀ x, s.Mem x → ¬r.Mem x := htodo.apart s List.mem_cons_self
    have hin : ∀ x, s.Mem x → r'.Mem x := fun x hx ↦ hall x ⟨s, List.mem_cons_self, hx⟩
    rw [AllDeliver, ← transfer_fst, ← transfer_fetch]
    rw [fill] at hfill
    generalize transfer w id size s (c.attempt k) = t at hfill ⊢
    obtain ⟨res, w'⟩ := t
    cases res with
    | ok _ =>
      exact ⟨rfl, ih htodo.next hfill fun x ⟨t, ht, hx⟩ ↦
        hall x ⟨t, List.mem_cons_of_mem _ ht, hx⟩⟩
    | error e =>
      exfalso
      dsimp only at hfill
      split at hfill
      · rw [Sum.inl.injEq] at hfill
        exact hout _ hfirst (hfill ▸ hin _ hfirst)
      · rename_i only hsome
        split at hfill
        · rename_i hne
          generalize transfer (rollBack w' id (c.rollback k) s) id size only c.retry = t at hfill
          obtain ⟨res, w''⟩ := t
          cases res with
          | error _ => cases hfill
          | ok _ =>
            rw [Sum.inl.injEq] at hfill
            obtain ⟨x, hx, hnot⟩ := htodo.exists_not_mem hsome hne
            obtain ⟨-, -, hexact⟩ := Span.bounds_of_intersect hsome
            have hmax : only.end' ≤ u64Max := min_le_right _ _
            have hmem := hin x hx
            rw [← hfill, Ranges.mem_add (by omega)] at hmem
            exact hmem.elim hnot (hout x hx)
        · cases hfill

end Worker

end HydrationAPI
