import HydrationAPI.Helper.Readahead

/-!
# A complete file loses its mark

What counts as there is what the worker holds when it answers: the bytes that were on record, and
those that have arrived since. A file that is answered for without a transfer is not finished, and
nothing has to finish it as long as no record names the whole of its file. That is the invariant,
and what it rests on is that a record is only ever written where a byte of the file is left out:
by a fill that fails, a byte of the span that failed; by one that settles, whatever it did not get.

The empty file is the exception. There is nothing to leave out of it, and nothing to transfer
either, so it keeps its mark with all of its bytes in place.
-/

namespace HydrationAPI

open Placeholder World

variable {V : Type*}

/-- Every record leaves out a byte of the file it was taken of. -/
def Unfinished (w : World V) : Prop :=
  ∀ id h, w.partials.get id = some h → ∃ x, x < h.witness.size ∧ ¬ h.have'.Mem x

variable {w : World V} {id : FileId}

/-- **What is believed of a file that has bytes is never all of them.** -/
theorem Unfinished.trusted (hw : Unfinished w) (hsize : (w.disk id).size ≠ 0) :
    ∃ x, x < (w.disk id).size ∧ ¬ (Worker.trusted w id).Mem x := by
  rw [Worker.trusted]
  split
  · rename_i r hours
    obtain ⟨⟨k, hget, hwit, rfl⟩, -⟩ := Partial.standing_ours hours
    obtain ⟨x, hx, hout⟩ := hw id k hget
    rw [hwit] at hx
    exact ⟨x, hx, hout⟩
  · exact ⟨0, Nat.pos_of_ne_zero hsize, Ranges.not_mem_empty 0⟩

namespace Worker

variable {size : ℕ} {demanded : Span} {r : Ranges} {c : Calls V}

/-! ## What a fill leaves on record -/

private theorem fillFailed_record (e : TransferError) {h : Held}
    (hh : (fillFailed w id r e c).2.partials.get id = some h) : h.have' = r := by
  rw [fillFailed] at hh
  dsimp only at hh
  split at hh
  · exact (Partial.get_record_self hh).2
  · rw [World.forget, Partial.get_forget_self] at hh
    cases hh

/-- **A fill that fails** leaves out a byte of a span that was to be fetched. -/
theorem fill_inr_record {spans : List Span} {o : Handled} :
    ∀ {k : ℕ} {w : World V} {r : Ranges}, Todo demanded spans r →
      (fill w id size demanded c k spans r).1 = .inr o →
      ∀ h, (fill w id size demanded c k spans r).2.partials.get id = some h →
        ∃ s ∈ spans, ∃ x, s.Mem x ∧ ¬ h.have'.Mem x := by
  induction spans with
  | nil => exact fun _ hans ↦ by cases hans
  | cons s rest ih =>
    intro k w r htodo hans h hh
    obtain ⟨hlen, hend⟩ := htodo.proper s List.mem_cons_self
    have hfirst : s.Mem s.offset := ⟨le_rfl, by omega⟩
    -- the first byte of the span is not among those held before it
    have hout : h.have' = r → ∃ t ∈ s :: rest, ∃ x, t.Mem x ∧ ¬ h.have'.Mem x := by
      rintro rfl
      exact ⟨s, List.mem_cons_self, s.offset, hfirst,
        htodo.apart s List.mem_cons_self s.offset hfirst⟩
    rw [fill] at hans hh
    generalize transfer w id size s (c.attempt k) = t at hans hh
    obtain ⟨res, w₁⟩ := t
    cases res with
    | ok _ =>
      obtain ⟨t, ht, hx⟩ := ih htodo.next hans h hh
      exact ⟨t, List.mem_cons_of_mem s ht, hx⟩
    | error e =>
      dsimp only at hans hh
      split at hans
      · cases hans
      · rename_i only hsome
        simp only [hsome] at hh
        split at hans
        · rename_i hne
          rw [if_pos hne] at hh
          generalize transfer (rollBack w₁ id (c.rollback k) s) id size only c.retry = t at hans hh
          obtain ⟨res, w₂⟩ := t
          cases res with
          | ok _ => cases hans
          | error again => exact hout (fillFailed_record again hh)
        · rename_i hsame
          rw [if_neg hsame] at hh
          exact hout (fillFailed_record e hh)

private theorem complete_record (hsize : size ≤ u64Max) {h : Held}
    (hh : (complete w id size demanded r c).2.partials.get id = some h) :
    ∃ x, x < size ∧ ¬ h.have'.Mem x := by
  have hnone : ∀ w' : World V, (w'.forget id).partials.get id ≠ some h := fun w' heq ↦ by
    rw [World.forget, Partial.get_forget_self] at heq
    cases heq
  rcases complete_cases w id size demanded r c with
    ⟨-, -, f, -, heq⟩ | ⟨-, f, reason, -, heq⟩ | ⟨-, -, g, reason, -, heq⟩ | ⟨hno, f, -, -, heq⟩
  · rw [heq] at hh
    exact absurd hh (hnone _)
  · rw [heq] at hh
    exact absurd hh (hnone _)
  · rw [heq] at hh
    exact absurd hh (hnone _)
  · rcases heq with heq | heq
    · rw [heq] at hh
      rw [(Partial.get_record_self hh).2]
      by_contra hall
      push Not at hall
      rw [(whole_covered_iff hsize).mpr hall] at hno
      cases hno
    · rw [heq] at hh
      exact absurd hh (hnone _)

theorem fillMissing_record (hsize : size ≤ u64Max) (hd : demanded.Within size)
    (hrec : ∀ h, w.partials.get id = some h → ∃ x, x < size ∧ ¬ h.have'.Mem x) {h : Held}
    (hh : (fillMissing w id size demanded r c).2.partials.get id = some h) :
    ∃ x, x < size ∧ ¬ h.have'.Mem x := by
  rw [fillMissing] at hh
  split at hh
  · exact hrec h hh
  · rename_i first rest _
    dsimp only at hh
    have hleft : ∀ o, (fill w id size demanded c 0
        (r.missing (window demanded size r first.offset)) r).1 = .inr o → _ :=
      fun o ↦ fill_inr_record (todo_missing hsize hd first.offset)
    have hin := within_missing (r := r) hsize hd first.offset
    generalize fill w id size demanded c 0 _ r = p at hh hleft
    obtain ⟨res, w'⟩ := p
    cases res with
    | inl r' => exact complete_record hsize hh
    | inr o =>
      obtain ⟨s, hs, x, hx, hout⟩ := hleft o rfl h hh
      have hwithin : s.offset + s.len ≤ size := hin s hs
      have hle : s.end' ≤ s.offset + s.len := min_le_left _ _
      exact ⟨x, hx.2.trans_le (hle.trans hwithin), hout⟩

/-! ## What is held when an event is answered -/

/-- What the worker holds of the file when it has the missing spans of a demand, if it does. -/
def fillMissingHolds (w : World V) (id : FileId) (size : ℕ) (demanded : Span) (have' : Ranges)
    (c : Calls V) : Option Ranges :=
  match have'.missing demanded with
  | [] => some have'
  | first :: _ =>
    let want := window demanded size have' first.offset
    (fill w id size demanded c 0 (have'.missing want) have').1.getLeft?

def serveHolds (w : World V) (id : FileId) (size : ℕ) (demanded : Span) (witness : Witness)
    (c : Calls V) : Option Ranges :=
  match believe w id witness with
  | (.ours r, w) => fillMissingHolds w id size demanded r c
  | (.unknown, w) =>
    match clearResidue (w.disk id) c.residue size with
    | (.error _, _) => none
    | (.ok _, f) => fillMissingHolds (w.setFile id f) id size demanded .empty c

private theorem fillMissing_eq_of_nil (h : r.missing demanded = []) :
    fillMissing w id size demanded r c = (.alreadyPresent, w)
      ∧ fillMissingHolds w id size demanded r c = some r := by
  rw [fillMissing, fillMissingHolds, h]
  exact ⟨rfl, rfl⟩

/-- **An allow** is given for what was held already, or the mark is gone, or a byte is missing. -/
theorem fillMissing_holds (hsize : size ≤ u64Max)
    (hallowed : (fillMissing w id size demanded r c).1.allowed = true) :
    ∃ held, fillMissingHolds w id size demanded r c = some held
      ∧ (held = r ∨ ((fillMissing w id size demanded r c).2.disk id).marked = false
        ∨ ∃ x, x < size ∧ ¬ held.Mem x) := by
  rcases hmissing : r.missing demanded with _ | ⟨first, rest⟩
  · exact ⟨r, (fillMissing_eq_of_nil hmissing).2, Or.inl rfl⟩
  · rw [fillMissing, hmissing] at hallowed ⊢
    rw [fillMissingHolds, hmissing]
    dsimp only at hallowed ⊢
    have hno : ∀ o, (fill w id size demanded c 0
        (r.missing (window demanded size r first.offset)) r).1 = .inr o → o.allowed = false :=
      fun o ↦ fill_inr_allowed
    generalize fill w id size demanded c 0 _ r = p at hallowed hno ⊢
    obtain ⟨res, w'⟩ := p
    cases res with
    | inr o => cases hallowed.symm.trans (hno o rfl)
    | inl r' =>
      refine ⟨r', rfl, Or.inr ?_⟩
      dsimp only at hallowed ⊢
      rcases complete_cases w' id size demanded r' c with
        ⟨-, -, f, hsame, heq⟩ | ⟨-, f, reason, -, heq⟩ | ⟨-, -, g, reason, -, heq⟩ | ⟨hcov, -⟩
      · rw [heq]
        refine Or.inl ?_
        exact (congrArg File.marked (setFile_disk_self w' id f)).trans hsame.marked
      · rw [heq] at hallowed
        cases hallowed
      · rw [heq] at hallowed
        cases hallowed
      · refine Or.inr ?_
        by_contra hall
        push Not at hall
        rw [(whole_covered_iff hsize).mpr hall] at hcov
        cases hcov

theorem serve_holds
    (hallowed : (serve w id (w.disk id).size demanded (w.disk id).witness c).1.allowed = true) :
    ∃ held, serveHolds w id (w.disk id).size demanded (w.disk id).witness c = some held
      ∧ (held = trusted w id
        ∨ ((serve w id (w.disk id).size demanded (w.disk id).witness c).2.disk id).marked = false
        ∨ ∃ x, x < (w.disk id).size ∧ ¬ held.Mem x) := by
  have hsize := (w.disk id).size_le
  obtain ⟨-, -, -, -, -, hstand⟩ := believe_spec w id
  rw [serve] at hallowed ⊢
  rw [serveHolds]
  generalize believe w id (w.disk id).witness = b at hallowed hstand ⊢
  obtain ⟨st, w₁⟩ := b
  dsimp only at hstand
  rcases hstand with ⟨rfl, -⟩ | ⟨rfl, -, -, hempty⟩
  · exact fillMissing_holds hsize hallowed
  · dsimp only at hallowed ⊢
    generalize clearResidue (w₁.disk id) c.residue (w.disk id).size = p at hallowed ⊢
    obtain ⟨res, f⟩ := p
    cases res with
    | error e => cases hallowed
    | ok _ =>
      rw [hempty]
      exact fillMissing_holds hsize hallowed

/-- **An empty file** is served without a transfer: it stays empty, and keeps the mark. -/
theorem serve_of_empty (hzero : (w.disk id).size = 0) (hd : demanded.Within (w.disk id).size) :
    ((serve w id (w.disk id).size demanded (w.disk id).witness c).2.disk id).marked
        = (w.disk id).marked
      ∧ ((serve w id (w.disk id).size demanded (w.disk id).witness c).2.disk id).size = 0 := by
  have hnil : ∀ r : Ranges, r.missing demanded = [] := by
    refine fun r ↦ Ranges.missing_eq_nil_iff.mpr fun x hx ↦ ?_
    have hend : demanded.end' ≤ (w.disk id).size := hd.end'_le
    have hlast := hx.2
    omega
  obtain ⟨w₁, hbegun, h⟩ := serve_cases (fun _ _ _ ↦ False) w id demanded c
  have hstays : (w₁.disk id).marked = (w.disk id).marked ∧ (w₁.disk id).size = 0 :=
    ⟨hbegun.sealed, Nat.le_zero.mp (hbegun.bound id 0 (fun _ _ hno ↦ hno.elim) hzero.le)⟩
  rcases h with ⟨-, -, -, heq⟩ | ⟨-, -, -, reason, heq⟩ | ⟨-, -, -, -, -, heq⟩
  · rw [heq, (fillMissing_eq_of_nil (hnil _)).1]
    exact hstays
  · rw [heq]
    exact hstays
  · rw [heq, (fillMissing_eq_of_nil (hnil _)).1]
    exact hstays

end Worker

/-! ## The invariant -/

theorem Unfinished.start (disk : FileId → File V) (policy : Policy) :
    Unfinished (World.start disk policy) :=
  fun _ _ hh ↦ nomatch hh

/-- **Serving an event** leaves no record of a whole file. -/
theorem Unfinished.event (hw : Unfinished w) (id : FileId) (range : Option (ℕ × ℕ))
    (c : Calls V) : Unfinished (Worker.decideAndFill w id range c).2 := by
  -- a record that was there before is as it was
  have hkept : ∀ {p : Partial} {g : FileId}, p.KeepsFrom w.partials g →
      ∀ h, p.get g = some h → ∃ x, x < h.witness.size ∧ ¬ h.have'.Mem x := by
    intro p g hkeeps h hh
    obtain ⟨h₀, hh₀, hwit, hhave⟩ := hkeeps h hh
    rw [hwit, hhave]
    exact hw g h₀ hh₀
  rcases Worker.decideAndFill_cases w id range c with ⟨hidle, -⟩ | ⟨hmark, -, heq⟩
  · intro g h hh
    rw [hidle.partials] at hh
    exact hw g h hh
  · have hsize := (w.disk id).size_le
    have hd := Worker.demand_within range (w.disk id).size
    have hsrc := c.from_any id (w.disk id).size
    have hans := Worker.serve_answered hd (Source.from_any w.pending) hsrc hsrc.leave
      (World.spares_of_from (Source.from_any w.pending) id _) hmark
    rw [heq]
    intro g h hh
    rcases eq_or_ne g id with rfl | hne
    · obtain ⟨hwit, -⟩ := hans.record h hh
      obtain ⟨x, hx, hout⟩ : ∃ x, x < (w.disk g).size ∧ ¬ h.have'.Mem x := by
        obtain ⟨w₁, hbegun, ⟨-, -, ⟨k, hget, hkwit, -⟩, hserve⟩ | ⟨-, -, hnone, reason, hserve⟩ |
          ⟨-, -, -, hnone, -, hserve⟩⟩ :=
          Worker.serve_cases Source.any w g (Worker.demand range (w.disk g).size) c
        · rw [hserve] at hh
          refine Worker.fillMissing_record hsize hd (fun h' hh' ↦ ?_) hh
          obtain ⟨x, hx, hout⟩ := hkept (hbegun.records g) h' hh'
          rw [hget, Option.some_inj] at hh'
          rw [← hh', hkwit] at hx
          exact ⟨x, hx, hout⟩
        · rw [hserve] at hh
          cases hnone.symm.trans hh
        · rw [hserve] at hh
          exact Worker.fillMissing_record hsize hd (fun h' hh' ↦ nomatch hnone.symm.trans hh') hh
      rw [hwit]
      exact ⟨x, hx.trans_le (hans.size g), hout⟩
    · exact hkept (hans.records g hne) h hh

theorem Unfinished.next (hw : Unfinished w) (l : Label V) : Unfinished (w.next l) := by
  cases l with
  | event id range c => exact hw.event id range c
  | ghost => exact hw
  | write id offset bytes time => exact hw
  | truncate id size time => exact hw

/-- **No record ever names the whole of its file.** -/
theorem Unfinished.run (hw : Unfinished w) (ls : List (Label V)) : Unfinished (w.run ls) := by
  induction ls generalizing w with
  | nil => exact hw
  | cons l ls ih => exact ih (hw.next l)

namespace Worker

/-- A marked file that is answered for as hydrated, as served or as having all that was demanded has
been served. -/
theorem decideAndFill_eq_serve {range : Option (ℕ × ℕ)} (hmark : (w.disk id).marked = true)
    (hallowed : (decideAndFill w id range c).1.allowed = true)
    (hempty : (decideAndFill w id range c).1 ≠ .empty) :
    decideAndFill w id range c = serve w id (w.disk id).size
      (demand range (w.disk id).size) (w.disk id).witness c := by
  revert hallowed hempty
  rw [decideAndFill]
  cases c.mark with
  | some e => exact fun hallowed ↦ by cases hallowed
  | none =>
    simp only [hmark, Bool.true_eq_false, if_false]
    rcases hnothing : nothingToServe (w.disk id) c with _ | outcome
    · cases w.policy.decide c.cgroup with
      | deny rule => exact fun hallowed ↦ by cases hallowed
      | hydrate =>
        cases c.idAndSize with
        | some e => exact fun hallowed ↦ by cases hallowed
        | none =>
          cases c.witness with
          | some e => exact fun hallowed ↦ by cases hallowed
          | none => exact fun _ _ ↦ rfl
    · -- it has no name and no bytes
      rw [nothingToServe] at hnothing
      split at hnothing
      · cases hnothing
      · split at hnothing
        · exact fun _ hempty ↦ absurd (Option.some_inj.mp hnothing).symm hempty
        · cases hnothing

/-- What the worker holds of the file when it answers an event that is served. -/
def holds (w : World V) (id : FileId) (range : Option (ℕ × ℕ)) (c : Calls V) : Option Ranges :=
  serveHolds w id (w.disk id).size (demand range (w.disk id).size) (w.disk id).witness c

/-- **The mark and completeness agree, but for the empty file.** Where a marked placeholder has
been hydrated or served or had all that was demanded, holding every byte of it means that the mark
is gone exactly when it has bytes. -/
theorem complete_unmarked_iff (disk : FileId → File V) (policy : Policy) (ls : List (Label V))
    (id : FileId) (range : Option (ℕ × ℕ)) (c : Calls V)
    (hmark : (((World.start disk policy).run ls).disk id).marked = true)
    (hanswer : (∃ n, (decideAndFill ((World.start disk policy).run ls) id range c).1 = .hydrated n)
      ∨ (∃ n held size,
        (decideAndFill ((World.start disk policy).run ls) id range c).1 = .served n held size)
      ∨ (decideAndFill ((World.start disk policy).run ls) id range c).1 = .alreadyPresent) :
    ∃ held, holds ((World.start disk policy).run ls) id range c = some held
      ∧ (((∀ x, x < ((decideAndFill ((World.start disk policy).run ls) id range c).2.disk id).size →
            held.Mem x) →
          ((decideAndFill ((World.start disk policy).run ls) id range c).2.disk id).marked = false)
        ↔ (((World.start disk policy).run ls).disk id).size ≠ 0) := by
  have hw := (Unfinished.start disk policy).run ls
  generalize (World.start disk policy).run ls = w at hw hmark hanswer ⊢
  have hd := demand_within range (w.disk id).size
  have hallowed : (decideAndFill w id range c).1.allowed = true := by
    rcases hanswer with ⟨n, h⟩ | ⟨n, held, size, h⟩ | h
    all_goals
      rw [h]
      rfl
  have hempty : (decideAndFill w id range c).1 ≠ .empty := by
    rcases hanswer with ⟨n, h⟩ | ⟨n, held, size, h⟩ | h
    all_goals
      rw [h]
      exact nofun
  have hserve := decideAndFill_eq_serve hmark hallowed hempty
  rw [hserve] at hallowed ⊢
  obtain ⟨held, hheld, hend⟩ := serve_holds hallowed
  refine ⟨held, hheld, fun hagree hzero ↦ ?_, fun hsize hall ↦ ?_⟩
  · obtain ⟨hsealed, hstays⟩ := serve_of_empty (c := c) hzero hd
    have hgone := hagree fun x hx ↦ absurd (hstays ▸ hx) (Nat.not_lt_zero x)
    rw [hsealed, hmark] at hgone
    exact nomatch hgone
  · have hsrc := c.from_any id (w.disk id).size
    have hans := serve_answered hd (Source.from_any w.pending) hsrc hsrc.leave
      (World.spares_of_from (Source.from_any w.pending) id _) hmark
    -- a byte that is not held lies in the file as it is afterwards
    have hnot : ¬ ∃ x, x < (w.disk id).size ∧ ¬ held.Mem x :=
      fun ⟨x, hx, hout⟩ ↦ hout (hall x (hx.trans_le (hans.size id)))
    rcases hend with rfl | hgone | hout
    · exact absurd (hw.trusted hsize) hnot
    · exact hgone
    · exact absurd hout hnot

/-- A read at the top of eight bytes gets all of them, and the mark is gone. -/
theorem complete_unmarked_iff_eight :
    ((decideAndFill (sampleWorld true) sampleId (some (0, 2)) (calm none)).2.disk sampleId).marked
      = false := by
  have hholds : holds (sampleWorld true) sampleId (some (0, 2)) (calm none)
      = some (Ranges.empty.add ⟨0, 8⟩) := by decide
  obtain ⟨held, hheld, hiff⟩ := complete_unmarked_iff (fun _ ↦ placeholder 8 (by decide) true)
    Policy.permissive [] sampleId (some (0, 2)) (calm none) rfl (Or.inl ⟨8, by decide⟩)
  refine hiff.mpr (by decide) fun x hx ↦ ?_
  rw [← Option.some_inj.mp (hholds.symm.trans hheld), Ranges.mem_add (by decide)]
  exact Or.inl ⟨Nat.zero_le x, hx⟩

/-- A worker that has just been started, over empty placeholders. -/
def emptyWorld : World Unit :=
  World.start (fun _ ↦ placeholder 0 (by decide) true) Policy.permissive

/-- **An empty placeholder keeps its mark.** It has a name, a read of it is answered as one of
which everything is there, and so it is; but nothing has finished it. -/
theorem empty_keeps_mark :
    (emptyWorld.disk sampleId).nlink = 1 ∧ (emptyWorld.disk sampleId).marked = true
      ∧ (decideAndFill emptyWorld sampleId none (calm none)).1 = .alreadyPresent
      ∧ holds emptyWorld sampleId none (calm none) = some .empty
      ∧ ¬((∀ x, x < ((decideAndFill emptyWorld sampleId none (calm none)).2.disk sampleId).size →
            Ranges.empty.Mem x) →
          ((decideAndFill emptyWorld sampleId none (calm none)).2.disk sampleId).marked
            = false) := by
  have hsize : ((decideAndFill emptyWorld sampleId none (calm none)).2.disk sampleId).size = 0 := by
    decide
  have hmark : ((decideAndFill emptyWorld sampleId none (calm none)).2.disk sampleId).marked
      = true := by decide
  refine ⟨rfl, rfl, by decide, by decide, fun hagree ↦ ?_⟩
  rw [hmark, hsize] at hagree
  exact nomatch hagree fun x hx ↦ absurd hx (Nat.not_lt_zero x)

end Worker

end HydrationAPI
