import HydrationAPI.Helper.Partial
import HydrationAPI.Lib.Since

/-!
# The memory of part-filled files, over a run

Questions, records and forgetting come in any order, of any files. What the memory believes of a
file is what was recorded of it last, as long as nothing has put an end to that since; and the file
it drops when there are too many is one that every other was used after.

A call is taken in two halves: what it does to the file it names, and what is then dropped.
-/

namespace HydrationAPI.Partial

/-- A call, with its arguments. -/
inductive Call where
  | standing (file : FileId) (now : Witness)
  | record (file : FileId) (witness : Witness) (have' : Ranges)
  | forget (file : FileId)

variable (p : Partial)

/-- `tracked`. -/
def tracked : ℕ := p.held.entries.length

def call : Call → Partial
  | .standing file now => (p.standing file now).2
  | .record file witness have' => p.record file witness have'
  | .forget file => p.forget file

/-- The memory once the file that is named is seen to. -/
def settle : Call → Partial
  | .standing file now => (p.standing file now).2
  | .record file witness have' =>
    if have'.isEmpty then { p with held := p.held.erase file, tick := p.tick + 1 }
    else { p with held := p.held.insert file ⟨witness, have', p.tick + 1⟩, tick := p.tick + 1 }
  | .forget file => p.forget file

/-- The file that a call drops because there are too many. -/
def evicted : Call → Option FileId
  | .record file witness have' =>
    let held := (p.settle (.record file witness have')).held
    if have'.isEmpty = false ∧ p.cap < held.entries.length then oldest held.entries else none
  | _ => none

/-- The file that a call uses: one that is recorded, or believed. -/
def used : Call → Option FileId
  | .standing file now => if (p.get file).any (·.witness = now) then some file else none
  | .record file _ have' => if have'.isEmpty then none else some file
  | .forget _ => none

/-! ## One call -/

variable {p} {c : Call} {g : FileId} {w : Witness} {r : Ranges}

theorem call_eq (p : Partial) (c : Call) : p.call c = match p.evicted c with
    | some f => { p.settle c with held := (p.settle c).held.erase f }
    | none => p.settle c := by
  cases c with
  | standing file now => rfl
  | forget file => rfl
  | record file witness have' =>
    rw [call, record, evicted, settle]
    dsimp only
    cases have'.isEmpty with
    | true => rfl
    | false =>
      simp only [Bool.false_eq_true, if_false, true_and]
      split
      · split <;> simp_all
      · rfl

theorem get_call (p : Partial) (c : Call) (g : FileId) :
    (p.call c).get g = if p.evicted c = some g then none else (p.settle c).get g := by
  rw [call_eq]
  cases p.evicted c with
  | none => rfl
  | some f =>
    by_cases h : f = g
    · rw [if_pos (congrArg some h), ← h]
      exact AList.lookup_erase f _
    · rw [if_neg fun heq ↦ h (Option.some_inj.mp heq)]
      exact AList.lookup_erase_ne (Ne.symm h)

theorem get_settle_standing (p : Partial) (f g : FileId) (now : Witness) :
    (p.settle (.standing f now)).get g = if f = g then
      ((p.get f).filter (·.witness = now)).map ({ · with used := p.tick + 1 }) else p.get g := by
  rw [settle, standing]
  by_cases h : f = g
  · rw [if_pos h, ← h]
    cases hf : p.get f with
    | none => exact hf
    | some k =>
      dsimp only
      by_cases hk : k.witness = now
      · rw [if_pos hk, Option.filter_some, decide_eq_true hk]
        exact AList.lookup_insert _
      · rw [if_neg hk, Option.filter_some, decide_eq_false hk]
        exact AList.lookup_erase f _
  · rw [if_neg h]
    split
    · split
      · exact AList.lookup_insert_ne (Ne.symm h)
      · exact AList.lookup_erase_ne (Ne.symm h)
    · rfl

theorem get_settle_record (p : Partial) (f g : FileId) (w : Witness) (r : Ranges) :
    (p.settle (.record f w r)).get g = if f = g then
      if r.isEmpty then none else some ⟨w, r, p.tick + 1⟩ else p.get g := by
  rw [settle]
  by_cases h : f = g
  · rw [if_pos h, ← h]
    split
    · exact AList.lookup_erase f _
    · exact AList.lookup_insert _
  · rw [if_neg h]
    split
    · exact AList.lookup_erase_ne (Ne.symm h)
    · exact AList.lookup_insert_ne (Ne.symm h)

theorem get_settle_forget (p : Partial) (f g : FileId) :
    (p.settle (.forget f)).get g = if f = g then none else p.get g := by
  by_cases h : f = g
  · rw [if_pos h, ← h]
    exact AList.lookup_erase f _
  · rw [if_neg h]
    exact AList.lookup_erase_ne (Ne.symm h)

theorem tick_settle (p : Partial) (c : Call) :
    p.tick ≤ (p.settle c).tick ∧ ((p.used c).isSome → (p.settle c).tick = p.tick + 1) := by
  cases c with
  | standing f now =>
    rw [settle, standing]
    split
    · split <;> exact ⟨Nat.le_succ _, fun _ ↦ rfl⟩
    · exact ⟨Nat.le_succ _, fun _ ↦ rfl⟩
  | record f w r =>
    rw [settle]
    split <;> exact ⟨Nat.le_succ _, fun _ ↦ rfl⟩
  | forget f => exact ⟨le_rfl, fun h ↦ by cases h⟩

/-- **What a call makes of the other records**: the file it uses has a record that was used now, and
every other record is as it was, or gone. -/
theorem used_settle {h : Held} (hg : (p.settle c).get g = some h) :
    p.used c = some g ∧ h.used = p.tick + 1 ∨ p.used c ≠ some g ∧ p.get g = some h := by
  cases c with
  | standing f now =>
    rw [get_settle_standing] at hg
    split at hg
    · rename_i hf
      obtain ⟨k, hk, rfl⟩ := Option.map_eq_some_iff.mp hg
      obtain ⟨hget, hw⟩ := Option.filter_eq_some_iff.mp hk
      refine Or.inl ⟨?_, rfl⟩
      rw [used, hget, Option.any_some, if_pos hw, hf]
    · rename_i hf
      refine Or.inr ⟨fun hused ↦ hf ?_, hg⟩
      rw [used] at hused
      split at hused
      · exact Option.some_inj.mp hused
      · exact absurd hused nofun
  | record f w r =>
    rw [get_settle_record] at hg
    split at hg
    · rename_i hf
      split at hg
      · exact absurd hg nofun
      · rename_i hr
        obtain rfl := Option.some.inj hg
        exact Or.inl ⟨by rw [used, if_neg hr, hf], rfl⟩
    · rename_i hf
      refine Or.inr ⟨fun hused ↦ hf ?_, hg⟩
      rw [used] at hused
      split at hused
      · exact absurd hused nofun
      · exact Option.some_inj.mp hused
  | forget f =>
    rw [get_settle_forget] at hg
    split at hg
    · exact absurd hg nofun
    · exact Or.inr ⟨nofun, hg⟩

/-! ## What is believed -/

/-- A record of the file, with these ranges, was taken of it as it looks. -/
def Believes (g : FileId) (w : Witness) (r : Ranges) (p : Partial) : Prop :=
  ∃ tick, p.get g = some ⟨w, r, tick⟩

theorem standing_eq_ours_iff : (p.standing g w).1 = .ours r ↔ p.Believes g w r := by
  constructor
  · intro h
    obtain ⟨⟨k, hk, rfl, rfl⟩, -⟩ := standing_ours h
    exact ⟨k.used, hk⟩
  · rintro ⟨tick, h⟩
    rw [standing, h]
    dsimp only
    rw [if_pos rfl]

/-- The call is about the file, and leaves nothing of a record of it as it looked: it is recorded
anew, forgotten, or found to look otherwise. -/
def Supersedes (g : FileId) (w : Witness) : Call → Prop
  | .standing f now => f = g ∧ now ≠ w
  | .record f _ _ => f = g
  | .forget f => f = g

/-- The call puts an end to what is believed of a file. -/
def Ends (g : FileId) (w : Witness) (p : Partial) (c : Call) : Prop :=
  p.evicted c = some g ∨ Supersedes g w c

/-- The call records the file, and something of it, and keeps the record. -/
def Starts (g : FileId) (w : Witness) (r : Ranges) (p : Partial) (c : Call) : Prop :=
  c = .record g w r ∧ r.isEmpty = false ∧ p.evicted c ≠ some g

theorem believes_settle_standing {f : FileId} {now : Witness} :
    (p.settle (.standing f now)).Believes g w r
      ↔ p.Believes g w r ∧ ¬ Supersedes g w (.standing f now) := by
  rw [Believes, get_settle_standing, Supersedes]
  by_cases h : f = g
  · obtain rfl := h
    simp only [if_pos, true_and, not_not, Option.map_eq_some_iff, Option.filter_eq_some_iff,
      decide_eq_true_iff]
    constructor
    · rintro ⟨_, k, ⟨hk, rfl⟩, heq⟩
      obtain ⟨rfl, rfl, -⟩ := Held.mk.inj heq
      exact ⟨⟨k.used, hk⟩, rfl⟩
    · rintro ⟨⟨tick, hk⟩, rfl⟩
      exact ⟨p.tick + 1, _, ⟨hk, rfl⟩, rfl⟩
  · rw [if_neg h]
    exact (and_iff_left fun hd ↦ h hd.1).symm

theorem believes_settle_record {f : FileId} {w' : Witness} {r' : Ranges} :
    (p.settle (.record f w' r')).Believes g w r
      ↔ (Call.record f w' r' = .record g w r ∧ r.isEmpty = false)
        ∨ p.Believes g w r ∧ ¬ Supersedes g w (.record f w' r') := by
  rw [Believes, get_settle_record, Supersedes, Call.record.injEq]
  by_cases h : f = g
  · obtain rfl := h
    simp only [if_pos, true_and, not_true_eq_false, and_false, or_false]
    constructor
    · rintro ⟨tick, hk⟩
      split at hk
      · exact absurd hk nofun
      · rename_i hr
        obtain ⟨rfl, rfl, -⟩ := Held.mk.inj (Option.some.inj hk)
        exact ⟨⟨rfl, rfl⟩, Bool.not_eq_true _ ▸ hr⟩
    · rintro ⟨⟨rfl, rfl⟩, hr⟩
      exact ⟨p.tick + 1, by rw [hr]; rfl⟩
  · rw [if_neg h]
    simp only [h, false_and, false_or, not_false_eq_true, and_true]
    rfl

theorem believes_settle_forget {f : FileId} : (p.settle (.forget f)).Believes g w r
    ↔ p.Believes g w r ∧ ¬ Supersedes g w (.forget f) := by
  rw [Believes, get_settle_forget, Supersedes]
  by_cases h : f = g
  · rw [if_pos h]
    exact iff_of_false (fun ⟨_, hk⟩ ↦ absurd hk nofun) fun hk ↦ hk.2 h
  · rw [if_neg h]
    exact (and_iff_left h).symm

/-- **One call**, and what is believed after it. -/
theorem believes_call : (p.call c).Believes g w r
    ↔ Starts g w r p c ∨ p.Believes g w r ∧ ¬ Ends g w p c := by
  rw [Starts, Ends, Believes, get_call]
  by_cases hev : p.evicted c = some g
  · rw [if_pos hev]
    refine iff_of_false (fun ⟨_, hk⟩ ↦ absurd hk nofun) ?_
    rintro (⟨-, -, hne⟩ | ⟨-, hne⟩)
    · exact hne hev
    · exact hne (Or.inl hev)
  rw [if_neg hev]
  simp only [hev, false_or, ne_eq, not_false_eq_true, and_true]
  cases c with
  | standing f now =>
    rw [← Believes, believes_settle_standing]
    exact (or_iff_right fun h ↦ absurd h.1 nofun).symm
  | record f w' r' => exact believes_settle_record
  | forget f =>
    rw [← Believes, believes_settle_forget]
    exact (or_iff_right fun h ↦ absurd h.1 nofun).symm

/-! ## How many there are -/

theorem tracked_eq (p : Partial) : p.tracked = p.held.keys.length :=
  (List.length_map _).symm

theorem length_keys_erase_le (held : AList fun _ : FileId ↦ Held) (f : FileId) :
    (held.erase f).keys.length ≤ held.keys.length := by
  rw [AList.keys_erase]
  exact List.length_erase_le

/-- A file takes the place of its own record, if there is one. -/
theorem length_keys_insert_le (held : AList fun _ : FileId ↦ Held) (f : FileId) (h : Held) :
    (held.insert f h).keys.length ≤ held.keys.length + 1 := by
  rw [AList.keys_insert, List.length_cons]
  exact Nat.succ_le_succ List.length_erase_le

theorem mem_keys_of_lookup {held : AList fun _ : FileId ↦ Held} {f : FileId} {k : Held}
    (hk : held.lookup f = some k) : f ∈ held.keys := by
  rw [← AList.mem_keys, ← AList.lookup_isSome, hk]
  rfl

theorem length_keys_insert_of_get {f : FileId} {k : Held} (hk : p.get f = some k) (h : Held) :
    (p.held.insert f h).keys.length = p.held.keys.length := by
  have hf : f ∈ p.held.keys := mem_keys_of_lookup hk
  rw [AList.keys_insert, List.length_cons, List.length_erase_of_mem hf]
  exact Nat.succ_pred_eq_of_pos (List.length_pos_of_mem hf)

theorem oldest_eq_some {held : AList fun _ : FileId ↦ Held} {f : FileId}
    (h : oldest held.entries = some f) : ∃ hf, held.lookup f = some hf
      ∧ ∀ g hg, held.lookup g = some hg → hf.used ≤ hg.used := by
  obtain ⟨e, he, rfl⟩ := Option.map_eq_some_iff.mp h
  refine ⟨e.2, AList.mem_lookup_iff.mpr (List.argmin_mem he), fun g hg hmem ↦ ?_⟩
  exact List.le_of_mem_argmin (f := fun e ↦ e.2.used) (AList.mem_lookup_iff.mp hmem) he

theorem oldest_isSome {entries : List (Sigma fun _ : FileId ↦ Held)} (h : entries ≠ []) :
    ∃ f, oldest entries = some f := by
  cases hmin : List.argmin (fun e ↦ e.2.used) entries with
  | none => exact absurd (List.argmin_eq_none.mp hmin) h
  | some e => exact ⟨e.1, by rw [oldest, hmin, Option.map_some]⟩

/-- **No call leaves more files than the cap.** -/
theorem tracked_call_le (hp : p.tracked ≤ p.cap) (c : Call) : (p.call c).tracked ≤ p.cap := by
  rw [tracked_eq] at hp ⊢
  cases c with
  | standing f now =>
    rw [call, standing]
    split
    · rename_i k hk
      split
      · exact (length_keys_insert_of_get hk _).trans_le hp
      · exact (length_keys_erase_le _ _).trans hp
    · exact hp
  | forget f => exact (length_keys_erase_le _ _).trans hp
  | record f w r =>
    rw [call, record]
    dsimp only
    have hins := length_keys_insert_le p.held f ⟨w, r, p.tick + 1⟩
    split
    · exact (length_keys_erase_le _ _).trans hp
    · split
      · rename_i hcap
        obtain ⟨g, hg⟩ := oldest_isSome (List.ne_nil_of_length_pos (Nat.zero_lt_of_lt hcap))
        obtain ⟨k, hk, -⟩ := oldest_eq_some hg
        have hmem := mem_keys_of_lookup hk
        rw [hg]
        dsimp only
        rw [AList.keys_erase, List.length_erase_of_mem hmem]
        omega
      · rename_i hcap
        exact (List.length_map _).trans_le (Nat.not_lt.mp hcap)

theorem cap_call (p : Partial) (c : Call) : (p.call c).cap = p.cap := by
  have hsettle : (p.settle c).cap = p.cap := by
    cases c with
    | standing f now =>
      rw [settle, standing]
      split
      · split <;> rfl
      · rfl
    | record f w r =>
      rw [settle]
      split <;> rfl
    | forget f => rfl
  rw [call_eq]
  split
  · exact hsettle
  · exact hsettle

/-! ## The file that is dropped -/

section Runs

open History

variable {cap : ℕ} {cs : List Call} {f : FileId}

/-- One file was used, and after that the other was not. -/
def UsedAfter (cap : ℕ) (g f : FileId) (cs : List Call) : Prop :=
  Since call (new cap) (fun p c ↦ p.used c = some g) (fun p c ↦ p.used c = some f) cs

/-- What the stamps of the records say of a history. -/
structure Stamped (cap : ℕ) (cs : List Call) (p : Partial) : Prop where
  le_tick : ∀ g h, p.get g = some h → h.used ≤ p.tick
  usedAfter : ∀ f g hf hg, p.get f = some hf → p.get g = some hg → f ≠ g →
    hf.used ≤ hg.used → UsedAfter cap g f cs

theorem stamped_settle (hp : Stamped cap cs (run call (new cap) cs)) (c : Call) :
    Stamped cap (cs ++ [c]) ((run call (new cap) cs).settle c) := by
  obtain ⟨htick, hnow⟩ := tick_settle (run call (new cap) cs) c
  constructor
  · intro g h hg
    rcases used_settle hg with ⟨hused, hstamp⟩ | ⟨-, hold⟩
    · rw [hstamp, hnow (hused ▸ rfl)]
    · exact (hp.le_tick g h hold).trans htick
  · intro f g hf hg hgetf hgetg hne hle
    refine since_concat.mpr ?_
    rcases used_settle hgetg with ⟨husedg, -⟩ | ⟨-, holdg⟩
    · exact Or.inl husedg
    · rcases used_settle hgetf with ⟨-, hstamp⟩ | ⟨hnot, holdf⟩
      · exact absurd (hp.le_tick g hg holdg) (by omega)
      · exact Or.inr ⟨hp.usedAfter f g hf hg holdf holdg hne hle, hnot⟩

theorem stamped_call (hp : Stamped cap cs (run call (new cap) cs)) (c : Call) :
    Stamped cap (cs ++ [c]) ((run call (new cap) cs).call c) := by
  have hsettle := stamped_settle hp c
  rw [call_eq]
  split
  · rename_i f hf
    have hkeep : ∀ g h, (AList.erase f ((run call (new cap) cs).settle c).held).lookup g = some h →
        ((run call (new cap) cs).settle c).get g = some h := by
      intro g h hg
      rcases eq_or_ne g f with rfl | hne
      · exact absurd (hg.symm.trans (AList.lookup_erase _ _)) nofun
      · rwa [AList.lookup_erase_ne hne] at hg
    constructor
    · intro g h hg
      exact hsettle.le_tick g h (hkeep g h hg)
    · intro f' g hf' hg hgetf hgetg
      exact hsettle.usedAfter f' g hf' hg (hkeep f' hf' hgetf) (hkeep g hg hgetg)
  · exact hsettle

theorem stamped_run (cap : ℕ) (cs : List Call) : Stamped cap cs (run call (new cap) cs) :=
  run_induction ⟨fun _ _ h ↦ absurd h nofun, fun _ _ _ _ h ↦ absurd h nofun⟩
    (fun _ c hp ↦ stamped_call hp c) cs

/-- **The least recently used file is dropped**: every other that was there was used after it. -/
theorem usedAfter_of_evicted {c : Call} (hev : (run call (new cap) cs).evicted c = some f)
    (hne : g ≠ f) (hg : (((run call (new cap) cs).settle c).get g).isSome) :
    UsedAfter cap g f (cs ++ [c]) := by
  obtain ⟨h, hg⟩ := Option.isSome_iff_exists.mp hg
  cases c with
  | record file w r =>
    rw [evicted] at hev
    split at hev
    · obtain ⟨k, hk, hmin⟩ := oldest_eq_some hev
      exact (stamped_settle (stamped_run cap cs) _).usedAfter f g k h hk hg (Ne.symm hne)
        (hmin g h hg)
    · exact absurd hev nofun
  | standing file now => exact absurd hev nofun
  | forget file => exact absurd hev nofun

theorem tracked_run_le (cap : ℕ) (cs : List Call) : (run call (new cap) cs).tracked ≤ cap := by
  have hboth : (run call (new cap) cs).cap = cap ∧ (run call (new cap) cs).tracked ≤ cap := by
    induction cs using List.reverseRecOn with
    | nil => exact ⟨rfl, Nat.zero_le _⟩
    | append_singleton cs c ih =>
      rw [run_concat]
      refine ⟨(cap_call _ c).trans ih.1, ?_⟩
      have hle := tracked_call_le (ih.2.trans_eq ih.1.symm) c
      rwa [ih.1] at hle
  exact hboth.2

/-- **The memory answers for the contents it recorded, and for no others.** After any calls it
tracks no more files than it may; it believes of a file just what a call recorded of it as it now
looks, if none since then has superseded that record or dropped it; and where a call drops a file,
every other one still there was used after it was. -/
theorem answers_iff_since (cap : ℕ) (cs : List Call) :
    (run call (new cap) cs).tracked ≤ cap
      ∧ (∀ file now r, ((run call (new cap) cs).standing file now).1 = .ours r
          ↔ Since call (new cap) (Starts file now r) (Ends file now) cs)
      ∧ ∀ c f, (run call (new cap) cs).evicted c = some f →
          ((run call (new cap) cs).call c).get f = none
            ∧ ∀ g, (((run call (new cap) cs).call c).get g).isSome →
                UsedAfter cap g f (cs ++ [c]) := by
  refine ⟨tracked_run_le cap cs, fun file now r ↦ ?_, fun c f hev ↦ ⟨?_, fun g hg ↦ ?_⟩⟩
  · rw [standing_eq_ours_iff]
    refine holds_iff_since ?_ (fun _ _ ↦ believes_call) cs
    rintro ⟨tick, h⟩
    exact absurd h nofun
  · rw [get_call, if_pos hev]
  · rw [get_call] at hg
    split at hg
    · exact absurd hg nofun
    · rename_i hne
      exact usedAfter_of_evicted hev (fun h ↦ hne (h ▸ hev)) hg

end Runs

end HydrationAPI.Partial
