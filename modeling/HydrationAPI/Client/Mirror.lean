import HydrationAPI.Client.Change
import HydrationAPI.Client.Namespace
import HydrationAPI.Lib.Updates

/-!
# The mirror

Whoever receives changes keeps what they say: for every object and kind, where it is and in which
version. Bringing a batch into order does not change what it says, unless it says that something is
gone after it has said that it is there.
-/

namespace HydrationAPI.Client

/-- What is kept of a file or folder that is there. -/
structure Listed where
  path : String
  size : ℕ
  etag : Option String
  deriving DecidableEq, Repr

/-- What is kept of every object, as a file and as a folder. -/
abbrev Mirror := String × KindTag → Option Listed

namespace Change

/-- The object and the kind a change is about. -/
def key : Change → String × KindTag
  | upserted cloudId .. | removed cloudId => (cloudId, .file)
  | folderUpserted cloudId .. | folderRemoved cloudId _ => (cloudId, .folder)

/-- What it says is there. -/
def entry : Change → Option Listed
  | upserted _ path size etag => some ⟨path, size, etag⟩
  | folderUpserted _ path etag => some ⟨path, 0, etag⟩
  | removed _ | folderRemoved .. => none

/-- Take up the changes, one after the other. -/
def fold (m : Mirror) (changes : List Change) : Mirror := changes.foldl (Updates.write key entry) m

theorem fold_append (m : Mirror) (a b : List Change) : fold m (a ++ b) = fold (fold m a) b :=
  List.foldl_append

theorem fold_singleton_self (m : Mirror) (c : Change) : fold m [c] c.key = c.entry :=
  Updates.write_self m c

theorem key_fst (c : Change) : c.key.1 = c.id := by cases c <;> rfl

/-- Two changes about one object and kind are the same kind of change if they agree on whether it is
there. -/
theorem same_iff {c d : Change} : Same c d ↔ c.key = d.key ∧ c.entry.isSome = d.entry.isSome := by
  cases c <;> cases d <;> simp [Same, key, entry, id, classOf]

/-- What is gone is said before what is there. -/
theorem not_before {c d : Change} (hc : c.entry.isSome = true) (hd : d.entry = none) :
    ¬ Before c d := by
  cases c <;> cases d <;> simp [entry] at hc hd <;> simp [Before, orderOf]

/-! ## The order of a batch -/

instance : Std.Total Before where
  total a b := by
    have hkey : ¬ b.sortKey < a.sortKey ∨ ¬ a.sortKey < b.sortKey :=
      String.le_total a.sortKey b.sortKey
    rw [Before, Before]
    grind

instance : IsTrans Change Before where
  trans a b c hab hbc := by
    have hkey : ¬ b.sortKey < a.sortKey → ¬ c.sortKey < b.sortKey → ¬ c.sortKey < a.sortKey :=
      String.le_trans
    rw [Before] at hab hbc ⊢
    grind

/-- Of the changes of one kind to one object one is kept. -/
theorem pairwise_lastOnes (changes : List Change) :
    (lastOnes changes).Pairwise fun c d ↦ ¬ Same c d := by
  induction changes with
  | nil => exact List.Pairwise.nil
  | cons c cs ih =>
    rw [lastOnes]
    split
    · exact ih
    · rename_i hlast
      refine List.Pairwise.cons (fun d hd hsame ↦ ?_) ih
      exact hlast ⟨d, mem_lastOnes_subset cs hd, hsame⟩

/-- It is the last one. -/
theorem mem_lastOnes_of_last {a b : List Change} {c : Change} (h : ∀ d ∈ b, ¬ Same c d) :
    c ∈ lastOnes (a ++ c :: b) := by
  induction a with
  | nil =>
    rw [List.nil_append, lastOnes, if_neg (by push Not; exact h)]
    exact List.mem_cons_self
  | cons e a ih =>
    rw [List.cons_append, lastOnes]
    split
    · exact ih
    · exact List.mem_cons_of_mem e ih

theorem eq_of_mem_lastOnes {changes : List Change} {c d : Change} (hc : c ∈ lastOnes changes)
    (hd : d ∈ lastOnes changes) (hsame : Same c d) : c = d := by
  by_contra hne
  have hsymm : Std.Symm fun c d ↦ ¬ Same c d := ⟨fun c d h hdc ↦ h ⟨hdc.1.symm, hdc.2.symm⟩⟩
  exact (pairwise_lastOnes changes).forall hc hd hne hsame

/-- The changes are in order as they are: none says that something is gone that one before it says
is there. -/
def Settled (changes : List Change) : Prop :=
  changes.Pairwise fun c d ↦ c.key = d.key → c.entry.isSome = true → d.entry.isSome = true

/-- **Bringing changes into order** does not change what they say, if they are settled. -/
theorem fold_finalise (m : Mirror) {changes : List Change} (h : Settled changes) :
    fold m (finalise changes) = fold m changes := by
  funext k
  rw [fold, fold]
  by_cases hex : ∃ c ∈ changes, c.key = k
  · obtain ⟨a, c, b, rfl, hkey, hlast⟩ := Updates.exists_last hex
    rw [Updates.foldl_write_of_last hkey fun d hd hdkey ↦ absurd hdkey (hlast d hd)]
    cases hentry : c.entry with
    | none =>
      -- nothing before it says that the object is there
      have hgone : ∀ d ∈ finalise (a ++ c :: b), d.key = k → d.entry = none := by
        intro d hd hdkey
        rcases List.mem_append.mp (mem_finalise_of_mem hd) with hda | hdb
        · have hsettled := (List.pairwise_append.mp h).2.2 d hda c List.mem_cons_self
            (hdkey.trans hkey.symm)
          rw [hentry] at hsettled
          cases hd' : d.entry with
          | none => rfl
          | some e => exact absurd (hsettled (by rw [hd']; rfl)) Bool.false_ne_true
        · rcases List.mem_cons.mp hdb with rfl | hdb
          · exact hentry
          · exact absurd hdkey (hlast d hdb)
      refine Updates.foldl_write_of_forall ?_ hgone
      obtain ⟨d, hd, hsame⟩ :=
        exists_same_mem_finalise (List.mem_append_right a (List.mem_cons_self (a := c) (l := b)))
      exact ⟨d, hd, (same_iff.mp hsame).1.symm.trans hkey⟩
    | some e =>
      have hsome : c.entry.isSome = true := by rw [hentry]; rfl
      have hmem : c ∈ lastOnes (a ++ c :: b) := by
        refine mem_lastOnes_of_last fun d hd hsame ↦ hlast d hd ?_
        exact (same_iff.mp hsame).1.symm.trans hkey
      have hmem' : c ∈ finalise (a ++ c :: b) := (List.mem_insertionSort _).mpr hmem
      obtain ⟨x, y, hsplit⟩ := List.append_of_mem hmem'
      have hsorted : (x ++ c :: y).Pairwise Before := by
        rw [← hsplit]
        exact List.pairwise_insertionSort Before _
      rw [hsplit, ← hentry]
      refine Updates.foldl_write_of_last hkey fun d hd hdkey ↦ ?_
      have hd' : d ∈ lastOnes (a ++ c :: b) := by
        have hin : d ∈ finalise (a ++ c :: b) :=
          hsplit ▸ List.mem_append_right _ (List.mem_cons_of_mem c hd)
        exact (List.mem_insertionSort _).mp hin
      have hbefore : Before c d :=
        (List.pairwise_cons.mp (List.pairwise_append.mp hsorted).2.1).1 d hd
      have hdsome : d.entry.isSome = true := by
        cases hde : d.entry with
        | none => exact absurd hbefore (not_before hsome hde)
        | some e' => rfl
      have hsame : Same c d := same_iff.mpr ⟨hkey.trans hdkey.symm, hsome.trans hdsome.symm⟩
      rw [eq_of_mem_lastOnes hmem hd' hsame]
  · have habsent : ∀ c ∈ changes, c.key ≠ k := fun c hc hkey ↦ hex ⟨c, hc, hkey⟩
    rw [Updates.foldl_write_of_absent habsent,
      Updates.foldl_write_of_absent fun c hc ↦ habsent c (mem_finalise_of_mem hc)]

end Change

end HydrationAPI.Client
