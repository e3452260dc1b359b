import HydrationAPI.Protocol.Span
import Mathlib.Data.List.Sort

/-!
# Changes

What a feed of changes says about one file or folder, by path. The changes of one batch are brought
into an order in which they can be carried out: removals first, the deepest folders before those
that contain them, and then what exists, parents before children. Of several changes of one kind to
one object the last is kept.
-/

namespace HydrationAPI.Client

inductive Change where
  /-- Present in the cloud with this content. -/
  | upserted (cloudId path : String) (size : ℕ) (etag : Option String)
  /-- A cloud folder, including an empty one. The root has the empty path. -/
  | folderUpserted (cloudId path : String) (etag : Option String)
  /-- Gone from the cloud. -/
  | removed (cloudId : String)
  | folderRemoved (cloudId path : String)
  deriving DecidableEq, Repr

namespace Change

/-- `id_of`. -/
def id : Change → String
  | upserted cloudId .. | folderUpserted cloudId .. | removed cloudId | folderRemoved cloudId _ =>
    cloudId

def sortKey : Change → String
  | upserted _ path .. | folderUpserted _ path _ | folderRemoved _ path => path
  | removed cloudId => cloudId

def classOf : Change → ℕ
  | removed _ => 0
  | folderRemoved .. => 1
  | upserted .. => 2
  | folderUpserted .. => 3

/-- The number of separators in a path. -/
def separators (path : String) : ℕ := path.toList.count '/'

def orderOf : Change → ℕ × ℕ
  | removed _ => (0, 0)
  | folderRemoved _ path => (1, u64Max - separators path)
  | upserted _ path .. | folderUpserted _ path _ =>
    (2, separators path + if path = "" then 0 else 1)

/-- The order of a batch: by `orderOf`, and then by `sortKey`. -/
def Before (a b : Change) : Prop :=
  a.orderOf.1 < b.orderOf.1 ∨ a.orderOf.1 = b.orderOf.1 ∧ (a.orderOf.2 < b.orderOf.2
    ∨ a.orderOf.2 = b.orderOf.2 ∧ ¬ b.sortKey < a.sortKey)

instance : DecidableRel Before := fun _ _ ↦
  inferInstanceAs (Decidable (_ ∨ _ ∧ (_ ∨ _ ∧ _)))

/-- The two say something of one kind about one object. -/
def Same (a b : Change) : Prop := a.id = b.id ∧ a.classOf = b.classOf

instance : DecidableRel Same := fun _ _ ↦ inferInstanceAs (Decidable (_ ∧ _))

/-- Keep the last change of every kind to every object. -/
def lastOnes : List Change → List Change
  | [] => []
  | c :: cs => if ∃ d ∈ cs, Same c d then lastOnes cs else c :: lastOnes cs

/-- One change per object and kind, parents before children. -/
def finalise (changes : List Change) : List Change :=
  (lastOnes changes).insertionSort Before

theorem mem_lastOnes_subset (changes : List Change) : lastOnes changes ⊆ changes := by
  induction changes with
  | nil => exact List.Subset.refl _
  | cons c cs ih =>
    rw [lastOnes]
    split
    · exact List.Subset.trans ih (List.subset_cons_self c cs)
    · exact List.cons_subset_cons c ih

/-- Something of the kind is kept of every change. -/
theorem exists_same_mem_lastOnes {changes : List Change} {c : Change} (hc : c ∈ changes) :
    ∃ d ∈ lastOnes changes, Same c d := by
  induction changes generalizing c with
  | nil => cases hc
  | cons e cs ih =>
    rw [lastOnes]
    split
    · rename_i hlater
      rcases List.mem_cons.mp hc with rfl | hc
      · obtain ⟨d, hd, hsame⟩ := hlater
        obtain ⟨f, hf, hsame'⟩ := ih hd
        exact ⟨f, hf, hsame.1.trans hsame'.1, hsame.2.trans hsame'.2⟩
      · exact ih hc
    · rcases List.mem_cons.mp hc with rfl | hc
      · exact ⟨c, List.mem_cons_self, rfl, rfl⟩
      · obtain ⟨d, hd, hsame⟩ := ih hc
        exact ⟨d, List.mem_cons_of_mem _ hd, hsame⟩

/-- The change is the last that says something of its object. -/
def LastOf (changes : List Change) (c : Change) : Prop :=
  ∃ before after, changes = before ++ c :: after ∧ ∀ d ∈ after, d.id ≠ c.id

theorem lastOnes_append (as bs : List Change) : ∃ as', lastOnes (as ++ bs) = as' ++ lastOnes bs := by
  induction as with
  | nil => exact ⟨[], rfl⟩
  | cons a as ih =>
    obtain ⟨as', has⟩ := ih
    rw [List.cons_append, lastOnes, has]
    split
    · exact ⟨as', rfl⟩
    · exact ⟨a :: as', rfl⟩

/-- What is last of an object stays last. -/
theorem LastOf.lastOnes {changes : List Change} {c : Change} (h : LastOf changes c) :
    LastOf (lastOnes changes) c := by
  obtain ⟨as, bs, rfl, hlast⟩ := h
  obtain ⟨as', has⟩ := lastOnes_append as (c :: bs)
  have hnone : ¬ ∃ d ∈ bs, Same c d := fun ⟨d, hd, hsame⟩ ↦ hlast d hd hsame.1.symm
  refine ⟨as', Change.lastOnes bs, ?_, fun d hd ↦ hlast d (mem_lastOnes_subset bs hd)⟩
  rw [has, Change.lastOnes, if_neg hnone]

theorem mem_finalise_of_mem {changes : List Change} {c : Change} (hc : c ∈ finalise changes) :
    c ∈ changes :=
  mem_lastOnes_subset changes ((List.mem_insertionSort _).mp hc)

theorem exists_same_mem_finalise {changes : List Change} {c : Change} (hc : c ∈ changes) :
    ∃ d ∈ finalise changes, Same c d := by
  obtain ⟨d, hd, hsame⟩ := exists_same_mem_lastOnes hc
  exact ⟨d, (List.mem_insertionSort _).mpr hd, hsame⟩

end Change

end HydrationAPI.Client
