import HydrationAPI.Client.Held

/-!
# What waits for something that was refused

A refusal takes with it what waits for the item that is refused, and what waits for that: all of it
is recorded, and none of it waits any longer. What comes later is held without a look at what has
been refused. So what is kept is this: as long as nothing is held for an id that is recorded, and no
second root is recorded that something waits for, nothing waits for what has been refused.
-/

namespace HydrationAPI.Client

namespace Namespace

variable {ns ns' : Namespace} {item : Item} {work items : List Item} {u v w : Upsert} {x : String}

/-- The item waits for a parent that was refused, is recorded, and is no node. -/
def Stranded (ns : Namespace) (u : Upsert) : Prop :=
  u ∈ ns.waiting ∧ ns.problems.lookup u.parent ≠ none ∧ ns.nodes.lookup u.parent = none

/-- Nothing waits for an id that is recorded. -/
def Clear (ns : Namespace) : Prop := ∀ u ∈ ns.waiting, ns.problems.lookup u.parent = none

/-! ## A refusal -/

section Refuse

variable {why : Problem} {stack : List String} {waiting : List Upsert}
  {problems : AList fun _ : String ↦ Problem}

theorem refuseFrom_recorded (h : problems.lookup x ≠ none) :
    (refuseFrom why stack waiting problems).2.lookup x ≠ none := by
  fun_induction refuseFrom why stack waiting problems with
  | case1 waiting problems => exact h
  | case2 id stack waiting problems ih =>
    refine ih ?_
    by_cases hx : x = id
    · rw [hx, AList.lookup_insert]
      exact Option.some_ne_none why
    · rwa [AList.lookup_insert_ne hx]

/-- What goes on waiting does not wait for anything that has been recorded on the way. -/
theorem refuseFrom_lookup_parent (hu : u ∈ (refuseFrom why stack waiting problems).1) :
    (refuseFrom why stack waiting problems).2.lookup u.parent = problems.lookup u.parent := by
  fun_induction refuseFrom why stack waiting problems with
  | case1 waiting problems => rfl
  | case2 id stack waiting problems ih =>
    have hne : u.parent ≠ id :=
      of_decide_eq_true (List.mem_filter.mp ((refuseFrom_sublist _ _ _ _).subset hu)).2
    exact (ih hu).trans (AList.lookup_insert_ne hne)

/-- The id is recorded, and nothing waits for it any longer. -/
def Closed (x : String) (r : List Upsert × AList fun _ : String ↦ Problem) : Prop :=
  r.2.lookup x ≠ none ∧ ∀ u ∈ r.1, u.parent ≠ x

/-- What is on the stack is closed, and so is what no longer waits. -/
theorem refuseFrom_closed :
    (∀ s ∈ stack, Closed s (refuseFrom why stack waiting problems))
      ∧ ∀ u ∈ waiting, u ∈ (refuseFrom why stack waiting problems).1
        ∨ Closed u.id (refuseFrom why stack waiting problems) := by
  fun_induction refuseFrom why stack waiting problems with
  | case1 waiting problems => exact ⟨fun s hs ↦ absurd hs List.not_mem_nil, fun u hu ↦ Or.inl hu⟩
  | case2 id stack waiting problems ih =>
    obtain ⟨hstack, hrest⟩ := ih
    refine ⟨fun s hs ↦ ?_, fun u hu ↦ ?_⟩
    · rcases List.mem_cons.mp hs with rfl | hs
      · refine ⟨refuseFrom_recorded ?_, fun u hu ↦ ?_⟩
        · rw [AList.lookup_insert]
          exact Option.some_ne_none why
        · exact of_decide_eq_true (List.mem_filter.mp ((refuseFrom_sublist _ _ _ _).subset hu)).2
      · exact hstack s (List.mem_append_right _ hs)
    · by_cases hparent : u.parent = id
      · refine Or.inr (hstack u.id (List.mem_append_left _ (List.mem_reverse.mpr ?_)))
        exact List.mem_map_of_mem (List.mem_filter.mpr ⟨hu, decide_eq_true hparent⟩)
      · exact hrest u (List.mem_filter.mpr ⟨hu, decide_eq_true hparent⟩)

/-- **What hangs from the stack is closed**, over any number of others that wait. -/
theorem closed_of_chain {s : String} (hs : s ∈ stack)
    (hchain : Relation.ReflTransGen (WaitsFor waiting) x s) :
    Closed x (refuseFrom why stack waiting problems) := by
  induction hchain using Relation.ReflTransGen.head_induction_on with
  | refl => exact refuseFrom_closed.1 s hs
  | head hxy _ ih =>
    obtain ⟨u, hu, rfl, rfl⟩ := hxy
    exact (refuseFrom_closed.2 u hu).resolve_left fun hrest ↦ ih.2 u hrest rfl

end Refuse

/-- **A refusal reaches all that waits beneath it**: the item and whatever waits for it, over any
number of others, is recorded, and does not go on waiting. -/
theorem refuse_spec (ns : Namespace) (id : String) (why : Problem) :
    (ns.refuse id why).problems.lookup id ≠ none
      ∧ ∀ w ∈ ns.waiting, Relation.ReflTransGen (WaitsFor ns.waiting) w.parent id →
        (ns.refuse id why).problems.lookup w.id ≠ none ∧ w ∉ (ns.refuse id why).waiting := by
  have hstack : id ∈ [id] := List.mem_singleton.mpr rfl
  refine ⟨(closed_of_chain hstack .refl).1, fun w hw hchain ↦ ⟨?_, fun hrest ↦ ?_⟩⟩
  · exact (closed_of_chain hstack (.head ⟨w, hw, rfl, rfl⟩ hchain)).1
  · exact (closed_of_chain hstack hchain).2 w hrest rfl

/-! ## Nothing else is recorded -/

theorem foldl_drop_problems (ids : List String) (ns : Namespace) (x : String) :
    (ids.foldl drop ns).problems.lookup x = none
      ∨ (ids.foldl drop ns).problems.lookup x = ns.problems.lookup x := by
  induction ids generalizing ns with
  | nil => exact Or.inr rfl
  | cons id ids ih =>
    rw [List.foldl_cons]
    refine (ih (ns.drop id)).elim Or.inl fun hsame ↦ ?_
    rw [hsame]
    by_cases hx : x = id
    · exact Or.inl (hx ▸ AList.lookup_erase _ _)
    · exact Or.inr (AList.lookup_erase_ne hx)

@[simp] theorem detach_problems (ns : Namespace) (parent : Option String) (id : String) :
    (ns.detach parent id).problems = ns.problems := by
  unfold detach
  split
  · rfl
  · split <;> rfl

theorem delete_problems (ns : Namespace) (id x : String) :
    (ns.delete id).1.problems.lookup x = none
      ∨ (ns.delete id).1.problems.lookup x = ns.problems.lookup x := by
  rw [delete]
  split
  · by_cases hx : x = id
    · exact Or.inl (hx ▸ AList.lookup_erase _ _)
    · exact Or.inr (AList.lookup_erase_ne hx)
  · dsimp only
    rw [detach_problems]
    exact foldl_drop_problems (ns.collectIds id ++ [id]) ns x |>.imp
      (fun h ↦ by rwa [List.foldl_append] at h) fun h ↦ by rwa [List.foldl_append] at h

theorem attach_problems (ns : Namespace) (u : Upsert) (x : String) :
    (ns.attach u).1.problems.lookup x = none
      ∨ (ns.attach u).1.problems.lookup x = ns.problems.lookup x := by
  have hplace : ∀ n : Namespace, (n.place (ns.nodes.lookup u.id) u).problems
      = n.problems.erase u.id := fun n ↦ by
    rw [place]
    dsimp only
    rw [detach_problems]
  rw [attach_eq, hplace]
  by_cases hx : x = u.id
  · exact Or.inl (hx ▸ AList.lookup_erase _ _)
  · rw [AList.lookup_erase_ne hx, cleared]
    split
    · exact ns.delete_problems u.id x
    · exact Or.inr rfl

/-! ## The run -/

/-- Nothing is held for an id that is recorded, and no second root is recorded that something waits
for. -/
def Expected (ns : Namespace) : Item → Prop
  | .root id => (∃ r, ns.root = some r ∧ r ≠ id) → ∀ u ∈ ns.waiting, u.parent ≠ id
  | .upsert u => ns.refusal u = none → ns.nodes.lookup u.parent = none →
      ns.problems.lookup u.parent = none
  | .delete _ => True

theorem Clear.mono (h : ns.Clear) (hsub : ns'.waiting ⊆ ns.waiting)
    (hproblems : ∀ u ∈ ns'.waiting, ns'.problems.lookup u.parent = none
      ∨ ns'.problems.lookup u.parent = ns.problems.lookup u.parent) : ns'.Clear := by
  intro u hu
  rcases hproblems u hu with hnone | hsame
  · exact hnone
  · exact hsame.trans (h u (hsub hu))

/-- **An item that is expected** leaves nothing waiting for an id that is recorded. -/
theorem Clear.workOff (h : ns.Clear) (hitem : ns.Expected item) :
    (ns.workOff item work).1.Clear := by
  have hout := ns.applyOne_outcome item
  rw [Namespace.workOff]
  generalize ns.applyOne item = r at hout
  cases hout with
  | foreign id r hr hne =>
    refine h.mono (List.Subset.refl _) fun u hu ↦ Or.inr ?_
    exact AList.lookup_insert_ne (hitem ⟨r, hr, hne⟩ u hu)
  | root id _ => exact h.mono (dropBucket_sublist _ _).subset fun _ _ ↦ Or.inr rfl
  | refused u why _ =>
    exact h.mono (refuseFrom_sublist _ _ _ _).subset fun _ hu ↦ Or.inr (refuseFrom_lookup_parent hu)
  | held u hrefusal hparent =>
    intro v hv
    rcases List.mem_append.mp hv with hv | hv
    · exact h v hv
    · rw [List.mem_singleton.mp hv]
      exact hitem hrefusal hparent
  | attached u _ _ =>
    refine h.mono (fun v hv ↦ ?_) fun v _ ↦ ns.attach_problems u v.parent
    exact (ns.attach_waiting_sublist u).subset ((dropBucket_sublist _ _).subset hv)
  | deleted id =>
    exact h.mono (ns.delete_waiting_sublist id).subset fun v _ ↦ ns.delete_problems id v.parent

/-- **No item waits for what is known to be refused** in a run in which every item is expected; and
whenever one is refused, all that waits beneath it is recorded and waits no longer. -/
theorem none_stranded (items : List Item)
    (hexpected : ∀ ns' item, Course new items ns' item → ns'.Expected item) :
    (∀ u, ¬ (new.applyAll items).Stranded u)
      ∧ ∀ ns' u why, Course new items ns' (.upsert u) → ns'.refusal u = some why →
        (ns'.applyOne (.upsert u)).1.problems.lookup u.id ≠ none
          ∧ ∀ w ∈ ns'.waiting, Relation.ReflTransGen (WaitsFor ns'.waiting) w.parent u.id →
            (ns'.applyOne (.upsert u)).1.problems.lookup w.id ≠ none
              ∧ w ∉ (ns'.applyOne (.upsert u)).1.waiting := by
  constructor
  · have hclear : (new.applyAll items).Clear := by
      refine applyAll_induction (P := fun ns _ ↦ ns.Clear) (fun _ _ _ h ↦ h) ?_
        fun u hu ↦ absurd hu List.not_mem_nil
      exact fun ns' item work hcourse h ↦ h.workOff (hexpected ns' item hcourse)
    exact fun u hu ↦ hu.2.1 (hclear u hu.1)
  · intro ns' u why _ hwhy
    rw [applyOne_of_refusal hwhy]
    exact ns'.refuse_spec u.id why

/-! ### A file that comes before the folder it is in, and one that comes after -/

/-- A folder whose name is refused. -/
def refusedFolder : Item := .upsert ⟨"b", "r", "..", .folder none⟩

/-- A file in it. -/
def fileInRefused : Item := .upsert ⟨"a", "b", "a", .file 1 none⟩

theorem none_stranded_before :
    (∀ u, ¬ (new.applyAll [.root "r", fileInRefused, refusedFolder]).Stranded u)
      ∧ ∀ ns' u why,
        Course new [.root "r", fileInRefused, refusedFolder] ns' (.upsert u) →
        ns'.refusal u = some why →
        (ns'.applyOne (.upsert u)).1.problems.lookup u.id ≠ none
          ∧ ∀ w ∈ ns'.waiting, Relation.ReflTransGen (WaitsFor ns'.waiting) w.parent u.id →
            (ns'.applyOne (.upsert u)).1.problems.lookup w.id ≠ none
              ∧ w ∉ (ns'.applyOne (.upsert u)).1.waiting := by
  refine none_stranded [.root "r", fileInRefused, refusedFolder] ?_
  refine forall_course_cons (by decide +kernel) ?_ (forall_course_cons (by decide +kernel) ?_
    (forall_course_cons (by decide +kernel) ?_ forall_course_nil))
  · rintro ⟨r, hr, -⟩
    exact nomatch hr
  · exact fun _ _ ↦ by decide +kernel
  · exact fun hrefusal ↦ absurd hrefusal (by decide +kernel)

/-- **The file that comes after the refusal waits for good.** -/
theorem stranded_after :
    (new.applyAll [.root "r", refusedFolder, fileInRefused]).Stranded ⟨"a", "b", "a", .file 1 none⟩
      ∧ (new.applyAll [.root "r", refusedFolder, fileInRefused]).problems.lookup "a" = none := by
  refine ⟨⟨?_, ?_, ?_⟩, ?_⟩
  all_goals decide +kernel

end Namespace

end HydrationAPI.Client
