import Mathlib.Data.Nat.Init
import Mathlib.Logic.Relation

/-!
# Ancestry

A forest given by the parent of each of its members: what lies beneath what, how deep a member
lies, and what becomes of both when one member is moved. Nothing is assumed of the parents; a
member whose chain of parents ends has a depth, and no such chain goes in a circle.
-/

namespace Ancestry

variable {α : Type*} {up up' : α → Option α} {a b p r x y : α}

/-- `x` is `a` or lies beneath it. -/
def Under (up : α → Option α) (a x : α) : Prop :=
  Relation.ReflTransGen (fun x y ↦ up x = some y) x a

namespace Under

theorem refl (up : α → Option α) (x : α) : Under up x x := Relation.ReflTransGen.refl

theorem step (h : up x = some p) (hp : Under up a p) : Under up a x :=
  Relation.ReflTransGen.head h hp

theorem trans (hab : Under up a b) (hbx : Under up b x) : Under up a x :=
  Relation.ReflTransGen.trans hbx hab

theorem cases (h : Under up a x) : x = a ∨ ∃ p, up x = some p ∧ Under up a p := by
  rcases Relation.ReflTransGen.cases_head h with rfl | ⟨p, hp, hpa⟩
  · exact Or.inl rfl
  · exact Or.inr ⟨p, hp, hpa⟩

/-- The chain up to `a` is the same where the parents are the same all along. -/
theorem congr (h : Under up a x) (hup : ∀ y, Under up a y → Under up y x → y ≠ a → up' y = up y) :
    Under up' a x := by
  induction h using Relation.ReflTransGen.head_induction_on with
  | refl => exact refl up' a
  | head hxp hpa ih =>
    rename_i x p
    by_cases hxa : x = a
    · subst hxa
      exact refl up' x
    · refine step ((hup x (step hxp hpa) (refl up x) hxa).trans hxp) (ih fun y hay hyp hya ↦ ?_)
      exact hup y hay (step hxp hyp) hya

end Under

/-! ## Depth -/

/-- The chain of parents of `x` ends after `n` steps. -/
inductive Depth (up : α → Option α) : α → ℕ → Prop
  | top {x : α} : up x = none → Depth up x 0
  | step {x p : α} {n : ℕ} : up x = some p → Depth up p n → Depth up x (n + 1)

namespace Depth

theorem unique {n m : ℕ} (hn : Depth up x n) (hm : Depth up x m) : n = m := by
  induction hn generalizing m with
  | top h =>
    cases hm with
    | top => rfl
    | step h' _ => cases h.symm.trans h'
  | step h _ ih =>
    cases hm with
    | top h' => cases h.symm.trans h'
    | step h' hm =>
      cases h.symm.trans h'
      rw [ih hm]

/-- What lies above lies less deep. -/
theorem above {n : ℕ} (hn : Depth up x n) (h : Under up a x) :
    ∃ m, Depth up a m ∧ (a = x ∨ m < n) := by
  induction hn with
  | @top x htop =>
    rcases h.cases with rfl | ⟨p, hp, -⟩
    · exact ⟨0, .top htop, Or.inl rfl⟩
    · cases htop.symm.trans hp
  | @step x p n hxp hp ih =>
    rcases h.cases with rfl | ⟨p', hp', hap⟩
    · exact ⟨n + 1, .step hxp hp, Or.inl rfl⟩
    · cases hxp.symm.trans hp'
      obtain ⟨m, hm, hle⟩ := ih hap
      refine ⟨m, hm, Or.inr ?_⟩
      rcases hle with rfl | hlt
      · rw [hm.unique hp]
        exact Nat.lt_succ_self n
      · exact Nat.lt_succ_of_lt hlt

theorem exists_of_under (h : Under up r x) (hr : up r = none) : ∃ n, Depth up x n := by
  induction h using Relation.ReflTransGen.head_induction_on with
  | refl => exact ⟨0, .top hr⟩
  | head hxp _ ih =>
    obtain ⟨n, hn⟩ := ih
    exact ⟨n + 1, .step hxp hn⟩

end Depth

/-- **No circle**: where the chain of parents ends, two that lie beneath each other are one. -/
theorem Under.antisymm {n : ℕ} (hn : Depth up b n) (hab : Under up a b) (hba : Under up b a) :
    a = b := by
  obtain ⟨m, hm, hle⟩ := hn.above hab
  rcases hle with rfl | hlt
  · rfl
  · obtain ⟨k, hk, hle'⟩ := hm.above hba
    rcases hle' with rfl | hlt'
    · rfl
    · rw [hk.unique hn] at hlt'
      omega

/-! ## The chain upwards

Where the parents along the chain of `x` are what they were, what `x` lies beneath is what it
was. -/

theorem Under.carry (h : Under up a x) (hup : ∀ y, Under up' y x → up' y = up y) :
    Under up' a x := by
  induction h using Relation.ReflTransGen.head_induction_on with
  | refl => exact refl up' a
  | @head x p hxp _ ih =>
    have hxp' : up' x = some p := (hup x (refl up' x)).trans hxp
    exact step hxp' (ih fun y hy ↦ hup y (step hxp' hy))

theorem Depth.carry {n : ℕ} (h : Depth up x n) (hup : ∀ y, Under up' y x → up' y = up y) :
    Depth up' x n := by
  induction h with
  | @top x htop => exact .top ((hup x (Under.refl up' x)).trans htop)
  | @step x p n hxp _ ih =>
    have hxp' : up' x = some p := (hup x (Under.refl up' x)).trans hxp
    exact .step hxp' (ih fun y hy ↦ hup y (Under.step hxp' hy))

/-! ## Changes beneath a member -/

/-- Where the parents are the same outside of what lies beneath `x`, nothing has changed for what
lies outside. -/
theorem under_frame (hout : ∀ y, ¬ Under up x y → up' y = up y) (hy : ¬ Under up x y) :
    Under up' a y ↔ Under up a y := by
  constructor
  · intro h
    induction h using Relation.ReflTransGen.head_induction_on with
    | refl => exact Under.refl up a
    | head hyq _ ih =>
      rw [hout _ hy] at hyq
      exact Under.step hyq (ih fun h ↦ hy (Under.step hyq h))
  · exact fun h ↦ h.congr fun z _ hzy _ ↦ hout z fun hxz ↦ hy (hxz.trans hzy)

theorem depth_frame {n : ℕ} (hout : ∀ y, ¬ Under up x y → up' y = up y) (hy : ¬ Under up x y) :
    Depth up' y n ↔ Depth up y n := by
  induction n generalizing y with
  | zero =>
    constructor
    · rintro ⟨h⟩
      exact .top ((hout y hy).symm.trans h)
    · rintro ⟨h⟩
      exact .top ((hout y hy).trans h)
  | succ n ih =>
    constructor
    · intro h
      cases h with
      | step hq hd =>
        rw [hout y hy] at hq
        exact .step hq ((ih fun h ↦ hy (Under.step hq h)).mp hd)
    · intro h
      cases h with
      | step hq hd =>
        exact .step ((hout y hy).trans hq) ((ih fun h ↦ hy (Under.step hq h)).mpr hd)

/-! ### Moving a member

`x` is put beneath `p`, which does not lie beneath it; nobody else's parent changes. -/

section Move

variable (hx : up' x = some p) (hne : ∀ y, y ≠ x → up' y = up y) (hp : ¬ Under up x p)

include hne in
/-- What does not lie beneath `x` lies where it lay. -/
theorem under_move_of_not_under (hy : ¬ Under up x y) : Under up' a y ↔ Under up a y :=
  under_frame (fun z hz ↦ hne z fun hzx ↦ hz (hzx ▸ Under.refl up z)) hy

include hx hne hp in
/-- What lies beneath `x` goes with it: above it is still what was above it up to `x`, and now `p`
and what is above `p`. -/
theorem under_move_of_under {n : ℕ} (hn : Depth up y n) (hy : Under up x y) :
    Under up' a y ↔ (Under up a y ∧ Under up x a) ∨ Under up a p := by
  have hpa : Under up' a p ↔ Under up a p := under_move_of_not_under hne hp
  induction hn with
  | @top y htop =>
    rcases hy.cases with rfl | ⟨q, hq, -⟩
    · constructor
      · intro h
        rcases h.cases with rfl | ⟨q, hq, hqa⟩
        · exact Or.inl ⟨Under.refl up y, Under.refl up y⟩
        · cases hx.symm.trans hq
          exact Or.inr (hpa.mp hqa)
      · rintro (⟨h, -⟩ | h)
        · rcases h.cases with rfl | ⟨q, hq, -⟩
          · exact Under.refl up' y
          · cases htop.symm.trans hq
        · exact Under.step hx (hpa.mpr h)
    · cases htop.symm.trans hq
  | @step y q n hyq hq ih =>
    by_cases hyx : y = x
    · subst hyx
      constructor
      · intro h
        rcases h.cases with rfl | ⟨q', hq', hqa⟩
        · exact Or.inl ⟨Under.refl up y, Under.refl up y⟩
        · cases hx.symm.trans hq'
          exact Or.inr (hpa.mp hqa)
      · rintro (⟨h, hya⟩ | h)
        · rw [Under.antisymm (.step hyq hq) h hya]
          exact Under.refl up' y
        · exact Under.step hx (hpa.mpr h)
    · have hqx : Under up x q := by
        rcases hy.cases with h | ⟨q', hq', hqx⟩
        · exact absurd h hyx
        · cases hyq.symm.trans hq'
          exact hqx
      have hyq' : up' y = some q := (hne y hyx).trans hyq
      constructor
      · intro h
        rcases h.cases with rfl | ⟨q', hq', hqa⟩
        · exact Or.inl ⟨Under.refl up y, hy⟩
        · cases hyq'.symm.trans hq'
          exact ((ih hqx).mp hqa).imp_left fun h ↦ ⟨Under.step hyq h.1, h.2⟩
      · rintro (⟨h, hxa⟩ | h)
        · rcases h.cases with rfl | ⟨q', hq', hqa⟩
          · exact Under.refl up' y
          · cases hyq.symm.trans hq'
            exact Under.step hyq' ((ih hqx).mpr (Or.inl ⟨hqa, hxa⟩))
        · exact Under.step hyq' ((ih hqx).mpr (Or.inr h))

include hx hne hp in
/-- Nothing comes to lie beneath `x`, and nothing leaves it. -/
theorem under_move_self {n : ℕ} (hn : Depth up y n) : Under up' x y ↔ Under up x y := by
  by_cases hy : Under up x y
  · rw [under_move_of_under hx hne hp hn hy]
    exact ⟨fun _ ↦ hy, fun _ ↦ Or.inl ⟨hy, Under.refl up x⟩⟩
  · exact under_move_of_not_under hne hy

include hx hne hp in
/-- What lies beneath `x` comes to lie as deep beneath `p` as it lay beneath `x`, and one more. -/
theorem depth_move {n k m : ℕ} (hn : Depth up y n) (hy : Under up x y) (hk : Depth up x k)
    (hm : Depth up p m) : Depth up' y (m + 1 + (n - k)) := by
  have hself : Depth up' x (m + 1) := by
    refine .step hx ((depth_frame (fun z hz ↦ hne z fun hzx ↦ hz ?_) hp).mpr hm)
    exact hzx ▸ Under.refl up z
  induction hn with
  | @top y htop =>
    rcases hy.cases with rfl | ⟨q, hq, -⟩
    · rw [hk.unique (.top htop)]
      exact hself
    · cases htop.symm.trans hq
  | @step y q n hyq hq ih =>
    by_cases hyx : y = x
    · subst hyx
      rw [hk.unique (.step hyq hq), Nat.sub_self]
      exact hself
    · have hqx : Under up x q := by
        rcases hy.cases with h | ⟨q', hq', hqx⟩
        · exact absurd h hyx
        · cases hyq.symm.trans hq'
          exact hqx
      have hle : k ≤ n := by
        obtain ⟨k', hk', hle⟩ := hq.above hqx
        rw [hk.unique hk']
        rcases hle with rfl | hlt
        · exact Nat.le_of_eq (hk'.unique hq)
        · exact Nat.le_of_lt hlt
      have hstep : m + 1 + (n + 1 - k) = m + 1 + (n - k) + 1 := by omega
      rw [hstep]
      exact .step ((hne y hyx).trans hyq) (ih hqx)

end Move

end Ancestry
