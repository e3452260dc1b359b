import Mathlib.Data.List.Infix

/-!
# Deciding whether a reader gets to hydrate

The cgroup of the reader is the only key that works; a reader that cannot be identified is not
refused for it.
-/

namespace HydrationAPI

/-- What to do with a reader. -/
inductive Decision where
  | hydrate
  | deny (rule : String)
  deriving DecidableEq, Repr

/-- Which readers are not allowed to pull content down. -/
structure Policy where
  denied : List String
  deriving Repr

namespace Policy

/-- Allow everything. -/
def permissive : Policy := ⟨[]⟩

/-- The first rule that occurs in the cgroup's path decides. -/
def decide (p : Policy) (cgroup : Option String) : Decision :=
  match cgroup with
  | none => .hydrate
  | some cgroup =>
    match p.denied.find? fun rule ↦ Decidable.decide (rule.toList <:+: cgroup.toList) with
    | some rule => .deny rule
    | none => .hydrate

end Policy

end HydrationAPI
