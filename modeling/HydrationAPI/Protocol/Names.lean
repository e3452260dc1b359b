import HydrationAPI.Lib.Text

/-!
# The framework's own names

Files in the sync root that the framework writes for its own purposes, told by their names alone.
-/

namespace HydrationAPI.Names

def manifest : String := ".hydration-manifest"

/-- What the framework last knew about the object at each path. -/
def lineage : String := ".hydration-lineage"

/-- The optional per-device sync-ignore rules. -/
def ignore : String := ".hydration-ignore"

/-- A half-finished placeholder rename: `.<base>.hydration-<seq>`. -/
def isScratch (name : String) : Bool :=
  match Text.stripPrefix "." name with
  | none => false
  | some rest =>
    match Text.rsplitOnce ".hydration-" rest with
    | none => false
    | some (base, seq) => base != "" && seq != "" && seq.toList.all Char.isDigit

/-- True for anything the framework wrote for its own purposes. -/
def isInternal (name : String) : Bool :=
  name == manifest || name == ".hydration-manifest.tmp" || name == lineage
    || name == ".hydration-lineage.tmp" || name == ignore || isScratch name

example : isScratch ".report.txt.hydration-17" = true ∧ isInternal ".hydration-notes" = false := by
  decide

end HydrationAPI.Names
