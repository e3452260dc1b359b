import HydrationAPI.Lib.SortedMap
import Mathlib.Data.String.Basic

/-!
# Documents

Values that are kept as documents: what is written of a value, and what is read of a document. A
record is an object in which fields nobody asks for are passed over and a field given twice is an
error; a field that is missing may be an error, stand for nothing, or have a default. An alternative
of an enumeration is its name, or an object with the name alone and what the alternative carries.

How a document becomes text, and text a document, is left to a library.
-/

namespace Serde

/-- A document. Of the numbers only the natural ones are told apart. -/
inductive Value where
  | null
  | bool (b : Bool)
  | num (n : ℕ)
  /-- A number with a sign, a fraction or an exponent, as it is written. -/
  | number (text : String)
  | str (s : String)
  | arr (values : List Value)
  | obj (fields : List (String × Value))

/-- The library that writes documents and reads them. -/
structure Text where
  toVec : Value → Option (List UInt8)
  fromSlice : List UInt8 → Option Value
  /-- What the library has to say of bytes that do not read. -/
  complaint : List UInt8 → String

/-- What the library writes of this document, it reads as this document. -/
def Text.ReadsBack (text : Text) (v : Value) : Prop :=
  ∃ bytes, text.toVec v = some bytes ∧ text.fromSlice bytes = some v

/-! ## Taking a document apart -/

namespace Value

def fields : Value → Option (List (String × Value))
  | .obj fields => some fields
  | _ => none

/-- What is given for a field, as often as it is given. -/
def given (fields : List (String × Value)) (name : String) : List Value :=
  (fields.filter (·.1 = name)).map Prod.snd

@[simp] theorem given_nil (name : String) : given [] name = [] := by simp [given]

@[simp] theorem given_cons_self (name : String) (v : Value) (fields : List (String × Value)) :
    given ((name, v) :: fields) name = v :: given fields name := by
  simp [given]

@[simp] theorem given_cons_ne {name other : String} (h : other ≠ name) (v : Value)
    (fields : List (String × Value)) : given ((other, v) :: fields) name = given fields name := by
  simp [given, h]

/-- The alternative of an enumeration a document names, and what comes with it. -/
def variant : Value → Option (String × Option Value)
  | .str name => some (name, none)
  | .obj [(name, v)] => some (name, some v)
  | _ => none

/-- An alternative that carries nothing says so. -/
def unit : Option Value → Bool
  | none | some .null => true
  | some _ => false

end Value

/-! ## Forms -/

/-- How values of a type are kept: what is written of a value that fits reads as that value, and
what is read fits. -/
structure Form (α : Type) where
  write : α → Value
  read : Value → Option α
  Fits : α → Prop
  read_write : ∀ {a : α}, Fits a → read (write a) = some a
  fits_of_read : ∀ {v : Value} {a : α}, read v = some a → Fits a

namespace Form

variable {α : Type} (f : Form α)

def str : Form String where
  write := .str
  read
    | .str s => some s
    | _ => none
  Fits _ := True
  read_write _ := rfl
  fits_of_read _ := trivial

@[simp] theorem fits_str (s : String) : str.Fits s := trivial

theorem write_str_ne (s : String) : str.write s ≠ .null := nofun

def readU64 : Value → Option ℕ
  | .num n => if n < 2 ^ 64 then some n else none
  | _ => none

theorem lt_of_readU64 {v : Value} {n : ℕ} (h : readU64 v = some n) : n < 2 ^ 64 := by
  unfold readU64 at h
  split at h
  · split at h
    · rename_i hlt
      exact Option.some_inj.mp h ▸ hlt
    · cases h
  · cases h

/-- A count of 64 bits. -/
def u64 : Form ℕ where
  write := .num
  read := readU64
  Fits n := n < 2 ^ 64
  read_write h := if_pos h
  fits_of_read := lt_of_readU64

/-- Read a value that may be left open. -/
def readOption : Value → Option (Option α)
  | .null => some none
  | v => (f.read v).map some

theorem readOption_of_ne {v : Value} (h : v ≠ .null) : f.readOption v = (f.read v).map some := by
  unfold readOption
  split
  · exact absurd rfl h
  · rfl

theorem fits_of_readOption {v : Value} {a : Option α} (h : f.readOption v = some a) :
    ∀ x, a = some x → f.Fits x := by
  rintro x rfl
  by_cases hnull : v = .null
  · rw [hnull] at h
    cases h
  · rw [f.readOption_of_ne hnull] at h
    obtain ⟨y, hy, hyx⟩ := Option.map_eq_some_iff.mp h
    exact Option.some_inj.mp hyx ▸ f.fits_of_read hy

/-- A value that may be left open, of a kind that never looks as if it were. -/
def option (hne : ∀ a, f.write a ≠ .null) : Form (Option α) where
  write
    | none => .null
    | some a => f.write a
  read := f.readOption
  Fits a := ∀ x, a = some x → f.Fits x
  read_write {a} h := by
    cases a with
    | none => rfl
    | some x =>
      rw [f.readOption_of_ne (hne x), f.read_write (h x rfl)]
      rfl
  fits_of_read := f.fits_of_readOption

def readList : Value → Option (List α)
  | .arr values => values.mapM f.read
  | _ => none

theorem mapM_read_map_write {xs : List α} (h : ∀ x ∈ xs, f.Fits x) :
    (xs.map f.write).mapM f.read = some xs := by
  induction xs with
  | nil => rfl
  | cons x xs ih =>
    rw [List.map_cons, List.mapM_cons, f.read_write (h x List.mem_cons_self),
      ih fun y hy ↦ h y (List.mem_cons_of_mem x hy)]
    rfl

/-- Whatever comes of a list comes of its members. -/
theorem forall_of_mapM {β : Type} {g : β → Option α} {P : α → Prop}
    (hg : ∀ {b a}, g b = some a → P a) {bs : List β} {xs : List α} (h : bs.mapM g = some xs) :
    ∀ x ∈ xs, P x := by
  induction bs generalizing xs with
  | nil =>
    cases h
    exact fun x hx ↦ absurd hx List.not_mem_nil
  | cons b bs ih =>
    rw [List.mapM_cons] at h
    obtain ⟨y, hy, hrest⟩ := Option.bind_eq_some_iff.mp h
    obtain ⟨ys, hys, hxs⟩ := Option.bind_eq_some_iff.mp hrest
    cases hxs
    exact List.forall_mem_cons.mpr ⟨hg hy, ih hys⟩

theorem fits_of_readList {v : Value} {xs : List α} (h : f.readList v = some xs) :
    ∀ x ∈ xs, f.Fits x := by
  unfold readList at h
  split at h
  · exact forall_of_mapM f.fits_of_read h
  · cases h

def list : Form (List α) where
  write xs := .arr (xs.map f.write)
  read := f.readList
  Fits xs := ∀ x ∈ xs, f.Fits x
  read_write h := f.mapM_read_map_write h
  fits_of_read := f.fits_of_readList

def readMap (v : Value) : Option (SortedMap String α) := do
  let fields ← v.fields
  let entries ← fields.mapM fun e ↦ (f.read e.2).map fun a ↦ (e.1, a)
  pure (SortedMap.ofList entries)

theorem mapM_entry_map_write {entries : List (String × α)} (h : ∀ e ∈ entries, f.Fits e.2) :
    (entries.map fun e ↦ (e.1, f.write e.2)).mapM (fun e ↦ (f.read e.2).map fun a ↦ (e.1, a))
      = some entries := by
  induction entries with
  | nil => rfl
  | cons e entries ih =>
    rw [List.map_cons, List.mapM_cons, f.read_write (h e List.mem_cons_self),
      ih fun d hd ↦ h d (List.mem_cons_of_mem e hd)]
    rfl

/-- A map from names; of a name that is given twice the later entry counts. -/
def map (hfits : ∀ a, f.Fits a) : Form (SortedMap String α) where
  write m := .obj (m.entries.map fun e ↦ (e.1, f.write e.2))
  read := f.readMap
  Fits _ := True
  read_write {m} _ := by
    have hentries := f.mapM_entry_map_write fun e (_ : e ∈ m.entries) ↦ hfits e.2
    rw [readMap, Value.fields, Option.bind_eq_bind, Option.bind_some, hentries]
    exact congrArg some m.ofList_entries
  fits_of_read _ := trivial

/-! ### Fields of a record -/

variable (fields : List (String × Value)) (name : String)

/-- A field that has to be there. -/
def required : Option α :=
  match Value.given fields name with
  | [v] => f.read v
  | _ => none

/-- A field that may be missing, and then stands for nothing. -/
def optional : Option (Option α) :=
  match Value.given fields name with
  | [] => some none
  | [v] => f.readOption v
  | _ => none

/-- A field that may be missing, and then has this value. -/
def defaulted (default : α) : Option α :=
  match Value.given fields name with
  | [] => some default
  | [v] => f.read v
  | _ => none

variable {f fields name} {a : α} {other : String} {v : Value}

@[simp] theorem required_cons_self (habsent : Value.given fields name = []) (hfits : f.Fits a) :
    f.required ((name, f.write a) :: fields) name = some a := by
  rw [required, Value.given_cons_self, habsent]
  exact f.read_write hfits

@[simp] theorem required_cons_ne (h : other ≠ name) :
    f.required ((other, v) :: fields) name = f.required fields name := by
  rw [required, required, Value.given_cons_ne h]

@[simp] theorem optional_cons_self {hne : ∀ a, f.write a ≠ .null} {x : Option α}
    (habsent : Value.given fields name = []) (hfits : (f.option hne).Fits x) :
    f.optional ((name, (f.option hne).write x) :: fields) name = some x := by
  rw [optional, Value.given_cons_self, habsent]
  exact (f.option hne).read_write hfits

@[simp] theorem optional_cons_ne (h : other ≠ name) :
    f.optional ((other, v) :: fields) name = f.optional fields name := by
  rw [optional, optional, Value.given_cons_ne h]

@[simp] theorem defaulted_cons_self {default : α} (habsent : Value.given fields name = [])
    (hfits : f.Fits a) : f.defaulted ((name, f.write a) :: fields) name default = some a := by
  rw [defaulted, Value.given_cons_self, habsent]
  exact f.read_write hfits

@[simp] theorem defaulted_cons_ne {default : α} (h : other ≠ name) :
    f.defaulted ((other, v) :: fields) name default = f.defaulted fields name default := by
  rw [defaulted, defaulted, Value.given_cons_ne h]

theorem fits_of_required (h : f.required fields name = some a) : f.Fits a := by
  unfold required at h
  split at h
  · exact f.fits_of_read h
  · cases h

theorem fits_of_defaulted {default : α} (hdefault : f.Fits default)
    (h : f.defaulted fields name default = some a) : f.Fits a := by
  unfold defaulted at h
  split at h
  · exact Option.some_inj.mp h ▸ hdefault
  · exact f.fits_of_read h
  · cases h

end Form

end Serde
