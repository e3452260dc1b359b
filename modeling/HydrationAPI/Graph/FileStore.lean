import HydrationAPI.Graph.Discover
import HydrationAPI.Lib.Replace
import HydrationAPI.Lib.Team

/-!
# The state directory

The tree, the token and the credential lie in one directory, each in a file of its own that is
replaced as a whole: what is new is written beside it, put on the disk and renamed, and the directory
is put on the disk after that. One thread saves the first two, whoever holds the lock of the token
cache the third, and the process may be killed, or power may fail, at any time.

The directory itself is there, and nobody else uses it; the credential is in it unless the user has
said where else it is to be. After a failure of power the directory is what it was at one of the
changes since it was last put on the disk.
-/

namespace HydrationAPI.Graph.FileStore

open Dialogue Errand
open Replace (Call Files Layout lastOf call)

/-! ## The store -/

/-- What a file is replaced by. The numbers are those of the batches. -/
inductive Content where
  | tree (serial : ℕ) (blob : TreeBlob)
  | token (serial : ℕ) (blob : TokenBlob)
  | credential (refresh : String)

def Content.bytes (text : Serde.Text) : Content → List UInt8
  | .tree _ blob => blob.bytes
  | .token _ blob => blob.asBytes text
  | .credential refresh => refresh.toUTF8.toList

/-- The calls that leave the files as they are. -/
inductive Still where
  | createDirAll
  | setDirMode
  | setFileMode
  | openDir

abbrev Storing := Errand (Call Still String Content UInt8) (fun _ ↦ Except IoError Unit) Unit IoError

/-- What is left of a name without its extension. -/
def fileStem (name : String) : String :=
  match name.toList.reverse.dropWhile (· ≠ '.') with
  | [] | [_] => name
  | _ :: before => String.ofList before.reverse

/-- `with_extension("tmp")`. -/
def tmp (name : String) : String := fileStem name ++ ".tmp"

def treeFile : String := "tree.json"

def tokenFile : String := "token.json"

/-- The bytes go to a file beside it that only the owner can read, and from there. -/
def atomicPrivateWrite (text : Serde.Text) (name : String) (content : Content) : Storing Unit := do
  call (.still .createDirAll)
  call (.still .setDirMode)
  call (.openTruncated (tmp name))
  call (.still .setFileMode)
  call (.write (tmp name) (content.bytes text))
  call (.syncFile (tmp name))
  call (.rename (tmp name) name content)
  call (.still .openDir)
  call .syncDir

def saveTree (text : Serde.Text) (serial : ℕ) (tree : TreeBlob) : Storing Unit :=
  atomicPrivateWrite text treeFile (.tree serial tree)

def saveToken (text : Serde.Text) (serial : ℕ) (token : TokenBlob) : Storing Unit :=
  atomicPrivateWrite text tokenFile (.token serial token)

/-- `FileCredentialStore::save`. -/
def saveCredential (text : Serde.Text) (name refresh : String) : Storing Unit :=
  atomicPrivateWrite text name (.credential refresh)

/-- The previous round's two writes, the tree first. -/
def commit (text : Serde.Text) : Option Uncommitted → Storing Unit
  | none => pure ()
  | some pending => do
    match pending.tree with
    | none => pure ()
    | some tree => saveTree text pending.serial tree
    saveToken text pending.serial pending.token

/-- The tree and the token that are there once these files have been renamed. -/
def diskOf (log : List (String × Content)) : Disk where
  tree := match lastOf log treeFile with
    | some (.tree serial blob) => some (serial, blob)
    | _ => none
  token := match lastOf log tokenFile with
    | some (.token serial blob) => some (serial, blob)
    | _ => none

/-- `read_optional`, where nothing goes wrong. -/
def reading : Option (List UInt8) → Reading
  | none => .notFound
  | some bytes => .read bytes

/-- The two files as they are read. -/
def stored (files : Files String Content UInt8) : FileStateStore :=
  ⟨reading (files.read treeFile), reading (files.read tokenFile)⟩

/-! ## The threads that use it -/

/-- A provider of changes with its caller; the disk is not theirs. -/
structure Caller where
  graph : GraphDiscover
  cursor : Cursor
  ledger : List Delivered
  acknowledged : List ℕ

def Caller.world (c : Caller) (disk : Disk) : World :=
  ⟨disk, c.graph, c.cursor, c.ledger, c.acknowledged⟩

def Caller.ofWorld (w : World) : Caller := ⟨w.graph, w.cursor, w.ledger, w.acknowledged⟩

inductive Thread where
  | delta
  | tokens
  deriving DecidableEq

/-- What the first half of a call for changes comes to. -/
inductive Called where
  | repeated (served : List Client.Change × Cursor)
  | committed (r : Except IoError Unit)

/-- What a thread is left with: the answer, or what it has saved and whether it could. -/
def Thread.Result : Thread → Type
  | .delta => Called
  | .tokens => String × Except IoError Unit

/-- A program of one of the threads. -/
abbrev Running (α : Type) :=
  Dialogue (Call Still String Content UInt8) (fun _ ↦ Except IoError Unit) α

/-- Up to where the store is read. -/
def Caller.changes (text : Serde.Text) (c : Caller) : Running Called :=
  match (c.graph.repeat c.cursor).2 with
  | some served => .done (.repeated served)
  | none => (commit text c.graph.pending ()).bind fun r ↦ .done (.committed r.1)

/-- The rest of the call, with what is read. The caller moves on if it could apply what it is
given. -/
def Caller.finish (text : Serde.Text) (scope : DriveScope) (source : GraphDiscover.PageSource)
    (load : Option IoError) (applied : Bool) (disk : Disk) (c : Caller) : Called → Caller
  | .repeated served => { c with
      graph := (c.graph.repeat c.cursor).1
      cursor := if applied then served.2 else c.cursor }
  | .committed (.error _) => { c with graph := { c.graph with pending := none } }
  | .committed (.ok _) =>
    match ({ c.graph with pending := none } : GraphDiscover).runRound text scope source
        ⟨load, .saved, .saved⟩ disk (c.ledger.length + 1) with
    | (g, .error _) => { c with graph := g }
    | (g, .ok d) => { c with
        graph := { g with
          lastInput := some c.cursor
          served := some (d.batch, d.cursor)
          repeats := 0
          escalation := none }
        cursor := if applied then d.cursor else c.cursor
        ledger := d :: c.ledger }

/-- The files, and the caller. -/
abbrev Store := Files String Content UInt8 × Caller

variable (text : Serde.Text) (scope : DriveScope) (credential : String)

inductive Begins (w : Store) : (i : Thread) → Running i.Result → Store → Prop
  | delta (c : Caller) : c = .ofWorld (w.2.world (diskOf w.1.log)).asking →
      Begins w .delta (c.changes text) (w.1, c)
  | tokens (refresh : String) :
      Begins w .tokens ((saveCredential text credential refresh ()).bind
        fun r ↦ .done (refresh, r.1)) w

inductive Leaves (w : Store) : (i : Thread) → i.Result → Store → Prop
  | delta (called : Called) (source : GraphDiscover.PageSource) (load : Option IoError)
      (applied : Bool) : Leaves w .delta called
        (w.1, w.2.finish text scope source load applied (diskOf w.1.log) called)
  | tokens (saved : String × Except IoError Unit) : Leaves w .tokens saved w

/-- The process is killed, or power fails; it starts again with what is on the disk. -/
def Fails (w w' : Store) : Prop :=
  (w'.1 = w.1 ∨ w.1.Lost w'.1) ∧ w'.2 = { w.2 with graph := .new, cursor := none }

def rules : Team.Rules Thread (Call Still String Content UInt8) (fun _ ↦ Except IoError Unit)
    Thread.Result Store where
  answers q w a w' := w.1.Answers q a w'.1 ∧ w'.2 = w.2
  begins i p w w' := Begins text credential w i p w'
  leaves i a w w' := Leaves text scope w i a w'
  fails := Fails

/-- The process, and the directory it uses. -/
abbrev Process := Team Thread (Call Still String Content UInt8) (fun _ ↦ Except IoError Unit)
  Thread.Result Store

/-- Nothing is running, and the directory is empty. -/
def start : Process := ⟨fun _ ↦ none,
  ⟨fun _ ↦ none, [], fun _ ↦ [], fun _ ↦ false, 0, [], 0⟩, ⟨.new, none, [], []⟩⟩

def Reachable : Process → Prop :=
  Relation.ReflTransGen (Team.Step (rules text scope credential)) start

/-- No two of the names are the same, those of the files beside included. -/
def Apart : Prop :=
  [treeFile, tokenFile, credential, tmp treeFile, tmp tokenFile, tmp credential].Nodup

instance : Decidable (Apart credential) := inferInstanceAs (Decidable (List.Nodup _))

example : Apart "refresh-token" := by decide

end HydrationAPI.Graph.FileStore
