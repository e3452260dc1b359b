import Mathlib.Data.Nat.Notation

/-!
# Errors

What goes wrong with a system call or a connection, as far as the two halves of the framework tell
errors apart.
-/

namespace HydrationAPI

/-- The kinds of error that are told apart somewhere. -/
inductive ErrorKind where
  | unexpectedEof
  | connectionReset
  | connectionAborted
  | connectionRefused
  | brokenPipe
  | notConnected
  | timedOut
  | wouldBlock
  | permissionDenied
  | invalidData
  | invalidInput
  | unsupported
  | other
  deriving DecidableEq, Repr

structure IoError where
  kind : ErrorKind
  /-- The `errno`, where the error is one of the operating system's. -/
  rawOsError : Option ℕ
  text : String
  deriving DecidableEq, Repr

/-- `EIO`. -/
def eio : ℕ := 5

/-- `ENODATA`. -/
def enodata : ℕ := 61

/-- `ENOTTY`. -/
def enotty : ℕ := 25

/-- `EOPNOTSUPP`. -/
def eopnotsupp : ℕ := 95

/-- This error means the socket is gone rather than the request refused. -/
def isConnectionLost (e : IoError) : Bool :=
  match e.kind with
  | .unexpectedEof | .connectionReset | .connectionAborted | .brokenPipe | .notConnected => true
  | _ => false

def invalidData (text : String) : IoError := ⟨.invalidData, none, text⟩

end HydrationAPI
