/-!
# Exceptions

The Java exceptions the modelled code raises, catches or tells apart: the
class and the message. `IOException` is caught as a class with its
subclass `FileNotFoundException`; `AuthFailedException` extends
`SecurityException`, so it is not one of them.
-/

namespace SambaProvider

/-- The exception classes the code distinguishes. -/
inductive ExnClass
  | ioException
  | fileNotFound
  | authFailed
  | illegalState
  | illegalArgument
  | unsupportedOperation
  | nullPointer
  | indexOutOfBounds
  | runtimeException
deriving DecidableEq, Repr

/-- An exception: its class and its message. -/
structure Exn where
  cls : ExnClass
  message : String
deriving DecidableEq, Repr

namespace Exn

/-- What `catch (IOException e)` catches. -/
def isIOException (e : Exn) : Bool :=
  match e.cls with
  | .ioException | .fileNotFound => true
  | _ => false

/-- What `catch (FileNotFoundException e)` catches. -/
def isFileNotFound (e : Exn) : Bool := e.cls == .fileNotFound

end Exn

theorem isFileNotFound_eq_false {x : Exn} (h : x.isIOException = false) :
    x.isFileNotFound = false := by
  obtain ⟨cls, message⟩ := x
  cases cls <;> first | rfl | cases h

end SambaProvider
