/-! Errors of the operating system, by number. -/
namespace KeepBlame

structure OsError where
  number : Nat
  deriving DecidableEq, Repr

namespace OsError

def notPermitted : OsError := ⟨1⟩
def notFound : OsError := ⟨2⟩
def accessDenied : OsError := ⟨13⟩
def notDirectory : OsError := ⟨20⟩
def isDirectory : OsError := ⟨21⟩
def tooManyLinks : OsError := ⟨40⟩

def texts : List String := [
  "Success", "Operation not permitted", "No such file or directory", "No such process", "Interrupted system call",
  "Input/output error", "No such device or address", "Argument list too long", "Exec format error",
  "Bad file descriptor", "No child processes", "Resource temporarily unavailable", "Cannot allocate memory",
  "Permission denied", "Bad address", "Block device required", "Device or resource busy", "File exists",
  "Invalid cross-device link", "No such device", "Not a directory", "Is a directory", "Invalid argument",
  "Too many open files in system", "Too many open files", "Inappropriate ioctl for device", "Text file busy",
  "File too large", "No space left on device", "Illegal seek", "Read-only file system", "Too many links",
  "Broken pipe", "Numerical argument out of domain", "Numerical result out of range",
  "Resource deadlock avoided", "File name too long", "No locks available", "Function not implemented",
  "Directory not empty", "Too many levels of symbolic links"]

def message (e : OsError) : String :=
  let text := texts[e.number]?.getD s!"Unknown error {e.number}"
  s!"{text} (os error {e.number})"

def isRefusal (e : OsError) : Bool := e = notPermitted || e = accessDenied

end OsError
end KeepBlame
