import SysY.CommandLine.Run

/-!
# The program

The compiler as a program, with the files of the system.
-/

namespace SysY.CommandLine

/-- The number of a failure. Some calls give it negated. -/
def failureNumber (code : UInt32) : Nat := min code.toNat (0 - code).toNat

def FileError.ofSystem : IO.Error → FileError
  | .noFileOrDirectory .. => .notFound
  | .inappropriateType _ code _ =>
    if failureNumber code = 20 then .notDirectory else .isDirectory
  | error@(.invalidArgument _ code _) =>
    if failureNumber code = 36 then .nameTooLong else .other (toString error)
  | error => .other (toString error)

def attempt {α : Type} (action : IO α) : IO (Except FileError α) := do
  try
    return .ok (← action)
  catch error =>
    return .error (.ofSystem error)

def systemFiles : FileAccess IO where
  read path := do
    match ← attempt (IO.FS.readBinFile path) with
    | .error error => return .error error
    | .ok bytes => match String.fromUTF8? bytes with
      | some text => return .ok text
      | none => return .error .notText
  create path := attempt (IO.FS.writeFile path "")
  write path text := IO.FS.writeFile path text

end SysY.CommandLine

def main (arguments : List String) : IO UInt32 := do
  let outcome ← SysY.CommandLine.run SysY.CommandLine.systemFiles arguments
  IO.print outcome.stdout
  IO.eprint outcome.stderr
  return outcome.status.code.toUInt32
