import StackScript.Command.Basic

namespace StackScript.Command

/-! The command line: reads and writes the files that a command asks for. -/

/-- The number of a system error, which some calls give with a negative sign. -/
def errorNumber (code : UInt32) : Nat :=
  min code.toNat (0 - code).toNat

/-- The cause of a failed access. -/
def FileError.ofSystem : IO.Error → FileError
  | .noFileOrDirectory _ _ _ => .notFound
  | .permissionDenied _ _ _ => .permissionDenied
  | .inappropriateType _ code _ =>
      if errorNumber code = 20 then .notDirectory else .isDirectory
  | .invalidArgument file code detail =>
      if errorNumber code = 36 then .nameTooLong
      else .other (toString (IO.Error.invalidArgument file code detail))
  | error => .other (toString error)

def readFile (path : String) : IO (Except FileError (List UInt8)) := do
  try
    let bytes ← IO.FS.readBinFile path
    pure (.ok bytes.toList)
  catch error => pure (.error (.ofSystem error))

def writeFile (path : String) (bytes : List UInt8) : IO (Except FileError Unit) := do
  try
    IO.FS.writeBinFile path (ByteArray.mk bytes.toArray)
    pure (.ok ())
  catch error => pure (.error (.ofSystem error))

/-- Output is coloured on a terminal, unless the environment asks for plain text. -/
def wantsColor : IO Bool := do
  let plain ← IO.getEnv "NO_COLOR"
  if plain.isSome then pure false else (← IO.getStdout).isTty

def carryOut (color : Bool) (options : Options) : IO Output := do
  IO.eprint (complaints color options.debug)
  let input ← match options.input? with
    | some path => readFile path
    | none => pure (.error .notFound)
  match perform color options input with
  | .done output => pure output
  | .save path bytes output => do
      let result ← writeFile path bytes
      pure (saved color path output result)

end StackScript.Command

open StackScript.Command in
def main (arguments : List String) : IO UInt32 := do
  let color ← wantsColor
  let output ← match Request.ofArguments arguments with
    | .version => pure (.printed versionLine)
    | .help => pure (.printed helpText)
    | .misuse argument => pure (misused argument)
    | .perform options => carryOut color options
  IO.print output.stdout
  IO.eprint output.stderr
  pure (UInt32.ofNat output.exit)
