import StackScript.Command.Files
import StackScript.Command.Options
import StackScript.Command.Outlines
import StackScript.Compilation
import StackScript.CodeUnit.Listing
import StackScript.Image
import StackScript.Json.Execution

namespace StackScript.Command

/-! What the command line does, apart from the files that it reads and writes. -/

/-- What a command prints, and how it ends. -/
structure Output where
  stdout : String
  stderr : String
  exit : Nat
  deriving DecidableEq, Repr

/-- A command that is done, or that waits for a file to be written. -/
inductive Response where
  | done (output : Output)
  | save (path : String) (bytes : List UInt8) (output : Output)
  deriving DecidableEq, Repr

/-- Which views are asked for. -/
structure Views where
  asm : Bool
  trace : Bool
  vars : Bool

def Views.of (debug : List String) : Views where
  asm := debug.contains "asm"
  trace := debug.contains "trace"
  vars := debug.contains "vars"

/-- Complaints about unknown views come before all else. -/
def complaints (color : Bool) (debug : List String) : String :=
  let unknown := debug.filter fun view => !(["asm", "trace", "vars"].contains view)
  String.join (unknown.map fun view =>
    Text.styled color "33" "!" ++ " Unknown debug option: " ++ view ++ "\n")

namespace Output

def printed (text : String) : Output where
  stdout := text
  stderr := ""
  exit := 0

def failed (text : String) : Output where
  stdout := ""
  stderr := text ++ "\n"
  exit := 1

/-- What is printed in front of an output. -/
def after (first : String) (output : Output) : Output :=
  { output with stdout := first ++ output.stdout }

end Output

/-- What is printed on the way, and a result or the message of a failure. -/
structure Staged (α : Type) where
  printed : String
  result : Except String α

def Staged.finish {α : Type} (p : Staged α) (next : α → Output) : Output :=
  match p.result with
  | .ok a => (next a).after p.printed
  | .error message => (Output.failed message).after p.printed

def compileSource (color : Bool) (views : Views) (source file : String) : Staged CodeUnit :=
  match compile source with
  | .failure d =>
      { printed := if views.trace then d.outline.render else ""
        result := .error ((d.report file source).render color) }
  | .success unit =>
      let heading := Text.styled color "36" "-- Bytecode --"
      { printed := if views.asm then heading ++ "\n" ++ unit.disassembly ++ "\n" else ""
        result := .ok unit }

/-- The views of a run; a fault is reported. -/
def showRun (color : Bool) (views : Views) (json : Bool) (file : String) (execution : Execution) :
    Output :=
  let tree := if views.vars then execution.outline.render else ""
  let document := if json then execution.document.pretty 0 ++ "\n" else ""
  match execution.status with
  | .failed fault =>
      (Output.failed ((Report.ofFault fault file).render color)).after (tree ++ document)
  | _ => .printed (tree ++ document)

def readingFailed (path message : String) : String :=
  s!"Error reading file '{path}': {message}"

def sourceOf (path : String) (input : Except FileError (List UInt8)) : Except String String :=
  match input with
  | .error error => .error (readingFailed path error.message)
  | .ok bytes =>
      match Text.Utf8.decode bytes with
      | .ok chars => .ok (String.ofList chars)
      | .error _ => .error (readingFailed path "stream did not contain valid UTF-8")

/-- The program of a file, which is compiled already or is compiled now. -/
def loadProgram (color : Bool) (views : Views) (path : String)
    (input : Except FileError (List UInt8)) : Staged CodeUnit :=
  match input with
  | .error error => { printed := "", result := .error (readingFailed path error.message) }
  | .ok bytes =>
      if Image.isImage bytes then
        match Image.read bytes with
        | .error error => { printed := "", result := .error error.message }
        | .ok unit => { printed := if views.asm then unit.disassembly else "", result := .ok unit }
      else
        match Text.Utf8.decode bytes with
        | .error error => { printed := "", result := .error (readingFailed path error.message) }
        | .ok chars => compileSource color views (String.ofList chars) path

def check (color : Bool) (views : Views) (path : String)
    (input : Except FileError (List UInt8)) : Output :=
  match sourceOf path input with
  | .error message => .failed message
  | .ok source =>
      (compileSource color views source path).finish fun _ =>
        .printed (Text.styled color "32" "✓" ++ " No errors found in " ++ path ++ "\n")

def compileFile (color : Bool) (views : Views) (path : String) (output : Option String)
    (input : Except FileError (List UInt8)) : Response :=
  match sourceOf path input with
  | .error message => .done (.failed message)
  | .ok source =>
      let compiled := compileSource color views source path
      match compiled.result with
      | .error message => .done ((Output.failed message).after compiled.printed)
      | .ok unit =>
          .save (output.getD (withExtension path "qlc")) (Image.write unit)
            (.printed compiled.printed)

def versionLine : String := "quill 0.2.4\n"

def helpText : String :=
  "Usage: quill [OPTIONS] [FILE]\n\n" ++
    "  -d, --debug <DEBUG>    Debug options: asm, trace, vars (comma-separated)\n" ++
    "  -e, --exec <EXEC>      Execute inline code\n" ++
    "  -c, --compile          Compile to .qlc instead of running\n" ++
    "      --check            Check for errors without running\n" ++
    "      --json             Print the final variable state as JSON\n" ++
    "  -o, --output <OUTPUT>  Output path for compiled file (requires -c)\n" ++
    "  -h, --help             Print help\n" ++
    "  -V, --version          Print version\n"

/-- The file that a command has to read. Code on the command line comes before any file. -/
def Options.input? (options : Options) : Option String :=
  if options.code.isSome then none else options.file

/-- Carries out a command, given the content of its input file if it has one. -/
def perform (color : Bool) (options : Options) (input : Except FileError (List UInt8)) :
    Response :=
  let views := Views.of options.debug
  match options.code, options.file with
  | some code, _ =>
      .done ((compileSource color views code "<exec>").finish fun unit =>
        showRun color views options.json "<exec>" (Execution.of unit))
  | none, some path =>
      if options.check then .done (check color views path input)
      else if options.compile then compileFile color views path options.output input
      else
        .done ((loadProgram color views path input).finish fun unit =>
          showRun color views options.json path (Execution.of unit))
  | none, none =>
      .done (.failed (Text.styled color "33" "!" ++ " No input. Pass a file or use -e <code>"))

/-- The end of a command that had a file to write. -/
def saved (color : Bool) (path : String) (output : Output) (result : Except FileError Unit) :
    Output :=
  match result with
  | .ok _ =>
      (Output.printed (Text.styled color "32" "✓" ++ " Compiled to " ++ path ++ "\n")).after
        output.stdout
  | .error error =>
      (Output.failed ("Error writing file: " ++ error.message)).after output.stdout

/-- What is wrong with the arguments ends a command with status two. -/
def misused (argument : String) : Output where
  stdout := ""
  stderr := s!"error: unexpected argument '{argument}' found\n"
  exit := 2

def runIn (color : Bool) (files : Files) (arguments : List String) : Output × Files :=
  match Request.ofArguments arguments with
  | .version => (.printed versionLine, files)
  | .help => (.printed helpText, files)
  | .misuse argument => (misused argument, files)
  | .perform options =>
      let input :=
        match options.input? with
        | some path => files.read path
        | none => .error .notFound
      let (output, files) :=
        match perform color options input with
        | .done output => (output, files)
        | .save path bytes output =>
            match files.write path bytes with
            | .ok files' => (saved color path output (.ok ()), files')
            | .error error => (saved color path output (.error error), files)
      ({ output with stderr := complaints color options.debug ++ output.stderr }, files)

end StackScript.Command
