import PetriCheck.Data.Json.Reader
import PetriCheck.Data.Json.Writer
import PetriCheck.Data.Ron.Reader
import PetriCheck.Data.Ron.Writer

/-!
# File formats

Nets and models are kept as JSON or RON; the extension of the file's name tells which. What a program can read is given
by `Files`, so that reading is a function; the outer layer of the program fills it in.
-/

namespace PetriCheck

inductive Format where
  | json
  | ron
deriving DecidableEq, Inhabited

/-- Why a file could not be read. -/
inductive ReadFailure where
  | notFound
  | other (message : String)
deriving DecidableEq, Inhabited

namespace ReadFailure

def message : ReadFailure → String
  | notFound => "No such file or directory (os error 2)"
  | other message => message

end ReadFailure

/-- What each path leads to. -/
abbrev Files := String → Except ReadFailure ByteArray

/-- What can be wrong with a file. -/
inductive FileError where
  | json (fault : Json.Fault)
  | ron
  | read (failure : ReadFailure)
  /-- The bytes are not text. -/
  | encoding
  | unknownFormat (extension : String)
  /-- The matrices of a net do not fit its places and transitions. -/
  | malformed
deriving DecidableEq, Inhabited

namespace FileError

/-- The message of an error and the messages of its causes. A text that cannot be read has no message of its own. -/
def message : FileError → String
  | json _ => "json error"
  | ron => "ron syntax error"
  | read failure => s!"io error: {failure.message}"
  | encoding => "io error: stream did not contain valid UTF-8"
  | unknownFormat extension => s!"unsupported model format `{extension}`, expected .json or .ron"
  | malformed => "net matrices do not match its place/transition counts"

/-- The cause of an error that repeats it. -/
def cause? : FileError → Option String
  | read failure => some failure.message
  | encoding => some "stream did not contain valid UTF-8"
  | _ => none

end FileError

/-! ## The name of a file -/

namespace Path

/-- The name that a path ends with. There is none behind a path that ends in a step upwards. -/
def fileName? (path : String) : Option String :=
  match (path.splitToList (· == '/')).reverse.dropWhile (fun part => part == "" || part == ".") with
  | [] => none
  | name :: _ => if name = ".." then none else some name

/-- What follows the last dot of a name, unless the dot is its first character. -/
def extension? (path : String) : Option String :=
  match fileName? path with
  | none => none
  | some name =>
    let back := name.toList.reverse
    match back.dropWhile (· ≠ '.') with
    | _ :: _ :: _ => some (String.ofList (back.takeWhile (· ≠ '.')).reverse)
    | _ => none

end Path

namespace Format

/-- The format of a file by the extension of its name. -/
def ofPath (path : String) : Except FileError Format :=
  let extension := ((Path.extension? path).getD "").map Char.toLower
  if extension = "json" then .ok json
  else if extension = "ron" then .ok ron
  else .error (.unknownFormat extension)

variable {α : Type} [Stored α]

/-- The text of a value. -/
def render (format : Format) (a : α) : String :=
  match format with
  | json => Json.render (Stored.shape α) (Stored.toDatum a)
  | ron => Ron.render (Stored.shape α) (Stored.toDatum a)

/-- The value of a text. -/
def parse (format : Format) (text : String) : Except FileError α :=
  match format with
  | json =>
    match Json.parse (Stored.shape α) text with
    | .error fault => .error (.json fault)
    | .ok d => ((Stored.ofDatum? d).elim (.error (.json .mismatch)) .ok)
  | ron => ((Ron.parse? (Stored.shape α) text).bind Stored.ofDatum?).elim (.error .ron) .ok

end Format

/-- The text of a file. -/
def Files.text (files : Files) (path : String) : Except FileError String := do
  let bytes ← (files path).mapError FileError.read
  (String.fromUTF8? bytes).elim (.error .encoding) .ok

/-- The value that a file holds; its format is looked at first. -/
def Files.load {α : Type} [Stored α] (files : Files) (path : String) : Except FileError α := do
  let format ← Format.ofPath path
  format.parse (← files.text path)

end PetriCheck
