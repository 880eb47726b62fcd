import PetriCheck.CommandLine

/-!
# The program

Reads files, clock, memory and environment, carries out the search step by step, and prints the response.
-/

namespace PetriCheck

namespace Program

/-- What a path leads to. -/
def readFile (path : String) : IO (Except ReadFailure ByteArray) := do
  try
    return .ok (← IO.FS.readBinFile path)
  catch e =>
    match e with
    | .noFileOrDirectory .. => return .error .notFound
    | e => return .error (.other (toString e))

/-- The memory in use in megabytes, where the operating system tells it. -/
def residentMegabytes : IO (Option Nat) := do
  match ← readFile "/proc/self/statm" with
  | .ok bytes => return ((String.fromUTF8? bytes).bind Resident.pages?).map Resident.megabytes
  | .error _ => return none

/-- Steps to the end of a search, with fresh readings before each step. -/
partial def search (json : Bool) (start : Nat) (c : CommandLine.Search) : IO CommandLine.Response := do
  if c.state.isTerminal then return CommandLine.conclude json c
  let now ← IO.monoNanosNow
  let meter := c.memory.budget
  let sampled := (meter.queries + 1) % Limits.memoryInterval == 0
  let resident ← if sampled then residentMegabytes else pure meter.resident
  let c := { c with memory.budget := { meter with elapsed := now - start, resident } }
  match c.step with
  | (.ok _, c) => search json start c
  | (.error e, _) => return .ofFailure (.search e)

/-- The response to the arguments. -/
def respond (arguments : List String) : IO CommandLine.Response := do
  if CommandLine.asksForHelp arguments then return .help
  match CommandLine.options (← IO.getEnv "PN_FLAGS") arguments with
  | .error f => return .ofFailure f
  | .ok o =>
    let paths := o.model.toList ++ [o.configPath]
    let contents ← paths.mapM fun path => return (path, ← readFile path)
    let files : Files := fun path => (contents.lookup path).getD (.error .notFound)
    match CommandLine.prepare files o {} with
    | .error f => return .ofFailure f
    | .ok c => search o.json (← IO.monoNanosNow) c

end Program

end PetriCheck

/-- The exit code tells the verdict, or that there is none. -/
def main (arguments : List String) : IO UInt32 := do
  let response ← PetriCheck.Program.respond arguments
  IO.print response.out
  IO.eprint response.err
  return response.exit.toUInt32
