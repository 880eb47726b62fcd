/-!
# Memory in use

The operating system tells the memory of a process in pages, as seven numbers on a line of which the second counts the
pages that are in use.
-/

namespace PetriCheck

namespace Resident

/-- Bytes of a page. -/
def pageSize : Nat := 4096

/-- Pages in whole megabytes; a size that 64 bits cannot hold counts as the largest that they can. -/
def megabytes (pages : Nat) : Nat := min (pages * pageSize) (UInt64.size - 1) / 1048576

/-- A number in decimal digits that fits into 64 bits. -/
def number? (text : String) : Option Nat :=
  if text.isEmpty ∨ !text.all Char.isDigit then none
  else
    let n := text.toList.foldl (fun n c => n * 10 + (c.toNat - '0'.toNat)) 0
    if n < UInt64.size then some n else none

/-- The pages in use, from the line of the operating system. -/
def pages? (line : String) : Option Nat :=
  match (line.trimAscii.toString.splitToList (· == ' ')).mapM number? with
  | some [_, resident, _, _, _, _, _] => some resident
  | _ => none

end Resident

end PetriCheck
