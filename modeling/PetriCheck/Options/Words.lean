/-!
# Words of a command line

A text falls into words at white space. What is between single quotes is taken as it is; between double quotes a
backslash is dropped in front of `$`, a backquote, `"` and another backslash; elsewhere a backslash takes the next
character as it is. Pieces without white space between them make one word.
-/

namespace PetriCheck

namespace Options

/-- White space of all scripts. -/
def isBlank (c : Char) : Bool :=
  let n := c.toNat
  (0x9 ≤ n && n ≤ 0xd) || n == 0x20 || n == 0x85 || n == 0xa0 || n == 0x1680 || (0x2000 ≤ n && n ≤ 0x200a) ||
    n == 0x2028 || n == 0x2029 || n == 0x202f || n == 0x205f || n == 0x3000

/-- The characters between double quotes up to the closing one, and what follows it. A backslash takes the next
character along, unless that ends the line; then there is no closing quote. -/
def quotedPiece : List Char → List Char → Option (List Char × List Char)
  | _, [] => none
  | seen, '"' :: cs => some (seen.reverse, cs)
  | _, '\\' :: '\n' :: _ => none
  | seen, '\\' :: c :: cs =>
    if c ∈ ['$', '\x60', '"', '\\'] then quotedPiece (c :: seen) cs else quotedPiece (c :: '\\' :: seen) cs
  | seen, c :: cs => quotedPiece (c :: seen) cs

/-- The piece in front of a text that does not begin with white space, and what follows it; none if a quote is left
open. -/
def piece : List Char → Option (List Char × List Char)
  | [] => some ([], [])
  | '\'' :: cs =>
    match cs.dropWhile (· ≠ '\'') with
    | _ :: rest => some (cs.takeWhile (· ≠ '\''), rest)
    | [] => none
  | '"' :: cs => quotedPiece [] cs
  | ['\\'] => some (['\\'], [])
  | '\\' :: '\n' :: cs => some (['\\'], '\n' :: cs)
  | '\\' :: c :: cs => some ([c], cs)
  | cs =>
    let plain (c : Char) : Bool := !isBlank c && c != '\\' && c != '\'' && c != '"'
    some (cs.takeWhile plain, cs.dropWhile plain)

/-- The words of a text from inside a word on; none if a quote is left open. -/
def wordsFrom : Nat → List Char → List Char → Option (List String)
  | 0, _, _ => some []
  | fuel + 1, word, cs =>
    match piece cs with
    | none => none
    | some (more, rest) =>
      let word := word ++ more
      match rest with
      | [] => some [String.ofList word]
      | c :: rest =>
        if isBlank c then
          match rest.dropWhile isBlank with
          | [] => some [String.ofList word]
          | rest => (wordsFrom fuel [] rest).map (String.ofList word :: ·)
        else wordsFrom fuel word (c :: rest)

/-- The words of a text; none if a quote is left open. -/
def words? (text : String) : Option (List String) :=
  match text.toList.dropWhile isBlank with
  | [] => some []
  | cs => wordsFrom (cs.length + 1) [] cs

end Options

end PetriCheck
