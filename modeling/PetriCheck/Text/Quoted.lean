import PetriCheck.Text.Hidden

/-!
# Text in quotation marks

How messages and model files show a string: between double quotes, with a backslash in front of the characters that
would end it, short escapes for the common control characters, and `\u` with a hexadecimal number for all characters
that are not shown as they are.
-/

namespace PetriCheck

namespace Text

/-- The hexadecimal digits of a number, lower case, without leading zeros. -/
def hexDigits (n : Nat) : List Char := Nat.toDigits 16 n

/-- A character by its number. -/
def escapeNumber (c : Char) : List Char := '\\' :: 'u' :: '\x7b' :: hexDigits c.toNat ++ ['\x7d']

/-- One character of a quoted string, where `quotes` are the quotation marks that get a backslash. -/
def escapeChar (quotes : List Char) (c : Char) : List Char :=
  if c = '\x00' then ['\\', '0']
  else if c = '\t' then ['\\', 't']
  else if c = '\r' then ['\\', 'r']
  else if c = '\n' then ['\\', 'n']
  else if c = '\\' ∨ c ∈ quotes then ['\\', c]
  else if isHidden c then escapeNumber c
  else [c]

/-- A string between double quotes. -/
def quoteWith (quotes : List Char) (s : String) : String :=
  String.ofList ('"' :: s.toList.flatMap (escapeChar quotes) ++ ['"'])

/-- A string as messages show it. -/
def quoted (s : String) : String := quoteWith ['"'] s

/-- Items between brackets. -/
def bracketed (items : List String) : String := "[" ++ ", ".intercalate items ++ "]"

/-- Named fields between braces, behind the name of what they describe. -/
def fields (name : String) (items : List (String × String)) : String :=
  name ++ " \x7b " ++ ", ".intercalate (items.map fun (label, value) => s!"{label}: {value}") ++ " \x7d"

end Text

end PetriCheck
