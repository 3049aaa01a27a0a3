import Backtrack.Grammar.Basic

/-!
# The written form of a character class

A class is written between brackets, with a caret in front when it is inverted and an `i` behind
when case is ignored. The characters that have a meaning there are escaped.
-/

namespace Backtrack

set_option autoImplicit false

namespace ClassPart

/-- How a character is written inside brackets. -/
def writtenChar (c : Char) : List Char :=
  if c = '\\' ∨ c = ']' ∨ c = '^' ∨ c = '-' then ['\\', c]
  else if c = '\n' then ['\\', 'n']
  else if c = '\r' then ['\\', 'r']
  else if c = '\t' then ['\\', 't']
  else [c]

def written : ClassPart → List Char
  | .single c => writtenChar c
  | .range low high => writtenChar low ++ '-' :: writtenChar high

end ClassPart

namespace CharClass

/-- The text of a class as a grammar would spell it. -/
def written (parts : List ClassPart) (inverted ignoreCase : Bool) : List Char :=
  '[' :: ((if inverted then ['^'] else []) ++ parts.flatMap ClassPart.written ++
    (']' :: if ignoreCase then ['i'] else []))

/-- A class under its own written form. -/
def ofParts (parts : List ClassPart) (inverted ignoreCase : Bool) : CharClass :=
  { parts, inverted, ignoreCase, rawText := String.ofList (written parts inverted ignoreCase) }

end CharClass

end Backtrack
