import Backtrack.Json.Basic

/-!
# Writing JSON

Strings are quoted with the short escapes where there are any and with four lower-case
hexadecimal digits for the other characters below U+0020; every other character stands for
itself.
-/

namespace Backtrack.Json

set_option autoImplicit false

def hexDigit (n : Nat) : Char :=
  if n < 10 then Char.ofNat ('0'.toNat + n) else Char.ofNat ('a'.toNat + (n - 10))

/-- How one character is written between quotes. -/
def quoteChar (c : Char) : List Char :=
  if c = '"' then ['\\', '"']
  else if c = '\\' then ['\\', '\\']
  else if c = '\x08' then ['\\', 'b']
  else if c = '\x0c' then ['\\', 'f']
  else if c = '\n' then ['\\', 'n']
  else if c = '\r' then ['\\', 'r']
  else if c = '\t' then ['\\', 't']
  else if c.toNat < 0x20 then
    ['\\', 'u', '0', '0', hexDigit (c.toNat / 16), hexDigit (c.toNat % 16)]
  else [c]

def quote (s : String) : String :=
  String.ofList ('"' :: (s.toList.flatMap quoteChar ++ ['"']))

mutual

def render : Value → String
  | .null => "null"
  | .bool true => "true"
  | .bool false => "false"
  | .number n => n.render
  | .string s => quote s
  | .array [] => "[]"
  | .array (item :: rest) => "[" ++ render item ++ renderItems rest ++ "]"
  | .object [] => "\x7b\x7d"
  | .object ((key, value) :: rest) =>
    "\x7b" ++ quote key ++ ":" ++ render value ++ renderMembers rest ++ "\x7d"

/-- The items of an array after the first. -/
def renderItems : List Value → String
  | [] => ""
  | item :: rest => "," ++ render item ++ renderItems rest

/-- The members of an object after the first. -/
def renderMembers : List (String × Value) → String
  | [] => ""
  | (key, value) :: rest => "," ++ quote key ++ ":" ++ render value ++ renderMembers rest

end

end Backtrack.Json
