/-!
# Sections

The parser is laid out in titled sections. Those that hold user code can be kept elsewhere.
-/

namespace Backtrack

set_option autoImplicit false

structure Section where
  title : String
  lines : List String
  /-- The section holds user code, which a split layout keeps in files of its own. -/
  holdsUserCode : Bool := false

namespace Section

/-- The width of a banner between the comment marks. -/
def bannerWidth : Nat := 55

def tildes (n : Nat) : String := String.ofList (List.replicate n '~')

/-- A comment of tildes around a title, or of tildes alone. When they cannot be parted evenly,
the odd one stands on the right. -/
def banner (title : String) : String :=
  if title = "" then "/*" ++ tildes bannerWidth ++ "*/"
  else
    let label := " " ++ title ++ " "
    let fill := bannerWidth - label.utf8ByteSize
    "/*" ++ tildes (fill / 2) ++ label ++ tildes (fill - fill / 2) ++ "*/"

/-- The lines of a section under its banner. -/
def text (part : Section) : List String := banner part.title :: part.lines

end Section

end Backtrack
