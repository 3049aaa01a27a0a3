/-!
# Parsing expression grammars

A grammar is a list of rules, each an expression, with user code in namespaces. Every expression
may know the region of the source it was written in.
-/

namespace Backtrack

set_option autoImplicit false

/-- A place in a grammar's source; line and column count from one. -/
structure Position where
  offset : UInt32
  line : UInt32
  column : UInt32
  deriving DecidableEq, Repr, Inhabited

/-- A span of a grammar's source. -/
structure Region where
  start : Position
  stop : Position
  deriving DecidableEq, Repr, Inhabited

/-- The namespace of user code that names none. -/
def defaultNamespace : String := "global"

/-- A block of user code, the body of an action or of a predicate. -/
structure UserCode where
  space : String
  body : String
  deriving DecidableEq, Repr, Inhabited

/-- An element of a character class. -/
inductive ClassPart where
  | single (c : Char)
  /-- Both bounds belong to the range. -/
  | range (low high : Char)
  deriving DecidableEq, Repr

/-- A character class with the text it was written as. -/
structure CharClass where
  parts : List ClassPart
  inverted : Bool
  ignoreCase : Bool
  rawText : String
  deriving DecidableEq, Repr

namespace CharClass

/-- The characters that stand alone in the class. -/
def singles (cls : CharClass) : List Char :=
  cls.parts.filterMap fun
    | .single c => some c
    | .range .. => none

def ranges (cls : CharClass) : List (Char × Char) :=
  cls.parts.filterMap fun
    | .single _ => none
    | .range low high => some (low, high)

theorem mem_singles {cls : CharClass} {c : Char} : c ∈ cls.singles ↔ .single c ∈ cls.parts := by
  unfold singles
  rw [List.mem_filterMap]
  constructor
  · rintro ⟨part, hpart, h⟩
    cases part with
    | single alone =>
      obtain rfl := Option.some.inj h
      exact hpart
    | range => cases h
  · intro h
    exact ⟨.single c, h, rfl⟩

theorem mem_ranges {cls : CharClass} {low high : Char} :
    (low, high) ∈ cls.ranges ↔ .range low high ∈ cls.parts := by
  unfold ranges
  rw [List.mem_filterMap]
  constructor
  · rintro ⟨part, hpart, h⟩
    cases part with
    | single => cases h
    | range low' high' =>
      obtain ⟨rfl, rfl⟩ := Prod.mk.inj (Option.some.inj h)
      exact hpart
  · intro h
    exact ⟨.range low high, h, rfl⟩

end CharClass

/-- How often an expression may repeat. -/
inductive Quantifier where
  | zeroOrMore
  | oneOrMore
  /-- No upper bound when `max` is `none`. -/
  | range (min : UInt32) (max : Option UInt32)
  deriving DecidableEq, Repr

namespace Quantifier

def least : Quantifier → UInt32
  | .zeroOrMore => 0
  | .oneOrMore => 1
  | .range min _ => min

def most : Quantifier → Option UInt32
  | .zeroOrMore | .oneOrMore => none
  | .range _ max => max

end Quantifier

/-- The kinds of expressions, in the order of their indices in the grammar format. -/
inductive Kind where
  | named
  | choice
  | sequence
  | labeled
  | text
  | optional
  | zeroOrMore
  | oneOrMore
  | range
  | simpleAnd
  | simpleNot
  | semanticAnd
  | semanticNot
  | action
  | ruleRef
  | literal
  | charClass
  | any
  deriving DecidableEq, Repr

namespace Kind

def all : List Kind :=
  [.named, .choice, .sequence, .labeled, .text, .optional, .zeroOrMore, .oneOrMore, .range,
    .simpleAnd, .simpleNot, .semanticAnd, .semanticNot, .action, .ruleRef, .literal, .charClass,
    .any]

def name : Kind → String
  | .named => "named"
  | .choice => "choice"
  | .sequence => "sequence"
  | .labeled => "labeled"
  | .text => "text"
  | .optional => "optional"
  | .zeroOrMore => "zero_or_more"
  | .oneOrMore => "one_or_more"
  | .range => "range"
  | .simpleAnd => "simple_and"
  | .simpleNot => "simple_not"
  | .semanticAnd => "semantic_and"
  | .semanticNot => "semantic_not"
  | .action => "action"
  | .ruleRef => "rule_ref"
  | .literal => "literal"
  | .charClass => "class"
  | .any => "any"

def ofName? (name : String) : Option Kind := all.find? fun kind => kind.name = name

def ofIndex? (index : Nat) : Option Kind := all[index]?

theorem mem_all (kind : Kind) : kind ∈ all := by cases kind <;> decide

theorem ofName?_name (kind : Kind) : ofName? kind.name = some kind := by
  cases kind <;> decide

end Kind

/-- A parsing expression. -/
inductive Expr where
  /-- A readable name for the failures of `expr`. -/
  | named (region : Option Region) (name : String) (expr : Expr)
  /-- The first alternative that matches. -/
  | choice (region : Option Region) (alternatives : List Expr)
  /-- All elements in order. -/
  | sequence (region : Option Region) (elements : List Expr)
  /-- A match that user code sees under a label. -/
  | labeled (region : Option Region) (label : String) (expr : Expr)
  /-- The input text that `expr` matched. -/
  | text (region : Option Region) (expr : Expr)
  | optional (region : Option Region) (expr : Expr)
  | repeated (region : Option Region) (quantifier : Quantifier) (expr : Expr)
  /-- Matches nothing, where `expr` does match or, negated, does not. -/
  | lookahead (region : Option Region) (negated : Bool) (expr : Expr)
  /-- Matches nothing, where user code says yes or, negated, says no. -/
  | predicate (region : Option Region) (negated : Bool) (code : UserCode)
  /-- Runs user code after a match. -/
  | action (region : Option Region) (code : UserCode) (expr : Expr)
  | ruleRef (region : Option Region) (name : String)
  | literal (region : Option Region) (value : String) (ignoreCase : Bool)
  | charClass (region : Option Region) (cls : CharClass)
  /-- Any one byte. -/
  | any (region : Option Region)
  deriving Repr, Inhabited

namespace Expr

def kind : Expr → Kind
  | .named .. => .named
  | .choice .. => .choice
  | .sequence .. => .sequence
  | .labeled .. => .labeled
  | .text .. => .text
  | .optional .. => .optional
  | .repeated _ .zeroOrMore _ => .zeroOrMore
  | .repeated _ .oneOrMore _ => .oneOrMore
  | .repeated _ (.range ..) _ => .range
  | .lookahead _ false _ => .simpleAnd
  | .lookahead _ true _ => .simpleNot
  | .predicate _ false _ => .semanticAnd
  | .predicate _ true _ => .semanticNot
  | .action .. => .action
  | .ruleRef .. => .ruleRef
  | .literal .. => .literal
  | .charClass .. => .charClass
  | .any .. => .any

def region : Expr → Option Region
  | .named r .. | .choice r _ | .sequence r _ | .labeled r .. | .text r _ | .optional r _
  | .repeated r .. | .lookahead r .. | .predicate r .. | .action r .. | .ruleRef r _
  | .literal r .. | .charClass r _ | .any r => r

/-- The same expression at another region; the expressions inside keep theirs. -/
def withRegion (r : Option Region) : Expr → Expr
  | .named _ name expr => .named r name expr
  | .choice _ alternatives => .choice r alternatives
  | .sequence _ elements => .sequence r elements
  | .labeled _ label expr => .labeled r label expr
  | .text _ expr => .text r expr
  | .optional _ expr => .optional r expr
  | .repeated _ quantifier expr => .repeated r quantifier expr
  | .lookahead _ negated expr => .lookahead r negated expr
  | .predicate _ negated code => .predicate r negated code
  | .action _ code expr => .action r code expr
  | .ruleRef _ name => .ruleRef r name
  | .literal _ value ignoreCase => .literal r value ignoreCase
  | .charClass _ cls => .charClass r cls
  | .any _ => .any r

@[simp] theorem region_withRegion (r : Option Region) (e : Expr) :
    (e.withRegion r).region = r := by
  cases e <;> rfl

@[simp] theorem kind_withRegion (r : Option Region) (e : Expr) :
    (e.withRegion r).kind = e.kind := by
  cases e with
  | repeated _ quantifier _ => cases quantifier <;> rfl
  | lookahead _ negated _ => cases negated <;> rfl
  | predicate _ negated _ => cases negated <;> rfl
  | _ => rfl

end Expr

/-- A named production; its region stands in for expressions that have none. -/
structure Rule where
  name : String
  expression : Expr
  region : Option Region
  deriving Repr, Inhabited

/-- A grammar: initializer code of namespaces, and rules of which the first is the start rule. -/
structure Grammar where
  initializers : List UserCode
  rules : List Rule
  deriving Repr, Inhabited

end Backtrack
