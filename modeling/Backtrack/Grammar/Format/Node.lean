import Backtrack.Grammar.ClassText
import Backtrack.Grammar.Format.Basic

/-!
# Nodes

An expression is written as an object with the name of its kind, or the kind's index, under
`type`. The region is read first, then the kind, then the fields of the kind.
-/

namespace Backtrack

set_option autoImplicit false

namespace Format

/-- The kind that a node's tag gives by name or by index. -/
def kind : Json.Value → Except LoadError Kind
  | .string name => (Kind.ofName? name).elim (.error (.unknownKind name)) .ok
  | .number (.whole false n) =>
    match Kind.ofIndex? n with
    | some kind => .ok kind
    | none => if n < UInt64.size then .error .invalidValue else .error .invalidType
  | _ => .error .invalidType

def oneChar? (s : String) : Option Char :=
  match s.toList with
  | [c] => some c
  | _ => none

def classPart : Json.Value → Except LoadError ClassPart
  | .string s => (oneChar? s).elim (.error .classPart) (.ok ∘ .single)
  | .array [.string low, .string high] =>
    match oneChar? low, oneChar? high with
    | some low, some high => .ok (.range low high)
    | _, _ => .error .classPart
  | _ => .error .classPart

/-- A member of a node, with what it is as an expression and as a list of expressions. -/
structure Field where
  value : Json.Value
  expr : Except LoadError Expr
  exprs : Except LoadError (List Expr)

namespace Field

def string (field : Field) : Except LoadError String := Format.string plain field.value

def string? (field : Field) : Except LoadError (Option String) :=
  nullable (Format.string plain) field.value

def bool (field : Field) : Except LoadError Bool := Format.bool plain field.value

def number? (field : Field) : Except LoadError (Option UInt32) :=
  nullable (Format.number plain) field.value

def parts (field : Field) : Except LoadError (List ClassPart) :=
  Format.list plain classPart field.value

end Field

/-- The tag of a node. -/
def tag (fields : List (String × Field)) : Except LoadError Kind :=
  ((Record.named fields).required "type" fun field => kind field.value).toExcept

/-- The fields of a node of the given kind; members of other names do not matter. -/
def body (region : Option Region) (r : Record Field) : Kind → Reading Expr
  | .named => .named region <$> r.required "name" Field.string <*> inner
  | .choice => .choice region <$> r.required "alternatives" Field.exprs
  | .sequence => .sequence region <$> r.required "elements" Field.exprs
  | .labeled => .labeled region <$> r.required "label" Field.string <*> inner
  | .text => .text region <$> inner
  | .optional => .optional region <$> inner
  | .zeroOrMore => .repeated region .zeroOrMore <$> inner
  | .oneOrMore => .repeated region .oneOrMore <$> inner
  | .range =>
    (fun expr min max => .repeated region (.range (min.join.getD 0) max.join) expr) <$> inner <*>
      r.optional "min" Field.number? <*> r.optional "max" Field.number?
  | .simpleAnd => .lookahead region false <$> inner
  | .simpleNot => .lookahead region true <$> inner
  | .semanticAnd => .predicate region false <$> code
  | .semanticNot => .predicate region true <$> code
  | .action => (fun expr code => .action region code expr) <$> inner <*> code
  | .ruleRef => .ruleRef region <$> r.required "name" Field.string
  | .literal =>
    .literal region <$> r.required "value" Field.string <*>
      r.defaulted "ignoreCase" false Field.bool
  | .charClass =>
    (fun parts inverted ignoreCase rawText =>
      let written := CharClass.ofParts parts inverted ignoreCase
      .charClass region { written with rawText := rawText.join.getD written.rawText }) <$>
      r.required "parts" Field.parts <*> r.defaulted "inverted" false Field.bool <*>
      r.defaulted "ignoreCase" false Field.bool <*> r.optional "rawText" Field.string?
  | .any => pure (.any region)
where
  inner : Reading Expr := r.required "expression" Field.expr
  code : Reading UserCode := codeFields Field.string Field.string? r

/-- A node whose region and other members are known. -/
def node (region : Option Region) (fields : List (String × Field)) : Except LoadError Expr := do
  (body region (.named fields) (← tag fields)).toExcept

mutual

/-- An expression from a plain value. -/
def expr : Json.Value → Except LoadError Expr
  | .object members => do
    node (← (regionField plain (.named members)).toExcept) (fields members)
  | _ => .error .invalidType

def exprs : Json.Value → Except LoadError (List Expr)
  | .array items => exprList items
  | _ => .error .invalidType

def exprList : List Json.Value → Except LoadError (List Expr)
  | [] => .ok []
  | item :: rest => do return (← expr item) :: (← exprList rest)

def fields : List (String × Json.Value) → List (String × Field)
  | [] => []
  | (key, value) :: rest => (key, ⟨value, expr value, exprs value⟩) :: fields rest

end

end Format

/-- Loads one expression from a plain value. -/
def Expr.ofValue (value : Json.Value) : Except LoadError Expr := Format.expr value.canonical

end Backtrack
