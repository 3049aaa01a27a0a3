import Mathlib.Data.List.Forall2
import Mathlib.Logic.Relation
import Mathlib.Tactic.MkIffOfInductiveProp
import Backtrack.Grammar.ClassText
import Backtrack.Proofs.Json.Values

/-!
# The grammar format

Which JSON values stand for a grammar, and for which one. The relation says nothing about how a
value is read: each record is seen through what it holds under a name, and what it holds under any
other name does not matter.
-/

namespace Backtrack.Format

set_option autoImplicit false

open Json (Value member?)

abbrev IsString (v : Value) (s : String) : Prop := v = .string s

abbrev IsBool (v : Value) (b : Bool) : Prop := v = .bool b

/-- A whole number of 32 bits, written in digits alone. -/
abbrev IsWord (v : Value) (w : UInt32) : Prop := v = .number (.whole false w.toNat)

/-- A character is a string of one character. -/
abbrev IsChar (v : Value) (c : Char) : Prop := v = .string (String.singleton c)

/-- A part of a class is a character or a pair of characters. -/
inductive IsPart : Value → ClassPart → Prop where
  | single {v : Value} {c : Char} (char : IsChar v c) : IsPart v (.single c)
  | range {v v' : Value} {low high : Char} (first : IsChar v low) (last : IsChar v' high) :
    IsPart (.array [v, v']) (.range low high)

/-- A kind is given by its name or by its index. -/
inductive IsKind : Value → Kind → Prop where
  | name (kind : Kind) : IsKind (.string kind.name) kind
  | index {i : Nat} {kind : Kind} (found : Kind.all[i]? = some kind) :
    IsKind (.number (.whole false i)) kind

section

variable {α : Type} (P : Value → α → Prop)

inductive IsList : Value → List α → Prop where
  | mk {items : List Value} {values : List α} (each : List.Forall₂ P items values) :
    IsList (.array items) values

/-- A field that has to be there. -/
inductive Required : Option Value → α → Prop where
  | given {v : Value} {a : α} (value : P v a) : Required (some v) a

/-- A field that may be absent or null, which is the same. -/
inductive Nullable : Option Value → Option α → Prop where
  | absent : Nullable none none
  | null : Nullable (some .null) none
  | given {v : Value} {a : α} (here : v ≠ .null) (value : P v a) : Nullable (some v) (some a)

/-- A field that may be absent, but is not null. -/
inductive Defaulted (default : α) : Option Value → α → Prop where
  | absent : Defaulted default none default
  | given {v : Value} {a : α} (value : P v a) : Defaulted default (some v) a

end

/-- What is read as a record of its own. -/
inductive Shape where
  | grammar
  | initializer
  | rule
  | region
  | position
  | node
  deriving DecidableEq, Repr

/-- What stands in a field: no record, a record, or a list of records. -/
inductive Content where
  | plain
  | one (shape : Shape)
  | many (shape : Shape)
  deriving DecidableEq, Repr

/-- The fields of a record in order of declaration; a node has those of its kind besides. -/
def Shape.fields : Shape → List (String × Content)
  | .grammar => [("initializers", .many .initializer), ("rules", .many .rule)]
  | .initializer => [("code", .plain), ("namespace", .plain)]
  | .rule => [("name", .plain), ("expression", .one .node), ("region", .one .region)]
  | .region => [("begin", .one .position), ("end", .one .position)]
  | .position => [("offset", .plain), ("line", .plain), ("column", .plain)]
  | .node => [("type", .plain), ("region", .one .region)]

def Shape.names (shape : Shape) : List String := shape.fields.map Prod.fst

/-- The fields of a node of a kind. -/
def kindFields : Kind → List (String × Content)
  | .named => [("name", .plain), ("expression", .one .node)]
  | .choice => [("alternatives", .many .node)]
  | .sequence => [("elements", .many .node)]
  | .labeled => [("label", .plain), ("expression", .one .node)]
  | .text | .optional | .zeroOrMore | .oneOrMore | .simpleAnd | .simpleNot =>
    [("expression", .one .node)]
  | .range => [("expression", .one .node), ("min", .plain), ("max", .plain)]
  | .semanticAnd | .semanticNot => [("code", .plain), ("namespace", .plain)]
  | .action => [("expression", .one .node), ("code", .plain), ("namespace", .plain)]
  | .ruleRef => [("name", .plain)]
  | .literal => [("value", .plain), ("ignoreCase", .plain)]
  | .charClass =>
    [("parts", .plain), ("inverted", .plain), ("ignoreCase", .plain), ("rawText", .plain)]
  | .any => []

/-- What a record holds under each name. A record is an object or, unless it is a node, an array of
its fields in order of declaration, of which the last ones may be left off. -/
inductive Shape.Shows (shape : Shape) : Value → (String → Option Value) → Prop where
  | object (members : List (String × Value)) :
    Shows shape (.object members) fun name => member? name members
  | array (items : List Value) (listed : shape ≠ .node)
      (short : items.length ≤ shape.names.length) :
    Shows shape (.array items) fun name => items[shape.names.idxOf name]?

variable (held : String → Option Value)

/-- The record knows the field. Of the fields that belong to kinds, a node knows those of its own
kind. -/
inductive Shape.Knows : Shape → String → Content → Prop where
  | field {shape : Shape} {name : String} {content : Content}
      (listed : (name, content) ∈ shape.fields) : Knows shape name content
  | ofKind {kind : Kind} {name : String} {content : Content}
      (tag : Required IsKind (held "type") kind) (listed : (name, content) ∈ kindFields kind) :
    Knows .node name content

structure HoldsPosition (position : Position) : Prop where
  offset : Required IsWord (held "offset") position.offset
  line : Required IsWord (held "line") position.line
  column : Required IsWord (held "column") position.column

def IsPosition (v : Value) (position : Position) : Prop :=
  ∃ held, Shape.position.Shows v held ∧ HoldsPosition held position

structure HoldsRegion (region : Region) : Prop where
  start : Required IsPosition (held "begin") region.start
  stop : Required IsPosition (held "end") region.stop

def IsRegion (v : Value) (region : Region) : Prop :=
  ∃ held, Shape.region.Shows v held ∧ HoldsRegion held region

/-- User code that names no namespace is in the default one. -/
structure HoldsCode (code : UserCode) : Prop where
  body : Required IsString (held "code") code.body
  space : ∃ given, Nullable IsString (held "namespace") given ∧
    code.space = given.getD defaultNamespace

def IsInitializer (v : Value) (code : UserCode) : Prop :=
  ∃ held, Shape.initializer.Shows v held ∧ HoldsCode held code

/-- A class that gives no text of its own is written as its parts are. -/
structure HoldsClass (cls : CharClass) : Prop where
  parts : Required (IsList IsPart) (held "parts") cls.parts
  inverted : Defaulted IsBool false (held "inverted") cls.inverted
  ignoreCase : Defaulted IsBool false (held "ignoreCase") cls.ignoreCase
  rawText : ∃ given, Nullable IsString (held "rawText") given ∧
    cls.rawText =
      given.getD (String.ofList (CharClass.written cls.parts cls.inverted cls.ignoreCase))

/-- The fields of each kind of node; `sub` says what the nodes inside stand for. -/
@[mk_iff]
inductive HoldsNode (sub : Value → Expr → Prop) :
    Kind → (String → Option Value) → Option Region → Expr → Prop where
  | named {held region name expr} :
    Required IsString (held "name") name → Required sub (held "expression") expr →
    HoldsNode sub .named held region (.named region name expr)
  | choice {held region exprs} :
    Required (IsList sub) (held "alternatives") exprs →
    HoldsNode sub .choice held region (.choice region exprs)
  | sequence {held region exprs} :
    Required (IsList sub) (held "elements") exprs →
    HoldsNode sub .sequence held region (.sequence region exprs)
  | labeled {held region label expr} :
    Required IsString (held "label") label → Required sub (held "expression") expr →
    HoldsNode sub .labeled held region (.labeled region label expr)
  | text {held region expr} :
    Required sub (held "expression") expr → HoldsNode sub .text held region (.text region expr)
  | optional {held region expr} :
    Required sub (held "expression") expr →
    HoldsNode sub .optional held region (.optional region expr)
  | zeroOrMore {held region expr} :
    Required sub (held "expression") expr →
    HoldsNode sub .zeroOrMore held region (.repeated region .zeroOrMore expr)
  | oneOrMore {held region expr} :
    Required sub (held "expression") expr →
    HoldsNode sub .oneOrMore held region (.repeated region .oneOrMore expr)
  /-- Without a least number of matches there may be none, without a greatest any number. -/
  | range {held region expr min max} :
    Required sub (held "expression") expr → Nullable IsWord (held "min") min →
    Nullable IsWord (held "max") max →
    HoldsNode sub .range held region (.repeated region (.range (min.getD 0) max) expr)
  | simpleAnd {held region expr} :
    Required sub (held "expression") expr →
    HoldsNode sub .simpleAnd held region (.lookahead region false expr)
  | simpleNot {held region expr} :
    Required sub (held "expression") expr →
    HoldsNode sub .simpleNot held region (.lookahead region true expr)
  | semanticAnd {held region code} :
    HoldsCode held code → HoldsNode sub .semanticAnd held region (.predicate region false code)
  | semanticNot {held region code} :
    HoldsCode held code → HoldsNode sub .semanticNot held region (.predicate region true code)
  | action {held region code expr} :
    Required sub (held "expression") expr → HoldsCode held code →
    HoldsNode sub .action held region (.action region code expr)
  | ruleRef {held region name} :
    Required IsString (held "name") name →
    HoldsNode sub .ruleRef held region (.ruleRef region name)
  | literal {held region value ignoreCase} :
    Required IsString (held "value") value →
    Defaulted IsBool false (held "ignoreCase") ignoreCase →
    HoldsNode sub .literal held region (.literal region value ignoreCase)
  | charClass {held region cls} :
    HoldsClass held cls → HoldsNode sub .charClass held region (.charClass region cls)
  | any {held region} : HoldsNode sub .any held region (.any region)

/-- A node is an object with the kind under `type`, and a region if it has one. -/
inductive IsExpr : Value → Expr → Prop where
  | node {members kind region expr} :
    Required IsKind (member? "type" members) kind →
    Nullable IsRegion (member? "region" members) region →
    HoldsNode IsExpr kind (fun name => member? name members) region expr →
    IsExpr (.object members) expr

structure HoldsRule (rule : Rule) : Prop where
  name : Required IsString (held "name") rule.name
  expression : Required IsExpr (held "expression") rule.expression
  region : Nullable IsRegion (held "region") rule.region

def IsRule (v : Value) (rule : Rule) : Prop :=
  ∃ held, Shape.rule.Shows v held ∧ HoldsRule held rule

structure HoldsGrammar (grammar : Grammar) : Prop where
  initializers :
    Defaulted (IsList IsInitializer) [] (held "initializers") grammar.initializers
  rules : Required (IsList IsRule) (held "rules") grammar.rules

/-- The value stands for the grammar. -/
def IsGrammar (v : Value) (grammar : Grammar) : Prop :=
  ∃ held, Shape.grammar.Shows v held ∧ HoldsGrammar held grammar

/-- A record is read inside another one. -/
inductive Inner : Shape × Value → Shape × Value → Prop where
  | one {shape inner : Shape} {v x : Value} {held : String → Option Value} {name : String}
      (shows : shape.Shows v held) (known : shape.Knows held name (.one inner))
      (here : held name = some x) : Inner (shape, v) (inner, x)
  | many {shape inner : Shape} {v x : Value} {held : String → Option Value} {name : String}
      {items : List Value} (shows : shape.Shows v held)
      (known : shape.Knows held name (.many inner)) (here : held name = some (.array items))
      (item : x ∈ items) : Inner (shape, v) (inner, x)

/-- Every known field of every object that is read satisfies `P`. -/
def Throughout (P : List (String × Value) → String → Prop) (shape : Shape) (v : Value) : Prop :=
  ∀ inner members, Relation.ReflTransGen Inner (shape, v) (inner, .object members) →
    ∀ name content, inner.Knows (fun name => member? name members) name content → P members name

/-- No object that is read repeats a known field. -/
def Unrepeated (v : Value) : Prop := Throughout Json.Once .grammar v

end Backtrack.Format
