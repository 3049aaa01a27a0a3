import Backtrack.Proofs.Generation.Lowering
import Backtrack.Proofs.Json.Written
import Backtrack.Proofs.Loading.Paths

/-!
# The document of a grammar

Every grammar has a document that writes out all it says: each record is an object with its tag and
all its fields, of which only a bound or a region that is not there is left out. Loading the text of
the document gives the grammar again.
-/

namespace Backtrack

set_option autoImplicit false

open Json (member?)

/-- The member of a field that may be absent. -/
def optionalMember (name : String) (value : Option Json.Value) : List (String × Json.Value) :=
  (value.map fun v => (name, v)).toList

def wordDocument (w : UInt32) : Json.Value := .number (.ofNat w.toNat)

def Position.document (position : Position) : Json.Value :=
  .object [("offset", wordDocument position.offset), ("line", wordDocument position.line),
    ("column", wordDocument position.column)]

def Region.document (region : Region) : Json.Value :=
  .object [("begin", region.start.document), ("end", region.stop.document)]

/-- A record with its tag in front and its region, if it has one, at the end. -/
def taggedMembers (tag : String) (fields : List (String × Json.Value)) (region : Option Region) :
    List (String × Json.Value) :=
  ("type", .string tag) :: (fields ++ optionalMember "region" (region.map Region.document))

def taggedDocument (tag : String) (fields : List (String × Json.Value))
    (region : Option Region) : Json.Value :=
  .object (taggedMembers tag fields region)

def UserCode.fields (code : UserCode) : List (String × Json.Value) :=
  [("code", .string code.body), ("namespace", .string code.space)]

def ClassPart.document : ClassPart → Json.Value
  | .single c => .string (String.singleton c)
  | .range low high => .array [.string (String.singleton low), .string (String.singleton high)]

def CharClass.fields (cls : CharClass) : List (String × Json.Value) :=
  [("parts", .array (cls.parts.map ClassPart.document)), ("inverted", .bool cls.inverted),
    ("ignoreCase", .bool cls.ignoreCase), ("rawText", .string cls.rawText)]

def Quantifier.fields : Quantifier → List (String × Json.Value)
  | .zeroOrMore | .oneOrMore => []
  | .range min max => ("min", wordDocument min) :: optionalMember "max" (max.map wordDocument)

mutual

/-- The fields that an expression has by its kind. -/
def Expr.fields : Expr → List (String × Json.Value)
  | .named _ name expr =>
    [("name", .string name),
      ("expression", taggedDocument expr.kind.name expr.fields expr.region)]
  | .choice _ alternatives => [("alternatives", .array (Expr.documents alternatives))]
  | .sequence _ elements => [("elements", .array (Expr.documents elements))]
  | .labeled _ label expr =>
    [("label", .string label),
      ("expression", taggedDocument expr.kind.name expr.fields expr.region)]
  | .text _ expr | .optional _ expr | .lookahead _ _ expr =>
    [("expression", taggedDocument expr.kind.name expr.fields expr.region)]
  | .repeated _ quantifier expr =>
    ("expression", taggedDocument expr.kind.name expr.fields expr.region) :: quantifier.fields
  | .predicate _ _ code => code.fields
  | .action _ code expr =>
    ("expression", taggedDocument expr.kind.name expr.fields expr.region) :: code.fields
  | .ruleRef _ name => [("name", .string name)]
  | .literal _ value ignoreCase => [("value", .string value), ("ignoreCase", .bool ignoreCase)]
  | .charClass _ cls => cls.fields
  | .any _ => []

def Expr.documents : List Expr → List Json.Value
  | [] => []
  | expr :: rest => taggedDocument expr.kind.name expr.fields expr.region :: Expr.documents rest

end

def Expr.document (expr : Expr) : Json.Value :=
  taggedDocument expr.kind.name expr.fields expr.region

def UserCode.document (code : UserCode) : Json.Value :=
  taggedDocument "initializer" code.fields none

def Rule.document (rule : Rule) : Json.Value :=
  taggedDocument "rule" [("name", .string rule.name), ("expression", rule.expression.document)]
    rule.region

def Grammar.document (grammar : Grammar) : Json.Value :=
  taggedDocument "grammar" [("initializers", .array (grammar.initializers.map UserCode.document)),
    ("rules", .array (grammar.rules.map Rule.document))] none

theorem Expr.documents_eq_map (exprs : List Expr) :
    Expr.documents exprs = exprs.map Expr.document := by
  induction exprs with
  | nil => rfl
  | cons expr rest ih => rw [Expr.documents, ih, List.map_cons, Expr.document]

namespace Format

theorem isPosition_document (position : Position) : IsPosition position.document position :=
  ⟨_, .object _, .given rfl, .given rfl, .given rfl⟩

theorem isRegion_document (region : Region) : IsRegion region.document region :=
  ⟨_, .object _, .given (isPosition_document _), .given (isPosition_document _)⟩

theorem isPart_document (part : ClassPart) : IsPart part.document part := by
  cases part with
  | single c => exact .single rfl
  | range low high => exact .range rfl rfl

theorem isList_map {α : Type} {P : Json.Value → α → Prop} {f : α → Json.Value} {values : List α}
    (h : ∀ a ∈ values, P (f a) a) : IsList P (.array (values.map f)) values :=
  .mk (List.forall₂_map_left_iff.mpr (List.forall₂_same.mpr h))

theorem nullable_map {α : Type} {P : Json.Value → α → Prop} {f : α → Json.Value}
    (hnull : ∀ a, f a ≠ .null) (h : ∀ a, P (f a) a) (value : Option α) :
    Nullable P (value.map f) value := by
  cases value with
  | none => exact .absent
  | some a => exact .given (hnull a) (h a)

section

variable {tag name : String} {fields : List (String × Json.Value)} {region : Option Region}

theorem valuesOf_optionalMember (name key : String) (value : Option Json.Value) :
    Json.valuesOf name (optionalMember key value) = if key = name then value.toList else [] := by
  cases value with
  | none => simp [optionalMember, Json.valuesOf]
  | some v =>
    rw [optionalMember, Option.map_some, Option.toList_some, Json.valuesOf_cons]
    split <;> rfl

theorem member?_field (htype : name ≠ "type") (hregion : name ≠ "region") :
    member? name (taggedMembers tag fields region) = member? name fields := by
  unfold member? taggedMembers
  rw [Json.valuesOf_cons, Json.valuesOf_append, valuesOf_optionalMember, if_neg htype.symm,
    if_neg hregion.symm, List.nil_append, List.append_nil]

theorem member?_type (h : "type" ∉ fields.map Prod.fst) :
    member? "type" (taggedMembers tag fields region) = some (.string tag) := by
  unfold member? taggedMembers
  rw [Json.valuesOf_cons, Json.valuesOf_append, valuesOf_optionalMember, Json.valuesOf_eq_nil h]
  rfl

theorem member?_region (h : "region" ∉ fields.map Prod.fst) :
    member? "region" (taggedMembers tag fields region) = region.map Region.document := by
  unfold member? taggedMembers
  rw [Json.valuesOf_cons, Json.valuesOf_append, valuesOf_optionalMember, Json.valuesOf_eq_nil h]
  cases region <;> rfl

theorem nullable_region (h : "region" ∉ fields.map Prod.fst) :
    Nullable IsRegion (member? "region" (taggedMembers tag fields region)) region := by
  rw [member?_region h]
  exact nullable_map (f := Region.document) (fun _ => nofun) isRegion_document region

end

theorem holdsCode_fields (code : UserCode) :
    HoldsCode (fun name => member? name code.fields) code :=
  ⟨.given rfl, some code.space, .given nofun rfl, rfl⟩

theorem holdsClass_fields (cls : CharClass) :
    HoldsClass (fun name => member? name cls.fields) cls where
  parts := .given (isList_map fun part _ => isPart_document part)
  inverted := .given rfl
  ignoreCase := .given rfl
  rawText := ⟨some cls.rawText, .given nofun rfl, rfl⟩

/-- The fields of a document are among those of its kind and in their order. -/
theorem keys_sublist (e : Expr) :
    (e.fields.map Prod.fst).Sublist ((kindFields e.kind).map Prod.fst) := by
  cases e with
  | repeated region quantifier expr =>
    cases quantifier with
    | range min max =>
      cases max with
      | none => exact List.sublist_append_left ["expression", "min"] ["max"]
      | some max => exact .refl _
    | _ => exact .refl _
  | lookahead region negated expr => cases negated <;> exact .refl _
  | predicate region negated code => cases negated <;> exact .refl _
  | _ => exact .refl _

theorem nodup_names (kind : Kind) :
    ("type" :: ((kindFields kind).map Prod.fst ++ ["region"])).Nodup := by
  cases kind <;> decide

theorem ne_of_mem_kindFields {kind : Kind} {name : String}
    (h : name ∈ (kindFields kind).map Prod.fst) : name ≠ "type" ∧ name ≠ "region" := by
  obtain ⟨htype, hrest⟩ := List.nodup_cons.mp (nodup_names kind)
  constructor
  · rintro rfl
    exact htype (List.mem_append_left _ h)
  · rintro rfl
    exact (List.nodup_append.mp hrest).2.2 _ h _ List.mem_cons_self rfl

/-- A node holds under the names of its kind what these alone hold. -/
theorem isExpr_of_fields {e : Expr}
    (h : HoldsNode IsExpr e.kind (fun name => member? name e.fields) e.region e) :
    IsExpr e.document e := by
  have hother {name : String} (hname : name ∈ e.fields.map Prod.fst) :=
    ne_of_mem_kindFields ((keys_sublist e).subset hname)
  have hholds : HoldsNode IsExpr e.kind
      (fun name => member? name (taggedMembers e.kind.name e.fields e.region)) e.region e := by
    have htracks : Tracks Eq fun _ _ => True := ⟨fun _ => rfl, fun v _ heq => heq ▸ .same v⟩
    refine (htracks.holdsNode_congr ?_ ?_ ?_).mp h
    · intro name content hname
      have hne := ne_of_mem_kindFields (List.mem_map_of_mem hname)
      rw [member?_field hne.1 hne.2]
      exact htracks.rel_refl _
    · rintro _ _ _ _ _ rfl _
      exact Iff.rfl
    · rintro _ _ _ _ _ rfl _
      exact Iff.rfl
  refine .node ?_ (nullable_region fun hname => (hother hname).2 rfl) hholds
  rw [member?_type fun hname => (hother hname).1 rfl]
  exact .given (.name e.kind)

theorem isExpr_document (e : Expr) : IsExpr e.document e := by
  apply isExpr_of_fields
  induction e using Expr.induction with
  | named region name inner ih => exact .named (.given rfl) (.given (isExpr_of_fields ih))
  | choice region alternatives ih =>
    rw [Expr.fields, Expr.documents_eq_map]
    exact .choice (.given (isList_map fun e he => isExpr_of_fields (ih e he)))
  | sequence region elements ih =>
    rw [Expr.fields, Expr.documents_eq_map]
    exact .sequence (.given (isList_map fun e he => isExpr_of_fields (ih e he)))
  | labeled region label inner ih => exact .labeled (.given rfl) (.given (isExpr_of_fields ih))
  | text region inner ih => exact .text (.given (isExpr_of_fields ih))
  | optional region inner ih => exact .optional (.given (isExpr_of_fields ih))
  | repeated region quantifier inner ih =>
    cases quantifier with
    | zeroOrMore => exact .zeroOrMore (.given (isExpr_of_fields ih))
    | oneOrMore => exact .oneOrMore (.given (isExpr_of_fields ih))
    | range min max =>
      cases max with
      | none =>
        exact @HoldsNode.range _ _ _ _ (some min) none (.given (isExpr_of_fields ih))
          (.given nofun rfl) .absent
      | some max =>
        exact @HoldsNode.range _ _ _ _ (some min) (some max) (.given (isExpr_of_fields ih))
          (.given nofun rfl) (.given nofun rfl)
  | lookahead region negated inner ih =>
    cases negated with
    | false => exact .simpleAnd (.given (isExpr_of_fields ih))
    | true => exact .simpleNot (.given (isExpr_of_fields ih))
  | predicate region negated code =>
    cases negated with
    | false => exact .semanticAnd (holdsCode_fields code)
    | true => exact .semanticNot (holdsCode_fields code)
  | action region code inner ih =>
    exact .action (.given (isExpr_of_fields ih))
      ⟨.given rfl, some code.space, .given nofun rfl, rfl⟩
  | ruleRef region name => exact .ruleRef (.given rfl)
  | literal region value ignoreCase => exact .literal (.given rfl) (.given rfl)
  | charClass region cls => exact .charClass (holdsClass_fields cls)
  | any region => exact .any

theorem isInitializer_document (code : UserCode) : IsInitializer code.document code :=
  ⟨_, .object _, .given rfl, some code.space, .given nofun rfl, rfl⟩

theorem isRule_document (rule : Rule) : IsRule rule.document rule := by
  refine ⟨_, .object _, ?_, ?_, nullable_region (by simp)⟩
  · rw [member?_field (by decide) (by decide)]
    exact .given rfl
  · rw [member?_field (by decide) (by decide)]
    exact .given (isExpr_document rule.expression)

theorem isGrammar_document (g : Grammar) : IsGrammar g.document g :=
  ⟨_, .object _, .given (isList_map fun code _ => isInitializer_document code),
    .given (isList_map fun rule _ => isRule_document rule)⟩

/-- Every number inside has a value and no object repeats a key. -/
abbrev Proper : Json.Value → Prop :=
  Json.Everywhere (·.fits = true) fun members => (members.map Prod.fst).Nodup

theorem proper_object {members : List (String × Json.Value)} (hkeys : (members.map Prod.fst).Nodup)
    (h : ∀ member ∈ members, Proper member.2) : Proper (.object members) :=
  .object hkeys fun key value hmem => h (key, value) hmem

theorem proper_word (w : UInt32) : Proper (wordDocument w) := by
  have hlt : w.toNat < UInt64.size := by
    have := w.toNat_lt
    simp only [UInt64.size]
    omega
  exact .number (Json.Number.fits_whole false hlt)

theorem proper_position (position : Position) : Proper position.document := by
  refine proper_object (by simp) ?_
  simp [proper_word]

theorem proper_region (region : Region) : Proper region.document := by
  refine proper_object (by simp) ?_
  simp [proper_position]

theorem proper_optionalMember {name : String} {value : Option Json.Value}
    (h : ∀ v ∈ value, Proper v) : ∀ member ∈ optionalMember name value, Proper member.2 := by
  cases value with
  | none => exact List.forall_mem_nil _
  | some v => exact List.forall_mem_singleton.mpr (h v rfl)

theorem proper_tagged {tag : String} {fields : List (String × Json.Value)} {region : Option Region}
    (hkeys : ("type" :: (fields.map Prod.fst ++ ["region"])).Nodup)
    (h : ∀ member ∈ fields, Proper member.2) : Proper (taggedDocument tag fields region) := by
  apply proper_object
  · refine List.Nodup.sublist ?_ hkeys
    rw [taggedMembers, List.map_cons, List.map_append]
    refine List.Sublist.cons_cons _ (List.Sublist.append (.refl _) ?_)
    cases region <;> simp [optionalMember]
  · rw [taggedMembers, List.forall_mem_cons, List.forall_mem_append]
    refine ⟨.string tag, h, proper_optionalMember ?_⟩
    intro v hv
    obtain ⟨r, -, rfl⟩ := Option.mem_map.mp hv
    exact proper_region r

theorem proper_code (code : UserCode) : ∀ member ∈ code.fields, Proper member.2 := by
  simp [UserCode.fields, Json.Everywhere.string]

theorem proper_part (part : ClassPart) : Proper part.document := by
  cases part with
  | single c => exact .string _
  | range low high =>
    refine .array ?_
    simp [Json.Everywhere.string]

theorem proper_fields (quantifier : Quantifier) :
    ∀ member ∈ quantifier.fields, Proper member.2 := by
  cases quantifier with
  | range min max =>
    refine List.forall_mem_cons.mpr ⟨proper_word min, proper_optionalMember ?_⟩
    intro v hv
    obtain ⟨w, -, rfl⟩ := Option.mem_map.mp hv
    exact proper_word w
  | _ => exact List.forall_mem_nil _

theorem proper_expr (e : Expr) : Proper e.document := by
  have hkeys (e : Expr) : ("type" :: (e.fields.map Prod.fst ++ ["region"])).Nodup :=
    List.Nodup.sublist ((keys_sublist e).append_right _ |>.cons_cons _) (nodup_names e.kind)
  -- The keys are those of the kind less what is left out, which settles them for all the cases.
  induction e using Expr.induction with
  | choice region alternatives ih =>
    refine proper_tagged (hkeys _) (List.forall_mem_singleton.mpr (.array ?_))
    rw [Expr.documents_eq_map]
    exact List.forall_mem_map.mpr ih
  | sequence region elements ih =>
    refine proper_tagged (hkeys _) (List.forall_mem_singleton.mpr (.array ?_))
    rw [Expr.documents_eq_map]
    exact List.forall_mem_map.mpr ih
  | named region name inner ih | labeled region label inner ih =>
    apply proper_tagged (hkeys _)
    rw [Expr.fields, List.forall_mem_cons, List.forall_mem_singleton]
    exact ⟨.string _, ih⟩
  | text region inner ih | optional region inner ih | lookahead region negated inner ih =>
    exact proper_tagged (hkeys _) (List.forall_mem_singleton.mpr ih)
  | repeated region quantifier inner ih =>
    exact proper_tagged (hkeys _) (List.forall_mem_cons.mpr ⟨ih, proper_fields quantifier⟩)
  | predicate region negated code => exact proper_tagged (hkeys _) (proper_code code)
  | action region code inner ih =>
    exact proper_tagged (hkeys _) (List.forall_mem_cons.mpr ⟨ih, proper_code code⟩)
  | ruleRef region name =>
    exact proper_tagged (hkeys _) (List.forall_mem_singleton.mpr (.string name))
  | literal region value ignoreCase =>
    apply proper_tagged (hkeys _)
    rw [Expr.fields, List.forall_mem_cons, List.forall_mem_singleton]
    exact ⟨.string value, .bool ignoreCase⟩
  | charClass region cls =>
    apply proper_tagged (hkeys _)
    simp only [Expr.fields, CharClass.fields, List.forall_mem_cons]
    exact ⟨.array (List.forall_mem_map.mpr fun part _ => proper_part part), .bool _, .bool _,
      .string _, List.forall_mem_nil _⟩
  | any region => exact proper_tagged (hkeys _) (List.forall_mem_nil _)

theorem proper_grammar (g : Grammar) : Proper g.document := by
  apply proper_tagged (by simp)
  rw [List.forall_mem_cons, List.forall_mem_singleton]
  refine ⟨.array (List.forall_mem_map.mpr ?_), .array (List.forall_mem_map.mpr ?_)⟩
  · intro code _
    exact proper_tagged (by simp [UserCode.fields]) (proper_code code)
  · intro rule _
    apply proper_tagged (by simp)
    rw [List.forall_mem_cons, List.forall_mem_singleton]
    exact ⟨.string rule.name, proper_expr rule.expression⟩

end Format

/-- A grammar whose document nests no deeper than allowed is loaded from the text of its
document. -/
theorem document_loads_again {g : Grammar} (h : g.document.depth ≤ Json.maxDepth) :
    Json.parse? (Json.render g.document) = some g.document ∧
      Grammar.ofText (Json.render g.document) = .ok g := by
  have hproper := Format.proper_grammar g
  have hparse : Json.parse? (Json.render g.document) = some g.document :=
    Json.parse?_render (hproper.mono (fun _ hfits => hfits) fun _ _ => trivial) h
  have honce : Format.Unrepeated g.document := by
    apply Format.throughout_of_everywhere
    exact hproper.mono (fun _ hfits => hfits) fun _ hnodup name _ => Json.once_of_nodup hnodup
  exact ⟨hparse, (Format.ofText_eq_ok_iff_isGrammar hparse honce).mpr
    (Format.isGrammar_document g)⟩

/-- A repeated class with a region, under an action whose code has to be escaped. -/
theorem document_loads_again_of_repeated :
    let region : Region := ⟨⟨0, 1, 1⟩, ⟨4294967295, 1, 9⟩⟩
    let cls : CharClass := ⟨[.single '"', .range 'a' '\u00ff'], true, false, "[^\"a-\u00ff]"⟩
    let grammar : Grammar := ⟨[⟨"tools", "int n;"⟩], [⟨"R", .action none ⟨"global", "\"\\\x01\n"⟩
      (.repeated (some region) (.range 2 none) (.charClass none cls)), some region⟩]⟩
    grammar.document.depth ≤ Json.maxDepth ∧
      Grammar.ofText (Json.render grammar.document) = .ok grammar := by
  intro region cls grammar
  have hdepth : grammar.document.depth ≤ Json.maxDepth := by decide
  exact ⟨hdepth, (document_loads_again hdepth).2⟩

end Backtrack
