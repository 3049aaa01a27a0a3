import Backtrack.Proofs.Loading.Decoding

/-!
# Decoding nodes

A node is decoded in three steps: its region, its kind, and the fields of the kind. The nodes
inside are decoded with the fields.
-/

namespace Backtrack.Format

set_option autoImplicit false

open Json (Value ofValue ofItems ofMembers member? Once)

theorem ofName?_eq_some_iff {name : String} {kind : Kind} :
    Kind.ofName? name = some kind ↔ name = kind.name := by
  constructor
  · intro h
    have hfound := List.find?_some (show Kind.all.find? (fun kind => kind.name = name) = _ from h)
    exact (of_decide_eq_true hfound).symm
  · rintro rfl
    exact Kind.ofName?_name kind

theorem kind_eq_ok_iff {v : Value} {kind : Kind} : Format.kind v = .ok kind ↔ IsKind v kind := by
  unfold Format.kind
  split
  · rename_i name
    constructor
    · intro h
      have hname : Kind.ofName? name = some kind := by
        cases hfound : Kind.ofName? name with
        | none => simp [hfound] at h
        | some found => simpa [hfound] using h
      rw [ofName?_eq_some_iff.mp hname]
      exact .name kind
    · rintro ⟨⟩
      rw [Kind.ofName?_name]
      rfl
  · rename_i n
    constructor
    · intro h
      have hindex : Kind.ofIndex? n = some kind := by
        cases hfound : Kind.ofIndex? n with
        | none =>
          rw [hfound] at h
          dsimp only at h
          split at h <;> cases h
        | some found => simpa [hfound] using h
      exact .index hindex
    · intro h
      cases h with
      | index hfound =>
        have hindex : Kind.ofIndex? n = some kind := hfound
        rw [hindex]
  · rename_i hstring hnumber
    constructor
    · nofun
    · intro h
      cases h with
      | name => exact absurd rfl (hstring _)
      | index => exact absurd rfl (hnumber _)

theorem oneChar?_eq_some_iff {s : String} {c : Char} :
    oneChar? s = some c ↔ s = String.singleton c := by
  have hlist : oneChar? s = some c ↔ s.toList = [c] := by
    unfold oneChar?
    split
    · rename_i heq
      simp [heq]
    · rename_i hne
      simp only [reduceCtorEq, false_iff]
      exact hne c
  rw [hlist, ← String.toList_singleton, String.toList_inj]

theorem classPart_eq_ok_iff {v : Value} {part : ClassPart} :
    classPart v = .ok part ↔ IsPart v part := by
  have hchar : ∀ s : String, ∀ c, IsChar (.string s) c ↔ oneChar? s = some c := by
    intro s c
    rw [oneChar?_eq_some_iff, IsChar, Json.string.injEq]
  unfold classPart
  split
  · rename_i s
    constructor
    · intro h
      cases hone : oneChar? s with
      | none => simp [hone] at h
      | some c =>
        simp only [hone, Option.elim_some, Function.comp_apply, Except.ok.injEq] at h
        rw [← h]
        exact .single ((hchar s c).mpr hone)
    · intro h
      cases h with
      | single hs =>
        rw [(hchar s _).mp hs]
        rfl
  · rename_i low high
    constructor
    · intro h
      cases hlow : oneChar? low with
      | none => simp [hlow] at h
      | some c =>
        cases hhigh : oneChar? high with
        | none => simp [hlow, hhigh] at h
        | some d =>
          simp only [hlow, hhigh, Except.ok.injEq] at h
          rw [← h]
          exact .range ((hchar low c).mpr hlow) ((hchar high d).mpr hhigh)
    · intro h
      cases h with
      | single hs => cases hs
      | range hlow hhigh =>
        rw [(hchar low _).mp hlow, (hchar high _).mp hhigh]
  · rename_i hstring hpair
    constructor
    · nofun
    · intro h
      cases h with
      | single hs => exact absurd hs (hstring _)
      | range hlow hhigh =>
        cases hlow
        cases hhigh
        exact absurd rfl (hpair _ _)

/-- A member of a node with all it may be. -/
def fieldOf (x : Value) : Field := ⟨x, expr x, exprs x⟩

theorem fields_eq_map (members : List (String × Value)) :
    fields members = members.map fun (key, value) => (key, fieldOf value) := by
  induction members with
  | nil => rfl
  | cons member rest ih =>
    rw [fields, ih, List.map_cons]
    rfl

theorem string_fieldOf {x : Value} {s : String} : (fieldOf x).string = .ok s ↔ IsString x s := by
  have hstring := @string_eq_ok_iff _ plain x s
  rwa [Json.ofValue_self] at hstring

theorem string?_fieldOf {x : Value} {b : Option String} :
    (fieldOf x).string? = .ok b ↔
      (x = .null ∧ b = none) ∨ (x ≠ .null ∧ ∃ s, IsString x s ∧ b = some s) := by
  have hnullable := @nullable_eq_ok_iff _ _ IsString (string plain) x
    (fun s => string_eq_ok_iff plain) b
  rwa [Json.ofValue_self] at hnullable

theorem bool_fieldOf {x : Value} {b : Bool} : (fieldOf x).bool = .ok b ↔ IsBool x b := by
  have hbool := @bool_eq_ok_iff _ plain x b
  rwa [Json.ofValue_self] at hbool

theorem number?_fieldOf {x : Value} {b : Option UInt32} :
    (fieldOf x).number? = .ok b ↔
      (x = .null ∧ b = none) ∨ (x ≠ .null ∧ ∃ w, IsWord x w ∧ b = some w) := by
  have hnullable := @nullable_eq_ok_iff _ _ IsWord (number plain) x
    (fun w => number_eq_ok_iff plain) b
  rwa [Json.ofValue_self] at hnullable

theorem parts_fieldOf {x : Value} {parts : List ClassPart} :
    (fieldOf x).parts = .ok parts ↔ IsList IsPart x parts := by
  have hpart : ∀ item part, classPart (ofValue item) = .ok part ↔ IsPart item part := by
    intro item part
    rw [Json.ofValue_self]
    exact classPart_eq_ok_iff
  have hlist := @list_eq_ok_iff _ plain _ IsPart classPart x (fun _ _ item _ => hpart item) parts
  rwa [Json.ofValue_self] at hlist

section

variable {r : Record Field} {held : String → Option Value} {kind : Kind} {region : Option Region}
  (hfinds : ∀ name content, (name, content) ∈ kindFields kind →
    r.Finds name ((held name).map fieldOf))
include hfinds

theorem code_eq_done_iff (hcode : ("code", .plain) ∈ kindFields kind)
    (hspace : ("namespace", .plain) ∈ kindFields kind) {code : UserCode} :
    body.code r = .done code ↔ HoldsCode held code :=
  codeFields_eq_done_iff (fun _ _ => string_fieldOf) (fun _ _ => string?_fieldOf)
    (hfinds "code" .plain hcode) (hfinds "namespace" .plain hspace)

theorem body_eq_done_iff
    (hone : ∀ name x, (name, .one .node) ∈ kindFields kind → held name = some x →
      ∀ e, expr x = .ok e ↔ IsExpr x e)
    (hmany : ∀ name x, (name, .many .node) ∈ kindFields kind → held name = some x →
      ∀ es, exprs x = .ok es ↔ IsList IsExpr x es) {e : Expr} :
    body region r kind = .done e ↔ HoldsNode IsExpr kind held region e := by
  have hstring : ∀ name, (name, .plain) ∈ kindFields kind → ∀ s,
      r.required name Field.string = .done s ↔ Required IsString (held name) s :=
    fun name h s => (hfinds name .plain h).required fun _ _ _ => string_fieldOf
  have hinner : ("expression", .one .node) ∈ kindFields kind → ∀ e,
      body.inner r = .done e ↔ Required IsExpr (held "expression") e :=
    fun h e => (hfinds "expression" _ h).required fun x hx => hone "expression" x h hx
  have hexprs : ∀ name, (name, .many .node) ∈ kindFields kind → ∀ es,
      r.required name Field.exprs = .done es ↔ Required (IsList IsExpr) (held name) es :=
    fun name h e => (hfinds name _ h).required fun x hx => hmany name x h hx
  have hbool : ∀ name, (name, .plain) ∈ kindFields kind → ∀ b,
      r.defaulted name false Field.bool = .done b ↔ Defaulted IsBool false (held name) b :=
    fun name h b => (hfinds name .plain h).defaulted fun _ _ _ => bool_fieldOf
  have hcode := @code_eq_done_iff r held kind hfinds
  -- Bounds and the text of a class may be null: what is read for them is joined before it is used,
  -- so these two kinds are written out.
  cases kind with
  | range =>
    have hnumber : ∀ name, (name, .plain) ∈ kindFields .range → ∀ b : Option UInt32,
        (∃ given, r.optional name Field.number? = .done given ∧ given.join = b) ↔
          Nullable IsWord (held name) b :=
      fun name h b => (hfinds name .plain h).nullable fun _ _ _ => number?_fieldOf
    rw [body, Reading.map₃_eq_done_iff]
    constructor
    · rintro ⟨inner, min, max, h, hmin, hmax, rfl⟩
      exact .range ((hinner (by decide) inner).mp h)
        ((hnumber "min" (by decide) _).mp ⟨min, hmin, rfl⟩)
        ((hnumber "max" (by decide) _).mp ⟨max, hmax, rfl⟩)
    · intro h
      cases h with
      | range h hmin hmax =>
        obtain ⟨min, hleast, rfl⟩ := (hnumber "min" (by decide) _).mpr hmin
        obtain ⟨max, hmost, rfl⟩ := (hnumber "max" (by decide) _).mpr hmax
        exact ⟨_, min, max, (hinner (by decide) _).mpr h, hleast, hmost, rfl⟩
  | charClass =>
    have hparts : ∀ parts, r.required "parts" Field.parts = .done parts ↔
        Required (IsList IsPart) (held "parts") parts :=
      fun parts => (hfinds "parts" .plain (by decide)).required fun _ _ _ => parts_fieldOf
    have htext : ∀ b : Option String,
        (∃ given, r.optional "rawText" Field.string? = .done given ∧ given.join = b) ↔
          Nullable IsString (held "rawText") b :=
      fun b => (hfinds "rawText" .plain (by decide)).nullable fun _ _ _ => string?_fieldOf
    rw [body, Reading.map₄_eq_done_iff]
    simp only [hparts, hbool "inverted" (by decide), hbool "ignoreCase" (by decide)]
    constructor
    · rintro ⟨parts, inverted, ignoreCase, given, h, hinverted, hcase, hgiven, rfl⟩
      exact .charClass ⟨h, hinverted, hcase, given.join, (htext _).mp ⟨given, hgiven, rfl⟩, rfl⟩
    · intro h
      cases h with
      | charClass h =>
        obtain ⟨h, hinverted, hcase, text, hnullable, hdefault⟩ := h
        obtain ⟨given, hgiven, rfl⟩ := (htext _).mpr hnullable
        refine ⟨_, _, _, given, h, hinverted, hcase, hgiven, ?_⟩
        simp only [CharClass.ofParts, ← hdefault]
  | choice =>
    simp [body, holdsNode_iff, Reading.map_eq_done_iff, hexprs "alternatives" (by decide),
      @eq_comm _ e]
  | sequence =>
    simp [body, holdsNode_iff, Reading.map_eq_done_iff, hexprs "elements" (by decide),
      @eq_comm _ e]
  | named =>
    simp [body, holdsNode_iff, Reading.map₂_eq_done_iff, hstring "name" (by decide),
      hinner (by decide), @eq_comm _ e]
  | labeled =>
    simp [body, holdsNode_iff, Reading.map₂_eq_done_iff, hstring "label" (by decide),
      hinner (by decide), @eq_comm _ e]
  | text | optional | zeroOrMore | oneOrMore | simpleAnd | simpleNot =>
    simp [body, holdsNode_iff, Reading.map_eq_done_iff, hinner (by decide), @eq_comm _ e]
  | semanticAnd | semanticNot =>
    simp [body, holdsNode_iff, Reading.map_eq_done_iff, hcode (by decide) (by decide),
      @eq_comm _ e]
  | action =>
    -- The expression is read first, though the node holds the code in front of it.
    rw [body, Reading.map₂_eq_done_iff, exists_comm]
    simp [holdsNode_iff, hinner (by decide), hcode (by decide) (by decide), @eq_comm _ e]
  | ruleRef =>
    simp [body, holdsNode_iff, Reading.map_eq_done_iff, hstring "name" (by decide),
      @eq_comm _ e]
  | literal =>
    simp [body, holdsNode_iff, Reading.map₂_eq_done_iff, hstring "value" (by decide),
      hbool "ignoreCase" (by decide), @eq_comm _ e]
  | any => simp [body, holdsNode_iff, pure, @eq_comm _ e]

end

theorem bind_eq_ok_iff {α β : Type} {x : Except LoadError α} {f : α → Except LoadError β} {b : β} :
    (x >>= f) = .ok b ↔ ∃ a, x = .ok a ∧ f a = .ok b := by
  cases x <;> simp [bind, Except.bind]

/-- The members of a node may be all of it or all but the region. -/
theorem node_eq_ok_iff {members : List (String × Value)} {held : String → Option Value}
    {region : Option Region}
    (hvalues : ∀ name content, Shape.node.Knows held name content → name ≠ "region" →
      Json.valuesOf name members = (held name).toList)
    (hone : ∀ name x, Shape.node.Knows held name (.one .node) → held name = some x →
      ∀ e, expr x = .ok e ↔ IsExpr x e)
    (hmany : ∀ name x, Shape.node.Knows held name (.many .node) → held name = some x →
      ∀ es, exprs x = .ok es ↔ IsList IsExpr x es) {e : Expr} :
    node region (fields members) = .ok e ↔
      ∃ kind, Required IsKind (held "type") kind ∧ HoldsNode IsExpr kind held region e := by
  have hfinds : ∀ name content, Shape.node.Knows held name content → name ≠ "region" →
      (Record.named (fields members)).Finds name ((held name).map fieldOf) := by
    intro name content hknown hname
    change Json.valuesOf name (fields members) = _
    rw [fields_eq_map, Json.valuesOf_map, hvalues name content hknown hname, Option.toList_map]
  have htag : ∀ kind, tag (fields members) = .ok kind ↔ Required IsKind (held "type") kind := by
    intro kind
    unfold tag
    rw [Reading.toExcept_eq_ok_iff]
    apply (hfinds "type" .plain (.field (by decide)) (by decide)).required
    exact fun x _ kind => kind_eq_ok_iff
  have hapart : ∀ kind name content, (name, content) ∈ kindFields kind → name ≠ "region" := by
    rintro kind name content hmem rfl
    cases kind <;> simp [kindFields] at hmem
  unfold node
  simp only [bind_eq_ok_iff, htag, Reading.toExcept_eq_ok_iff]
  apply exists_congr
  intro kind
  apply and_congr_right
  intro hkind
  apply body_eq_done_iff
  · exact fun name content h => hfinds name content (.ofKind hkind h) (hapart kind name content h)
  · exact fun name x h => hone name x (.ofKind hkind h)
  · exact fun name x h => hmany name x (.ofKind hkind h)

theorem isExpr_object_iff {members : List (String × Value)} {e : Expr} :
    IsExpr (.object members) e ↔ ∃ region, Nullable IsRegion (member? "region" members) region ∧
      ∃ kind, Required IsKind (member? "type" members) kind ∧
        HoldsNode IsExpr kind (fun name => member? name members) region e := by
  constructor
  · rintro ⟨htag, hregion, hfields⟩
    exact ⟨_, hregion, _, htag, hfields⟩
  · rintro ⟨region, hregion, kind, htag, hfields⟩
    exact .node htag hregion hfields

theorem exprList_eq_mapM (items : List Value) : exprList items = items.mapM expr := by
  induction items with
  | nil => rfl
  | cons item rest ih => rw [exprList, List.mapM_cons, ih]

/-- What a value gives as an expression and as a list of expressions. -/
theorem expr_and_exprs_eq_ok_iff (v : Value) :
    (Throughout Once .node v → ∀ e, expr v = .ok e ↔ IsExpr v e) ∧
    ((∀ items, v = .array items → ∀ item ∈ items, Throughout Once .node item) →
      ∀ es, exprs v = .ok es ↔ IsList IsExpr v es) := by
  -- A field of a node holds a node or a list of them, so each half needs the other one level below.
  induction v using Json.induction with
  | array items ih =>
    refine ⟨fun _ e => ⟨nofun, nofun⟩, fun honce es => ?_⟩
    have hitem : ∀ item ∈ items, ∀ e, expr (ofValue item) = .ok e ↔ IsExpr item e := by
      intro item hitem
      rw [Json.ofValue_self]
      exact (ih item hitem).1 (honce items rfl item hitem)
    have hlist := @mapM_eq_ok_iff _ _ IsExpr expr items hitem es
    rw [exprs, exprList_eq_mapM]
    rw [Json.ofItems_eq_map, funext Json.ofValue_self, List.map_id'] at hlist
    rw [hlist]
    constructor
    · exact .mk
    · rintro ⟨heach⟩
      exact heach
  | object members ih =>
    refine ⟨fun honce e => ?_, fun _ es => ⟨nofun, nofun⟩⟩
    have hshows : Shape.node.Shows (.object members) _ := .object members
    have hvalues : ∀ name content,
        Shape.node.Knows (fun name => member? name members) name content →
        Json.valuesOf name members = (member? name members).toList :=
      fun name content hknown => (honce .node members .refl name content hknown).valuesOf_eq
    have hregion : ∀ region, regionField plain (.named members) = .done region ↔
        Nullable IsRegion (member? "region" members) region := by
      intro region
      apply regionField_eq_done_iff (fun _ => rfl)
      · change Json.valuesOf "region" members = _
        rw [funext Json.ofValue_self, Option.map_id',
          hvalues "region" (.one .region) (.field (by decide))]
      · exact fun x hx => honce.one hshows (.field (by decide)) hx
    rw [expr, isExpr_object_iff]
    simp only [bind_eq_ok_iff, Reading.toExcept_eq_ok_iff, hregion]
    apply exists_congr
    intro region
    apply and_congr_right
    intro _
    refine @node_eq_ok_iff members (fun name => member? name members) region ?_ ?_ ?_ e
    · exact fun name content hknown _ => hvalues name content hknown
    · intro name x hknown hx
      exact (ih name x (Json.mem_of_member? hx)).1 (honce.one hshows hknown hx)
    · intro name x hknown hx
      apply (ih name x (Json.mem_of_member? hx)).2
      rintro items rfl item hitem
      exact honce.many hshows hknown hx hitem
  | _ => exact ⟨fun _ e => ⟨nofun, nofun⟩, fun _ es => ⟨nofun, nofun⟩⟩

theorem expr_eq_ok_iff {v : Value} (honce : Throughout Once .node v) {e : Expr} :
    expr v = .ok e ↔ IsExpr v e :=
  (expr_and_exprs_eq_ok_iff v).1 honce e

end Backtrack.Format
