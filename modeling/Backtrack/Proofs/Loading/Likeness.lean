import Backtrack.Proofs.Loading.Documents

/-!
# Values that stand for the same

Two values stand for the same grammar when they are built alike and their objects hold like values
under every name that is known there. Which names are sure to hold like values is left open here:
it may be all of them, or those that an object does not repeat.
-/

namespace Backtrack.Format

set_option autoImplicit false

open Json (Value member?)

section

variable (R : Value → Value → Prop) (sure : List (String × Value) → String → Prop)

/-- Two values are built alike, with `R` between what they are built from. -/
inductive Alike : Value → Value → Prop where
  | same (v : Value) : Alike v v
  | array {items items' : List Value} (each : List.Forall₂ R items items') :
    Alike (.array items) (.array items')
  | object {members members' : List (String × Value)}
      (each : ∀ name, sure members name →
        Option.Rel R (member? name members) (member? name members')) :
    Alike (.object members) (.object members')

/-- Related values are built alike, down to where the building ends. -/
structure Tracks : Prop where
  refl : ∀ v, R v v
  alike : ∀ v w, R v w → Alike R sure v w

end

variable {R : Value → Value → Prop} {sure : List (String × Value) → String → Prop}

section

variable {α : Type} {P : Value → α → Prop} {x y : Option Value} (h : Option.Rel R x y)
  (hP : ∀ u v, x = some u → R u v → ∀ a, P u a ↔ P v a)
include h hP

theorem required_congr {a : α} : Required P x a ↔ Required P y a := by
  cases h with
  | none => exact iff_of_false nofun nofun
  | some huv =>
    constructor
    · rintro ⟨hvalue⟩
      exact .given ((hP _ _ rfl huv a).mp hvalue)
    · rintro ⟨hvalue⟩
      exact .given ((hP _ _ rfl huv a).mpr hvalue)

theorem defaulted_congr {default a : α} : Defaulted P default x a ↔ Defaulted P default y a := by
  cases h with
  | none =>
    constructor
    · rintro ⟨⟩
      exact .absent
    · rintro ⟨⟩
      exact .absent
  | some huv =>
    constructor
    · rintro (_ | ⟨hvalue⟩)
      exact .given ((hP _ _ rfl huv a).mp hvalue)
    · rintro (_ | ⟨hvalue⟩)
      exact .given ((hP _ _ rfl huv a).mpr hvalue)

end

theorem rel_getElem? {items items' : List Value} (h : List.Forall₂ R items items') (i : Nat) :
    Option.Rel R items[i]? items'[i]? := by
  induction h generalizing i with
  | nil => exact .none
  | cons hfirst _ ih =>
    cases i with
    | zero => exact .some hfirst
    | succ i => exact ih i

namespace Tracks

variable (hR : Tracks R sure)
include hR

theorem rel_refl (x : Option Value) : Option.Rel R x x := by
  cases x with
  | none => exact .none
  | some v => exact .some (hR.refl v)

section

variable {v w : Value} (h : R v w)
include h

theorem atom_congr (P : Value → Prop) (harray : ∀ items, ¬ P (.array items))
    (hobject : ∀ members, ¬ P (.object members)) : P v ↔ P w := by
  cases hR.alike v w h with
  | same => exact Iff.rfl
  | array each => exact iff_of_false (harray _) (harray _)
  | object each => exact iff_of_false (hobject _) (hobject _)

theorem isString_congr (s : String) : IsString v s ↔ IsString w s :=
  hR.atom_congr h (IsString · s) nofun nofun

theorem isBool_congr (b : Bool) : IsBool v b ↔ IsBool w b :=
  hR.atom_congr h (IsBool · b) nofun nofun

theorem isWord_congr (n : UInt32) : IsWord v n ↔ IsWord w n :=
  hR.atom_congr h (IsWord · n) nofun nofun

theorem isKind_congr (kind : Kind) : IsKind v kind ↔ IsKind w kind :=
  hR.atom_congr h (IsKind · kind) nofun nofun

theorem isPart_congr (part : ClassPart) : IsPart v part ↔ IsPart w part := by
  have hchar : ∀ {x y : Value}, R x y → ∀ c, IsChar x c ↔ IsChar y c :=
    fun hxy c => hR.atom_congr hxy (IsChar · c) nofun nofun
  cases hR.alike v w h with
  | same => exact Iff.rfl
  | object each => exact iff_of_false nofun nofun
  | array each =>
    constructor
    · intro hpart
      cases hpart with
      | single char => cases char
      | range first last =>
        rcases each with _ | ⟨hfirst, _ | ⟨hlast, _ | _⟩⟩
        exact .range ((hchar hfirst _).mp first) ((hchar hlast _).mp last)
    · intro hpart
      cases hpart with
      | single char => cases char
      | range first last =>
        rcases each with _ | ⟨hfirst, _ | ⟨hlast, _ | _⟩⟩
        exact .range ((hchar hfirst _).mpr first) ((hchar hlast _).mpr last)

theorem isList_congr {α : Type} {P : Value → α → Prop}
    (hP : ∀ items, v = .array items → ∀ x ∈ items, ∀ y, R x y → ∀ a, P x a ↔ P y a)
    (values : List α) : IsList P v values ↔ IsList P w values := by
  cases hR.alike v w h with
  | same => exact Iff.rfl
  | object each => exact iff_of_false nofun nofun
  | @array items items' each =>
    have heach : List.Forall₂ P items values ↔ List.Forall₂ P items' values := by
      have hitems := hP items rfl
      clear hP h
      induction each generalizing values with
      | nil => exact Iff.rfl
      | cons hfirst _ ih =>
        rw [List.forall₂_cons_left_iff, List.forall₂_cons_left_iff]
        have hhead := hitems _ List.mem_cons_self _ hfirst
        have htail := fun values => ih values fun x hx => hitems x (List.mem_cons_of_mem _ hx)
        simp only [hhead, htail]
    constructor
    · rintro ⟨hvalues⟩
      exact .mk (heach.mp hvalues)
    · rintro ⟨hvalues⟩
      exact .mk (heach.mpr hvalues)

end

theorem nullable_congr {α : Type} {P : Value → α → Prop} {x y : Option Value}
    (h : Option.Rel R x y) (hP : ∀ u v, x = some u → R u v → ∀ a, P u a ↔ P v a) {b : Option α} :
    Nullable P x b ↔ Nullable P y b := by
  cases h with
  | none =>
    constructor
    · rintro ⟨⟩
      exact .absent
    · rintro ⟨⟩
      exact .absent
  | some huv =>
    have hnull := hR.atom_congr huv (· = .null) nofun nofun
    constructor
    · intro hb
      cases hb with
      | null =>
        rw [hnull.mp rfl]
        exact .null
      | given here hvalue => exact .given (mt hnull.mpr here) ((hP _ _ rfl huv _).mp hvalue)
    · intro hb
      cases hb with
      | null =>
        rw [hnull.mpr rfl]
        exact .null
      | given here hvalue => exact .given (mt hnull.mp here) ((hP _ _ rfl huv _).mpr hvalue)

section

variable {shape : Shape} {v w : Value} (hv : Throughout sure shape v) (h : R v w)
include hv h

/-- Where two values are alike, each shows what the other shows. -/
theorem shows_congr :
    (∀ held, shape.Shows v held → ∃ shown, shape.Shows w shown ∧
      ∀ name content, shape.Knows held name content → Option.Rel R (held name) (shown name)) ∧
    (∀ shown, shape.Shows w shown → ∃ held, shape.Shows v held ∧
      ∀ name content, shape.Knows held name content → Option.Rel R (held name) (shown name)) := by
  cases hR.alike v w h with
  | same =>
    exact ⟨fun held hshows => ⟨held, hshows, fun name _ _ => hR.rel_refl (held name)⟩,
      fun held hshows => ⟨held, hshows, fun name _ _ => hR.rel_refl (held name)⟩⟩
  | @array items items' each =>
    constructor
    · intro held hshows
      cases hshows with
      | array _ listed short =>
        exact ⟨_, .array items' listed (each.length_eq ▸ short),
          fun name _ _ => rel_getElem? each _⟩
    · intro held hshows
      cases hshows with
      | array _ listed short =>
        exact ⟨_, .array items listed (each.length_eq ▸ short), fun name _ _ => rel_getElem? each _⟩
  | @object members members' each =>
    have hknown : ∀ name content, shape.Knows (fun name => member? name members) name content →
        Option.Rel R (member? name members) (member? name members') :=
      fun name content hknows => each name (hv shape members .refl name content hknows)
    constructor
    · intro held hshows
      cases hshows with
      | object => exact ⟨_, .object members', hknown⟩
    · intro held hshows
      cases hshows with
      | object => exact ⟨_, .object members, hknown⟩

theorem record_congr {Holds : (String → Option Value) → Prop}
    (hholds : ∀ held shown, shape.Shows v held →
      (∀ name content, shape.Knows held name content → Option.Rel R (held name) (shown name)) →
      (Holds held ↔ Holds shown)) :
    (∃ held, shape.Shows v held ∧ Holds held) ↔ ∃ held, shape.Shows w held ∧ Holds held := by
  obtain ⟨hforth, hback⟩ := hR.shows_congr hv h
  constructor
  · rintro ⟨held, hshows, hheld⟩
    obtain ⟨shown, hshows', hrel⟩ := hforth held hshows
    exact ⟨shown, hshows', (hholds held shown hshows hrel).mp hheld⟩
  · rintro ⟨shown, hshows', hheld⟩
    obtain ⟨held, hshows, hrel⟩ := hback shown hshows'
    exact ⟨held, hshows, (hholds held shown hshows hrel).mpr hheld⟩

end

theorem isPosition_congr {v w : Value} (hv : Throughout sure .position v) (h : R v w)
    (p : Position) : IsPosition v p ↔ IsPosition w p := by
  apply hR.record_congr hv h
  intro held shown hshows hrel
  have hword : ∀ name, (name, .plain) ∈ Shape.position.fields → ∀ n,
      Required IsWord (held name) n ↔ Required IsWord (shown name) n :=
    fun name hname n => required_congr (hrel name .plain (.field hname)) fun _ _ _ huv =>
      hR.isWord_congr huv
  constructor
  · rintro ⟨hoffset, hline, hcolumn⟩
    exact ⟨(hword _ (by decide) _).mp hoffset, (hword _ (by decide) _).mp hline,
      (hword _ (by decide) _).mp hcolumn⟩
  · rintro ⟨hoffset, hline, hcolumn⟩
    exact ⟨(hword _ (by decide) _).mpr hoffset, (hword _ (by decide) _).mpr hline,
      (hword _ (by decide) _).mpr hcolumn⟩

theorem isRegion_congr {v w : Value} (hv : Throughout sure .region v) (h : R v w) (r : Region) :
    IsRegion v r ↔ IsRegion w r := by
  apply hR.record_congr hv h
  intro held shown hshows hrel
  have hposition : ∀ name, (name, .one .position) ∈ Shape.region.fields → ∀ p,
      Required IsPosition (held name) p ↔ Required IsPosition (shown name) p := by
    intro name hname p
    apply required_congr (hrel name _ (.field hname))
    intro x y hx hxy
    exact hR.isPosition_congr (hv.one hshows (.field hname) hx) hxy
  constructor
  · rintro ⟨hstart, hstop⟩
    exact ⟨(hposition _ (by decide) _).mp hstart, (hposition _ (by decide) _).mp hstop⟩
  · rintro ⟨hstart, hstop⟩
    exact ⟨(hposition _ (by decide) _).mpr hstart, (hposition _ (by decide) _).mpr hstop⟩

section

variable {held shown : String → Option Value}

theorem required_string_congr {name : String} (h : Option.Rel R (held name) (shown name))
    (s : String) : Required IsString (held name) s ↔ Required IsString (shown name) s :=
  required_congr h fun _ _ _ huv => hR.isString_congr huv

theorem nullable_string_congr {name : String} (h : Option.Rel R (held name) (shown name))
    (b : Option String) : Nullable IsString (held name) b ↔ Nullable IsString (shown name) b :=
  hR.nullable_congr h fun _ _ _ huv => hR.isString_congr huv

theorem defaulted_bool_congr {name : String} (h : Option.Rel R (held name) (shown name))
    (b : Bool) :
    Defaulted IsBool false (held name) b ↔ Defaulted IsBool false (shown name) b :=
  defaulted_congr h fun _ _ _ huv => hR.isBool_congr huv

theorem holdsCode_congr (hbody : Option.Rel R (held "code") (shown "code"))
    (hspace : Option.Rel R (held "namespace") (shown "namespace")) (code : UserCode) :
    HoldsCode held code ↔ HoldsCode shown code := by
  constructor
  · rintro ⟨h, given, hgiven, heq⟩
    exact ⟨(hR.required_string_congr hbody _).mp h, given,
      (hR.nullable_string_congr hspace _).mp hgiven, heq⟩
  · rintro ⟨h, given, hgiven, heq⟩
    exact ⟨(hR.required_string_congr hbody _).mpr h, given,
      (hR.nullable_string_congr hspace _).mpr hgiven, heq⟩

theorem holdsClass_congr
    (hrel : ∀ name, (name, .plain) ∈ kindFields .charClass → Option.Rel R (held name) (shown name))
    (cls : CharClass) : HoldsClass held cls ↔ HoldsClass shown cls := by
  have hparts : ∀ parts,
      Required (IsList IsPart) (held "parts") parts ↔
        Required (IsList IsPart) (shown "parts") parts :=
    fun parts => required_congr (hrel "parts" (by decide)) fun _ _ _ huv =>
      hR.isList_congr huv fun _ _ _ _ _ hxy => hR.isPart_congr hxy
  have hbool := fun name hname => @defaulted_bool_congr R sure hR held shown name (hrel name hname)
  have htext := hR.nullable_string_congr (hrel "rawText" (by decide))
  constructor
  · rintro ⟨h, hinverted, hcase, given, hgiven, heq⟩
    exact ⟨(hparts _).mp h, (hbool _ (by decide) _).mp hinverted, (hbool _ (by decide) _).mp hcase,
      given, (htext _).mp hgiven, heq⟩
  · rintro ⟨h, hinverted, hcase, given, hgiven, heq⟩
    exact ⟨(hparts _).mpr h, (hbool _ (by decide) _).mpr hinverted,
      (hbool _ (by decide) _).mpr hcase, given, (htext _).mpr hgiven, heq⟩

theorem holdsNode_congr {kind : Kind} {region : Option Region} {e : Expr}
    (hrel : ∀ name content, (name, content) ∈ kindFields kind →
      Option.Rel R (held name) (shown name))
    (hone : ∀ name x y, (name, .one .node) ∈ kindFields kind → held name = some x → R x y →
      ∀ e, IsExpr x e ↔ IsExpr y e)
    (hmany : ∀ name x y, (name, .many .node) ∈ kindFields kind → held name = some x → R x y →
      ∀ es, IsList IsExpr x es ↔ IsList IsExpr y es) :
    HoldsNode IsExpr kind held region e ↔ HoldsNode IsExpr kind shown region e := by
  have hstring := fun name (hname : (name, .plain) ∈ kindFields kind) =>
    hR.required_string_congr (hrel name .plain hname)
  have hinner := fun (hname : ("expression", .one .node) ∈ kindFields kind) e =>
    @required_congr R _ IsExpr _ _ (hrel "expression" _ hname)
      (fun x y hx => hone "expression" x y hname hx) e
  have hexprs := fun name (hname : (name, .many .node) ∈ kindFields kind) es =>
    @required_congr R _ (IsList IsExpr) _ _ (hrel name _ hname)
      (fun x y hx => hmany name x y hname hx) es
  have hcode := fun (hbody : ("code", .plain) ∈ kindFields kind)
      (hspace : ("namespace", .plain) ∈ kindFields kind) =>
    hR.holdsCode_congr (hrel "code" .plain hbody) (hrel "namespace" .plain hspace)
  cases kind with
  | choice => simp [holdsNode_iff, hexprs "alternatives" (by decide)]
  | sequence => simp [holdsNode_iff, hexprs "elements" (by decide)]
  | named => simp [holdsNode_iff, hstring "name" (by decide), hinner (by decide)]
  | labeled => simp [holdsNode_iff, hstring "label" (by decide), hinner (by decide)]
  | text | optional | zeroOrMore | oneOrMore | simpleAnd | simpleNot =>
    simp [holdsNode_iff, hinner (by decide)]
  | range =>
    have hnumber := fun name (hname : (name, .plain) ∈ kindFields .range) b =>
      @nullable_congr R sure hR _ IsWord _ _ (hrel name .plain hname)
        (fun _ _ _ huv => hR.isWord_congr huv) b
    simp [holdsNode_iff, hinner (by decide), hnumber "min" (by decide), hnumber "max" (by decide)]
  | semanticAnd | semanticNot => simp [holdsNode_iff, hcode (by decide) (by decide)]
  | action => simp [holdsNode_iff, hinner (by decide), hcode (by decide) (by decide)]
  | ruleRef => simp [holdsNode_iff, hstring "name" (by decide)]
  | literal =>
    simp [holdsNode_iff, hstring "value" (by decide),
      hR.defaulted_bool_congr (hrel "ignoreCase" .plain (by decide))]
  | charClass => simp [holdsNode_iff, hR.holdsClass_congr fun name hname => hrel name .plain hname]
  | any => simp [holdsNode_iff]

end

theorem isExpr_congr {v : Value} :
    ∀ {w}, Throughout sure .node v → R v w → ∀ e, IsExpr v e ↔ IsExpr w e := by
  -- The nodes of a list stand two levels below the node that lists them.
  suffices hboth : (∀ w, Throughout sure .node v → R v w → ∀ e, IsExpr v e ↔ IsExpr w e) ∧
      (∀ w, (∀ items, v = .array items → ∀ item ∈ items, Throughout sure .node item) → R v w →
        ∀ es, IsList IsExpr v es ↔ IsList IsExpr w es) from
    fun {w} => hboth.1 w
  induction v using Json.induction with
  | object members ih =>
    refine ⟨fun w hv h e => ?_, fun w _ h es => hR.isList_congr h nofun es⟩
    cases hR.alike _ w h with
    | same => exact Iff.rfl
    | @object _ members' each =>
      have hshows : Shape.node.Shows (.object members) _ := .object members
      have hrel : ∀ name content,
          Shape.node.Knows (fun name => member? name members) name content →
          Option.Rel R (member? name members) (member? name members') :=
        fun name content hknown => each name (hv .node members .refl name content hknown)
      have hregion : ∀ region, Nullable IsRegion (member? "region" members) region ↔
          Nullable IsRegion (member? "region" members') region := by
        intro region
        apply hR.nullable_congr (hrel "region" (.one .region) (.field (by decide)))
        intro x y hx hxy
        exact hR.isRegion_congr (hv.one hshows (.field (by decide)) hx) hxy
      have htag : ∀ kind, Required IsKind (member? "type" members) kind ↔
          Required IsKind (member? "type" members') kind :=
        fun kind => required_congr (hrel "type" .plain (.field (by decide))) fun _ _ _ huv =>
          hR.isKind_congr huv
      rw [isExpr_object_iff, isExpr_object_iff]
      simp only [hregion, ← htag]
      apply exists_congr
      intro region
      apply and_congr_right
      intro _
      apply exists_congr
      intro kind
      apply and_congr_right
      intro hkind
      apply hR.holdsNode_congr
      · exact fun name content hname => hrel name content (.ofKind hkind hname)
      · intro name x y hname hx hxy
        have hinner := hv.one hshows (.ofKind hkind hname) hx
        exact (ih name x (Json.mem_of_member? hx)).1 y hinner hxy
      · intro name x y hname hx hxy
        apply (ih name x (Json.mem_of_member? hx)).2 y _ hxy
        rintro items rfl item hitem
        exact hv.many hshows (.ofKind hkind hname) hx hitem
  | array items ih =>
    constructor
    · intro w _ h e
      cases hR.alike _ w h with
      | same => exact Iff.rfl
      | array each => exact iff_of_false nofun nofun
    · intro w hv h es
      apply hR.isList_congr h
      rintro _ ⟨⟩ x hx y hxy
      exact (ih x hx).1 y (hv items rfl x hx) hxy
  | _ =>
    refine ⟨fun w _ h e => ?_, fun w _ h es => hR.isList_congr h nofun es⟩
    cases hR.alike _ w h
    exact Iff.rfl

theorem isInitializer_congr {v w : Value} (hv : Throughout sure .initializer v) (h : R v w)
    (code : UserCode) : IsInitializer v code ↔ IsInitializer w code := by
  apply hR.record_congr hv h
  intro held shown hshows hrel
  exact hR.holdsCode_congr (hrel "code" .plain (.field (by decide)))
    (hrel "namespace" .plain (.field (by decide))) code

theorem isRule_congr {v w : Value} (hv : Throughout sure .rule v) (h : R v w) (rule : Rule) :
    IsRule v rule ↔ IsRule w rule := by
  apply hR.record_congr hv h
  intro held shown hshows hrel
  have hname := hR.required_string_congr (hrel "name" .plain (.field (by decide)))
  have hexpression : ∀ e, Required IsExpr (held "expression") e ↔
      Required IsExpr (shown "expression") e := by
    intro e
    apply required_congr (hrel "expression" (.one .node) (.field (by decide)))
    intro x y hx hxy
    exact hR.isExpr_congr (hv.one hshows (.field (by decide)) hx) hxy
  have hregion : ∀ region, Nullable IsRegion (held "region") region ↔
      Nullable IsRegion (shown "region") region := by
    intro region
    apply hR.nullable_congr (hrel "region" (.one .region) (.field (by decide)))
    intro x y hx hxy
    exact hR.isRegion_congr (hv.one hshows (.field (by decide)) hx) hxy
  constructor
  · rintro ⟨h, h', h''⟩
    exact ⟨(hname _).mp h, (hexpression _).mp h', (hregion _).mp h''⟩
  · rintro ⟨h, h', h''⟩
    exact ⟨(hname _).mpr h, (hexpression _).mpr h', (hregion _).mpr h''⟩

/-- Values that are alike as far as they are read stand for the same grammar. -/
theorem isGrammar_congr {v w : Value} (hv : Throughout sure .grammar v) (h : R v w)
    (g : Grammar) : IsGrammar v g ↔ IsGrammar w g := by
  apply hR.record_congr hv h
  intro held shown hshows hrel
  have hinitializers : ∀ codes,
      Defaulted (IsList IsInitializer) [] (held "initializers") codes ↔
        Defaulted (IsList IsInitializer) [] (shown "initializers") codes := by
    intro codes
    apply defaulted_congr (hrel "initializers" (.many .initializer) (.field (by decide)))
    intro x y hx hxy
    apply hR.isList_congr hxy
    rintro items rfl item hitem other hother
    exact hR.isInitializer_congr (hv.many hshows (.field (by decide)) hx hitem) hother
  have hrules : ∀ rules, Required (IsList IsRule) (held "rules") rules ↔
      Required (IsList IsRule) (shown "rules") rules := by
    intro rules
    apply required_congr (hrel "rules" (.many .rule) (.field (by decide)))
    intro x y hx hxy
    apply hR.isList_congr hxy
    rintro items rfl item hitem other hother
    exact hR.isRule_congr (hv.many hshows (.field (by decide)) hx hitem) hother
  constructor
  · rintro ⟨h, h'⟩
    exact ⟨(hinitializers _).mp h, (hrules _).mp h'⟩
  · rintro ⟨h, h'⟩
    exact ⟨(hinitializers _).mpr h, (hrules _).mpr h'⟩

theorem knows_congr {shape : Shape} {held shown : String → Option Value}
    (h : shape = .node → Option.Rel R (held "type") (shown "type")) {name : String}
    {content : Content} : shape.Knows held name content ↔ shape.Knows shown name content := by
  have htag : shape = .node → ∀ kind,
      Required IsKind (held "type") kind ↔ Required IsKind (shown "type") kind :=
    fun hnode kind => required_congr (h hnode) fun _ _ _ huv => hR.isKind_congr huv
  constructor
  · intro hknown
    cases hknown with
    | field listed => exact .field listed
    | ofKind tag listed => exact .ofKind ((htag rfl _).mp tag) listed
  · intro hknown
    cases hknown with
    | field listed => exact .field listed
    | ofKind tag listed => exact .ofKind ((htag rfl _).mpr tag) listed

/-- What is read inside one of two like values is like something read inside the other. -/
theorem inner_back {shape inner : Shape} {v w y : Value} (hv : Throughout sure shape v) (h : R v w)
    (hinner : Inner (shape, w) (inner, y)) : ∃ x, Inner (shape, v) (inner, x) ∧ R x y := by
  have hheld : ∀ {shown : String → Option Value} {name : String} {content : Content} {z : Value},
      shape.Shows w shown → shape.Knows shown name content → shown name = some z →
      ∃ held x, shape.Shows v held ∧ shape.Knows held name content ∧ held name = some x ∧
        R x z := by
    intro shown name content z hshows hknown hz
    obtain ⟨held, hshows, hrel⟩ := (hR.shows_congr hv h).2 shown hshows
    have htype : shape = .node → Option.Rel R (held "type") (shown "type") := by
      rintro rfl
      exact hrel "type" .plain (.field (by decide))
    have hknown := (hR.knows_congr htype).mpr hknown
    have hname := hrel name content hknown
    rw [hz] at hname
    obtain ⟨x, hx, hxz⟩ : ∃ x, held name = some x ∧ R x z := by
      cases hx : held name with
      | none =>
        rw [hx] at hname
        cases hname
      | some x =>
        rw [hx] at hname
        cases hname with
        | some hxz => exact ⟨x, rfl, hxz⟩
    exact ⟨held, x, hshows, hknown, hx, hxz⟩
  cases hinner with
  | one shows known here =>
    obtain ⟨held, x, hshows, hknown, hx, hxy⟩ := hheld shows known here
    exact ⟨x, .one hshows hknown hx, hxy⟩
  | @many _ _ _ _ _ _ items shows known here item =>
    obtain ⟨held, z, hshows, hknown, hz, hzy⟩ := hheld shows known here
    cases hR.alike z _ hzy with
    | same => exact ⟨y, .many hshows hknown hz item, hR.refl y⟩
    | @array given _ each =>
      obtain ⟨x, hx, hxy⟩ : ∃ x ∈ given, R x y := by
        clear hz hzy here
        induction each with
        | nil => cases item
        | cons hfirst _ ih =>
          rcases List.mem_cons.mp item with rfl | item
          · exact ⟨_, List.mem_cons_self, hfirst⟩
          · obtain ⟨x, hx, hxy⟩ := ih item
            exact ⟨x, List.mem_cons_of_mem _ hx, hxy⟩
      exact ⟨x, .many hshows hknown hz hx, hxy⟩

/-- The names that are sure in a value are sure in a like one, if every object keeps them. -/
theorem throughout_congr
    (hkeep : ∀ members members' name, R (.object members) (.object members') →
      sure members name → sure members' name)
    {shape : Shape} {v w : Value} (hv : Throughout sure shape v) (h : R v w) :
    Throughout sure shape w := by
  have hreached : ∀ reached : Shape × Value, Relation.ReflTransGen Inner (shape, w) reached →
      ∃ x, Throughout sure reached.1 x ∧ R x reached.2 := by
    intro reached hreads
    induction hreads with
    | refl => exact ⟨v, hv, h⟩
    | tail _ hlast ih =>
      obtain ⟨x, hx, hxw⟩ := ih
      obtain ⟨y, hinner, hy⟩ := hR.inner_back hx hxw hlast
      exact ⟨y, hx.of_inner hinner, hy⟩
  intro inner members hreads name content hknown
  obtain ⟨x, hx, hxw⟩ := hreached (inner, .object members) hreads
  cases hR.alike x _ hxw with
  | same => exact hx inner members .refl name content hknown
  | @object given _ each =>
    have htype : inner = .node →
        Option.Rel R (member? "type" given) (member? "type" members) := by
      rintro rfl
      exact each "type" (hx .node given .refl "type" .plain (.field (by decide)))
    have hgiven : inner.Knows (fun name => member? name given) name content :=
      (hR.knows_congr htype).mpr hknown
    exact hkeep given members name hxw (hx inner given .refl name content hgiven)

end Tracks

end Backtrack.Format
