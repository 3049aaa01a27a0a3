import Backtrack.Proofs.References.Resolution
import Backtrack.Proofs.Sessions.Repetition
import Backtrack.Proofs.Strings.Escaping

/-!
# Constants are shared exactly where they are equal

A constant is known by its initializer alone. Counts end at a comma or a bracket and strings at
their quote, so an initializer can be taken apart again, and constants that differ in anything
have different ones.
-/

namespace Backtrack

set_option autoImplicit false

namespace Constants

theorem quoted_inj {bytes other : Bytes} {left right : List Char}
    (h : (quoted bytes).toList ++ left = (quoted other).toList ++ right) :
    bytes = other ∧ left = right := by
  have htoList : ∀ (inside : Bytes) (rest : List Char), (quoted inside).toList ++ rest =
      '"' :: ((CString.escape inside).toList ++ '"' :: rest) := by
    intro inside rest
    simp only [quoted, String.toList_append, List.append_assoc]
    rfl
  rw [htoList, htoList] at h
  exact CString.escape_quote_inj (List.cons.inj h).2

theorem bounds_injective : Function.Injective bounds := by
  intro ranges
  induction ranges with
  | nil =>
    intro other h
    cases other with
    | nil => rfl
    | cons first rest => cases h
  | cons range ranges ih =>
    intro other h
    cases other with
    | nil => cases h
    | cons first rest =>
      obtain ⟨hlow, h⟩ := List.cons.inj h
      obtain ⟨hhigh, h⟩ := List.cons.inj h
      rw [Prod.ext hlow hhigh, ih h]

theorem toList_literal (bytes : Bytes) :
    (literal bytes).toList = "\x7b ".toList ++
      ((toString bytes.length).toList ++ ',' :: ' ' :: ((quoted bytes).toList ++ " \x7d".toList)) := by
  simp only [literal, braced, String.toList_append, List.append_assoc]
  rfl

theorem literal_injective : Function.Injective literal := by
  intro bytes other h
  have htext := congrArg String.toList h
  rw [toList_literal, toList_literal] at htext
  obtain ⟨-, hrest⟩ := decimal_inj rfl (List.append_cancel_left htext)
  exact (quoted_inj (List.cons.inj hrest).2).1

theorem toList_charClass (singles : Bytes) (ranges : List (UInt8 × UInt8)) :
    (charClass singles ranges).toList = "\x7b MAKE_LENGTHS(".toList ++
      ((toString singles.length).toList ++ ',' :: ' ' ::
        ((toString ranges.length).toList ++ ')' :: ',' :: ' ' ::
          ((quoted singles).toList ++ ',' :: ' ' ::
            ((quoted (bounds ranges)).toList ++ " \x7d".toList)))) := by
  simp only [charClass, braced, String.toList_append, List.append_assoc]
  rfl

theorem charClass_inj {singles singles' : Bytes} {ranges ranges' : List (UInt8 × UInt8)}
    (h : charClass singles ranges = charClass singles' ranges') :
    singles = singles' ∧ ranges = ranges' := by
  have htext := congrArg String.toList h
  rw [toList_charClass, toList_charClass] at htext
  obtain ⟨-, hrest⟩ := decimal_inj rfl (List.append_cancel_left htext)
  obtain ⟨-, hrest⟩ := decimal_inj rfl (List.cons.inj hrest).2
  obtain ⟨hsingles, hrest⟩ := quoted_inj (List.cons.inj (List.cons.inj hrest).2).2
  obtain ⟨hbounds, -⟩ := quoted_inj (List.cons.inj (List.cons.inj hrest).2).2
  exact ⟨hsingles, bounds_injective hbounds⟩

theorem toList_expected (kind : ExpectedKind) (description : Bytes) :
    (Constants.expected kind description).toList = "\x7b MAKE_TYPEANDLEN(".toList ++
      (kind.tag.toList ++ ',' :: ' ' :: ((toString description.length).toList ++ ')' :: ',' :: ' ' ::
        ((quoted description).toList ++ " \x7d".toList))) := by
  simp only [Constants.expected, braced, String.toList_append, List.append_assoc]
  rfl

/-- Tags differ in the letter after what they all begin with, whatever follows them. -/
theorem tag_inj {kind kind' : ExpectedKind} {left right : List Char}
    (h : kind.tag.toList ++ left = kind'.tag.toList ++ right) : kind = kind' := by
  have hlong : ∀ k : ExpectedKind, 11 ≤ k.tag.toList.length := by
    intro k
    cases k <;> decide
  have htake := congrArg (List.take 11) h
  rw [List.take_append_of_le_length (hlong kind), List.take_append_of_le_length (hlong kind')]
    at htake
  revert htake
  cases kind <;> cases kind' <;> decide

theorem expected_inj {kind kind' : ExpectedKind} {description description' : Bytes}
    (h : Constants.expected kind description = Constants.expected kind' description') :
    kind = kind' ∧ description = description' := by
  have htext := congrArg String.toList h
  rw [toList_expected, toList_expected] at htext
  have hrest := List.append_cancel_left htext
  obtain rfl := tag_inj hrest
  have hcomma := (List.cons.inj (List.append_cancel_left hrest)).2
  obtain ⟨-, hquoted⟩ := decimal_inj rfl (List.cons.inj hcomma).2
  exact ⟨rfl, (quoted_inj (List.cons.inj (List.cons.inj hquoted).2).2).1⟩

end Constants

/-- What a constant is made of. -/
inductive Constant where
  | literal (bytes : Bytes)
  | charClass (singles : Bytes) (ranges : List (UInt8 × UInt8))
  | expected (kind : ExpectedKind) (description : Bytes)

def Constant.initializer : Constant → String
  | .literal bytes => Constants.literal bytes
  | .charClass singles ranges => Constants.charClass singles ranges
  | .expected kind description => Constants.expected kind description

/-- The letter that the names of constants like this one begin with. -/
def Constant.letter : Constant → Char
  | .literal _ => 'l'
  | .charClass .. => 'c'
  | .expected .. => 'e'

def ConstantPool.tableOf (pool : ConstantPool) : Constant → ConstantTable
  | .literal _ => pool.literals
  | .charClass .. => pool.classes
  | .expected .. => pool.expected

/-- Constants with the same letter are in one table, where the initializer tells them apart. -/
theorem Constant.of_letter_eq {constant other : Constant} (h : constant.letter = other.letter) :
    (∀ pool : ConstantPool, pool.tableOf constant = pool.tableOf other) ∧
      (constant.initializer = other.initializer → constant = other) := by
  cases constant with
  | literal bytes =>
    cases other with
    | literal bytes' =>
      refine ⟨fun _ => rfl, ?_⟩
      intro heq
      rw [Constants.literal_injective heq]
    | charClass => cases h
    | expected => cases h
  | charClass singles ranges =>
    cases other with
    | literal => cases h
    | charClass singles' ranges' =>
      refine ⟨fun _ => rfl, ?_⟩
      intro heq
      obtain ⟨rfl, rfl⟩ := Constants.charClass_inj heq
      rfl
    | expected => cases h
  | expected kind description =>
    cases other with
    | literal => cases h
    | charClass => cases h
    | expected kind' description' =>
      refine ⟨fun _ => rfl, ?_⟩
      intro heq
      obtain ⟨rfl, rfl⟩ := Constants.expected_inj heq
      rfl

namespace ConstantPool

/-- What a pool is asked for. -/
inductive Request where
  | literal (bytes : Bytes)
  | charClass (singles : Bytes) (ranges : List (UInt8 × UInt8))
  | expected (kind : ExpectedKind) (description : String)

def Request.constant : Request → Constant
  | .literal bytes => .literal bytes
  | .charClass singles ranges => .charClass singles ranges
  | .expected kind description => .expected kind (Bytes.ofString description)

/-- The name of the constant that is asked for, and the pool that has it. -/
def serve (pool : ConstantPool) : Request → String × ConstantPool
  | .literal bytes =>
    let (index, pool) := pool.addLiteral bytes
    (pool.literals.name index, pool)
  | .charClass singles ranges =>
    let (index, pool) := pool.addClass singles ranges
    (pool.classes.name index, pool)
  | .expected kind description =>
    let (index, pool) := pool.addExpected kind description
    (pool.expected.name index, pool)

/-- The names that requests get one after the other. -/
def names (pool : ConstantPool) : List Request → List String
  | [] => []
  | first :: rest => (pool.serve first).1 :: (pool.serve first).2.names rest

def serveAll (pool : ConstantPool) (requests : List Request) : ConstantPool :=
  requests.foldl (fun pool request => (pool.serve request).2) pool

def nameOf (pool : ConstantPool) (constant : Constant) : String :=
  (pool.tableOf constant).name ((pool.tableOf constant).values.toList.idxOf constant.initializer)

def Has (pool : ConstantPool) (constant : Constant) : Prop :=
  constant.initializer ∈ (pool.tableOf constant).values.toList

/-- Every table has the stem it had, and goes on from what it was. -/
def Continues (small large : ConstantPool) : Prop :=
  ∀ constant, (large.tableOf constant).stem = (small.tableOf constant).stem ∧
    (small.tableOf constant).values.toList <+: (large.tableOf constant).values.toList

theorem Continues.refl (pool : ConstantPool) : pool.Continues pool :=
  fun _ => ⟨rfl, List.prefix_rfl⟩

theorem Continues.trans {a b c : ConstantPool} (hab : a.Continues b) (hbc : b.Continues c) :
    a.Continues c := by
  intro constant
  obtain ⟨hstem, hvalues⟩ := hab constant
  obtain ⟨hstem', hvalues'⟩ := hbc constant
  exact ⟨hstem'.trans hstem, hvalues.trans hvalues'⟩

theorem continues_serve (pool : ConstantPool) (request : Request) :
    pool.Continues (pool.serve request).2 := by
  intro constant
  cases request with
  | literal bytes =>
    cases constant with
    | literal => exact ⟨rfl, Interner.toList_isPrefix_add _ _⟩
    | charClass => exact ⟨rfl, List.prefix_rfl⟩
    | expected => exact ⟨rfl, List.prefix_rfl⟩
  | charClass singles ranges =>
    cases constant with
    | literal => exact ⟨rfl, List.prefix_rfl⟩
    | charClass => exact ⟨rfl, Interner.toList_isPrefix_add _ _⟩
    | expected => exact ⟨rfl, List.prefix_rfl⟩
  | expected kind description =>
    cases constant with
    | literal => exact ⟨rfl, List.prefix_rfl⟩
    | charClass => exact ⟨rfl, List.prefix_rfl⟩
    | expected => exact ⟨rfl, Interner.toList_isPrefix_add _ _⟩

theorem continues_serveAll (pool : ConstantPool) (requests : List Request) :
    pool.Continues (pool.serveAll requests) := by
  induction requests generalizing pool with
  | nil => exact .refl pool
  | cons first rest ih => exact (pool.continues_serve first).trans (ih _)

theorem name_serve (pool : ConstantPool) (request : Request) :
    (pool.serve request).1 = (pool.serve request).2.nameOf request.constant := by
  cases request <;> rfl

theorem has_serve (pool : ConstantPool) (request : Request) :
    (pool.serve request).2.Has request.constant := by
  cases request <;> exact Interner.mem_add _ _

theorem Has.continues {small large : ConstantPool} {constant : Constant} (h : small.Has constant)
    (hc : small.Continues large) : large.Has constant := (hc constant).2.subset h

/-- A name that is given stays good. -/
theorem Has.nameOf_eq {small large : ConstantPool} {constant : Constant} (h : small.Has constant)
    (hc : small.Continues large) : small.nameOf constant = large.nameOf constant := by
  obtain ⟨hstem, hvalues⟩ := hc constant
  unfold nameOf ConstantTable.name
  rw [hstem, Interner.idxOf_of_isPrefix hvalues h]

theorem has_serveAll (pool : ConstantPool) {requests : List Request} {request : Request}
    (h : request ∈ requests) : (pool.serveAll requests).Has request.constant := by
  induction requests generalizing pool with
  | nil => cases h
  | cons first rest ih =>
    rcases List.mem_cons.mp h with rfl | h
    · exact (pool.has_serve request).continues (continues_serveAll _ rest)
    · exact ih _ h

theorem names_eq (pool : ConstantPool) (requests : List Request) :
    pool.names requests =
      requests.map fun request => (pool.serveAll requests).nameOf request.constant := by
  induction requests generalizing pool with
  | nil => rfl
  | cons first rest ih =>
    have hfirst : (pool.serve first).1 = (pool.serveAll (first :: rest)).nameOf first.constant := by
      rw [name_serve]
      exact (pool.has_serve first).nameOf_eq (continues_serveAll _ rest)
    rw [names, List.map_cons, hfirst, ih]
    rfl

theorem toList_nameOf {pool : ConstantPool} (hpool : ({} : ConstantPool).Continues pool)
    (constant : Constant) :
    (pool.nameOf constant).toList = constant.letter :: (toString
      ((pool.tableOf constant).values.toList.idxOf constant.initializer)).toList := by
  have hstem : (({} : ConstantPool).tableOf constant).stem.toList = [constant.letter] := by
    cases constant with
    | literal => exact (rfl : "l".toList = ['l'])
    | charClass => exact (rfl : "c".toList = ['c'])
    | expected => exact (rfl : "e".toList = ['e'])
  unfold nameOf ConstantTable.name
  rw [(hpool constant).1, String.toList_append, hstem]
  rfl

/-- The letter tells the table and the number tells the entry. -/
theorem nameOf_inj {pool : ConstantPool} (hpool : ({} : ConstantPool).Continues pool)
    {constant other : Constant} (hhas : pool.Has constant)
    (h : pool.nameOf constant = pool.nameOf other) : constant = other := by
  have htext := congrArg String.toList h
  rw [toList_nameOf hpool, toList_nameOf hpool] at htext
  obtain ⟨hletter, hdigits⟩ := List.cons.inj htext
  obtain ⟨htable, hinitializer⟩ := Constant.of_letter_eq hletter
  obtain ⟨hnumber, -⟩ := decimal_inj (show ' '.isDigit = false from rfl)
    (congrArg (· ++ [' ']) hdigits)
  rw [← htable pool] at hnumber
  exact hinitializer ((List.idxOf_inj hhas).mp hnumber)

/-- Two requests get one name exactly when they ask for one constant. -/
theorem names_getElem?_eq_iff (requests : List Request) (i j : Nat) :
    (({} : ConstantPool).names requests)[i]? = (({} : ConstantPool).names requests)[j]? ↔
      requests[i]?.map Request.constant = requests[j]?.map Request.constant := by
  rw [names_eq, List.getElem?_map, List.getElem?_map]
  constructor
  · intro h
    cases hi : requests[i]? with
    | none =>
      rw [hi] at h
      rw [Option.map_eq_none_iff.mp h.symm]
    | some request =>
      rw [hi, Option.map_some] at h
      obtain ⟨other, hj, hname⟩ := Option.map_eq_some_iff.mp h.symm
      have hhas := has_serveAll {} (List.mem_of_getElem? hi)
      rw [hj, Option.map_some, Option.map_some,
        nameOf_inj (continues_serveAll {} requests) hhas hname.symm]
  · intro h
    have hmap := congrArg (Option.map (serveAll {} requests).nameOf) h
    rw [Option.map_map, Option.map_map] at hmap
    exact hmap

end ConstantPool

namespace Bytes

theorem ofString_of_narrow {s : String} (h : s.toList.all isNarrow = true) :
    ofString s = s.toList.map fun c => c.toNat.toUInt8 := by
  unfold ofString
  rw [List.flatMap_congr fun c hc => ofChar_narrow (List.all_eq_true.mp h c hc)]
  exact List.map_eq_flatMap.symm

/-- Where every character is a byte of its own, the bytes tell the text. -/
theorem ofString_inj_of_narrow {s t : String} (hs : s.toList.all isNarrow = true)
    (ht : t.toList.all isNarrow = true) (h : ofString s = ofString t) : s = t := by
  have hback : ∀ {u : String}, u.toList.all isNarrow = true →
      (ofString u).map (fun b => Char.ofNat b.toNat) = u.toList := by
    intro u hu
    rw [ofString_of_narrow hu, List.map_map]
    nth_rewrite 2 [← List.map_id u.toList]
    apply List.map_congr_left
    intro c hc
    have hle : c.toNat ≤ 0xFF := of_decide_eq_true (List.all_eq_true.mp hu c hc)
    have hbyte : c.toNat.toUInt8.toNat = c.toNat := Nat.mod_eq_of_lt (Nat.lt_succ_of_le hle)
    change Char.ofNat c.toNat.toUInt8.toNat = c
    rw [hbyte, Char.ofNat_toNat]
  apply String.toList_injective
  rw [← hback hs, h, hback ht]

end Bytes

namespace Expr

theorem toList_literalDescription (value : String) (ignoreCase : Bool) :
    (literalDescription value ignoreCase).toList =
      '"' :: ((CString.escape (Bytes.ofString value)).toList ++
        '"' :: if ignoreCase then ['i'] else []) := by
  have hquote : "\"".toList = ['"'] := rfl
  have hmark : (if ignoreCase then "i" else "").toList = if ignoreCase then ['i'] else [] := by
    cases ignoreCase <;> rfl
  simp only [literalDescription, CString.escapeString, String.toList_append, hquote, hmark,
    List.append_assoc, List.cons_append, List.nil_append]

theorem narrow_literalDescription (value : String) (ignoreCase : Bool) :
    (literalDescription value ignoreCase).toList.all Bytes.isNarrow = true := by
  rw [toList_literalDescription, CString.escape_toList, List.all_cons, List.all_append,
    List.all_cons]
  have hinside : (CString.escapeAfter 0 (Bytes.ofString value)).all Bytes.isNarrow = true := by
    apply List.all_eq_true.mpr
    intro c hc
    obtain ⟨-, hle⟩ := CString.printable_escapeAfter 0 _ c hc
    exact decide_eq_true (by omega)
  rw [hinside]
  cases ignoreCase <;> decide

/-- A literal's description is escaped once here and once more in its constant. Both can be
undone. -/
theorem ofString_literalDescription_inj {value value' : String} {ignoreCase ignoreCase' : Bool}
    (h : Bytes.ofString (literalDescription value ignoreCase) =
      Bytes.ofString (literalDescription value' ignoreCase')) :
    Bytes.ofString value = Bytes.ofString value' ∧ ignoreCase = ignoreCase' := by
  have htext := congrArg String.toList (Bytes.ofString_inj_of_narrow
    (narrow_literalDescription value ignoreCase) (narrow_literalDescription value' ignoreCase') h)
  rw [toList_literalDescription, toList_literalDescription] at htext
  obtain ⟨hvalue, hmark⟩ := CString.escape_quote_inj (List.cons.inj htext).2
  refine ⟨hvalue, ?_⟩
  revert hmark
  cases ignoreCase <;> cases ignoreCase' <;> decide

end Expr

namespace Session

variable {policy : Policy} {history : List Request} {rule : Rule} {function : RuleFunction}

/-- In the session that serves these requests the rule comes out as the function. -/
def Compiles (policy : Policy) (history : List Request) (rule : Rule) (function : RuleFunction) :
    Prop :=
  ∃ front back after, history = front ++ .rule rule :: back ∧
    (serveAll policy {} front).compileRule policy rule = (.ok function, after)

/-- The numbers in the function are those of the tables at the end of the session. -/
theorem Compiles.references (h : Compiles policy history rule function) :
    function.body.references =
        (rule.expression.sites 0 {}).map (Site.reference (serveAll policy {} history)) ∧
      ∀ reference ∈ function.body.references, reference.Within (serveAll policy {} history) := by
  obtain ⟨front, back, after, rfl, hrule⟩ := h
  have hserved : serveAll policy {} (front ++ .rule rule :: back) = serveAll policy after back := by
    unfold serveAll at hrule ⊢
    rw [List.foldl_append, List.foldl_cons, serve, hrule]
  have hextends : after.Extends (serveAll policy {} (front ++ .rule rule :: back)) := by
    rw [hserved]
    exact (continues_serveAll after back).toExtends
  obtain ⟨hbody, hwithin⟩ := codeOf_compileRule hrule hextends
  refine ⟨?_, fun reference hr => Code.within_of_mem hwithin hr⟩
  rw [hbody]
  exact (rule.expression.refers _).plain rfl 0

/-- The reference that a site has in the function. -/
theorem Compiles.site (h : Compiles policy history rule function) {i : Nat} {site : Site}
    (hsite : (rule.expression.sites 0 {})[i]? = some site) :
    function.body.references[i]? = some (site.reference (serveAll policy {} history)) ∧
      (site.reference (serveAll policy {} history)).Within (serveAll policy {} history) := by
  obtain ⟨hreferences, hwithin⟩ := h.references
  have hreference : function.body.references[i]? =
      some (site.reference (serveAll policy {} history)) := by
    rw [hreferences, List.getElem?_map, hsite]
    rfl
  exact ⟨hreference, hwithin _ (List.mem_of_getElem? hreference)⟩

theorem Compiles.literal (h : Compiles policy history rule function) {i : Nat} {value : String}
    {ignoreCase : Bool}
    (hsite : (rule.expression.sites 0 {})[i]? = some (.literal value ignoreCase)) :
    function.body.references[i]? =
        some ((Site.literal value ignoreCase).reference (serveAll policy {} history)) ∧
      Constants.literal (Bytes.ofString value) ∈ (serveAll policy {} history).literals ∧
      Constants.expected .literal (Bytes.ofString (Expr.literalDescription value ignoreCase)) ∈
        (serveAll policy {} history).descriptions := by
  obtain ⟨hreference, hliteral, hexpected⟩ := h.site hsite
  exact ⟨hreference, List.idxOf_lt_length_iff.mp hliteral, List.idxOf_lt_length_iff.mp hexpected⟩

end Session

/-- A pool gives one name to two requests exactly when they are for one constant. So two literals
of a session have one constant exactly when their bytes are equal, and one description exactly when
they also agree in ignoring case. Without wide characters the bytes are equal only for equal
values. -/
theorem constants_shared_iff_equal :
    (∀ (requests : List ConstantPool.Request) (i j : Nat),
      (({} : ConstantPool).names requests)[i]? = (({} : ConstantPool).names requests)[j]? ↔
        requests[i]?.map ConstantPool.Request.constant =
          requests[j]?.map ConstantPool.Request.constant) ∧
    ∀ policy history rule rule' function function',
      Session.Compiles policy history rule function →
      Session.Compiles policy history rule' function' →
      ∀ (i j : Nat) (value value' : String) (ignoreCase ignoreCase' : Bool),
        (rule.expression.sites 0 {})[i]? = some (.literal value ignoreCase) →
        (rule'.expression.sites 0 {})[j]? = some (.literal value' ignoreCase') →
        ∃ l e l' e' : Nat,
          function.body.references[i]?.map Reference.text =
            some ("parseLiteral(ctx, &l" ++ toString l ++ ", &e" ++ toString e ++ ")") ∧
          function'.body.references[j]?.map Reference.text =
            some ("parseLiteral(ctx, &l" ++ toString l' ++ ", &e" ++ toString e' ++ ")") ∧
          (l = l' ↔ Bytes.ofString value = Bytes.ofString value') ∧
          (e = e' ↔ Bytes.ofString value = Bytes.ofString value' ∧ ignoreCase = ignoreCase') ∧
          (value.toList.all Bytes.isNarrow = true → value'.toList.all Bytes.isNarrow = true →
            (l = l' ↔ value = value') ∧ (e = e' ↔ value = value' ∧ ignoreCase = ignoreCase')) := by
  refine ⟨ConstantPool.names_getElem?_eq_iff, ?_⟩
  intro policy history rule rule' function function' h h' i j value value' ignoreCase ignoreCase'
    hsite hsite'
  obtain ⟨hreference, hliteral, hexpected⟩ := h.literal hsite
  obtain ⟨hreference', -, -⟩ := h'.literal hsite'
  generalize Session.serveAll policy {} history = tables at *
  have hl : tables.literalNumber (Bytes.ofString value) =
      tables.literalNumber (Bytes.ofString value') ↔
        Bytes.ofString value = Bytes.ofString value' := by
    unfold Session.literalNumber
    rw [List.idxOf_inj hliteral]
    exact Constants.literal_injective.eq_iff
  have he : tables.descriptionNumber .literal (Expr.literalDescription value ignoreCase) =
      tables.descriptionNumber .literal (Expr.literalDescription value' ignoreCase') ↔
        Bytes.ofString value = Bytes.ofString value' ∧ ignoreCase = ignoreCase' := by
    unfold Session.descriptionNumber
    rw [List.idxOf_inj hexpected]
    constructor
    · intro heq
      exact Expr.ofString_literalDescription_inj (Constants.expected_inj heq).2
    · rintro ⟨hvalue, rfl⟩
      unfold Expr.literalDescription CString.escapeString
      rw [hvalue]
  refine ⟨_, _, _, _, ?_, ?_, hl, he, ?_⟩
  · rw [hreference]
    exact congrArg some (Operand.text_literal _ _)
  · rw [hreference']
    exact congrArg some (Operand.text_literal _ _)
  · intro hnarrow hnarrow'
    have hvalue : Bytes.ofString value = Bytes.ofString value' ↔ value = value' :=
      ⟨Bytes.ofString_inj_of_narrow hnarrow hnarrow', congrArg Bytes.ofString⟩
    rw [hl, he, hvalue]
    exact ⟨Iff.rfl, Iff.rfl⟩

/-- One wide character and two narrow ones that stand for the same bytes. -/
theorem constants_shared_of_wide :
    let wide : Rule := ⟨"R", .literal none "\u0100" false, none⟩
    let narrow : Rule := ⟨"S", .literal none "\u00c4\u0080" false, none⟩
    ∃ function function' : RuleFunction, ∃ l e : Nat,
      Session.Compiles .collecting [.rule wide, .rule narrow] wide function ∧
      Session.Compiles .collecting [.rule wide, .rule narrow] narrow function' ∧
      function.body.references[0]?.map Reference.text =
        some ("parseLiteral(ctx, &l" ++ toString l ++ ", &e" ++ toString e ++ ")") ∧
      function'.body.references[0]?.map Reference.text =
        some ("parseLiteral(ctx, &l" ++ toString l ++ ", &e" ++ toString e ++ ")") := by
  intro wide narrow
  have hwide : Session.Compiles .collecting [.rule wide, .rule narrow] wide _ :=
    ⟨[], [.rule narrow], _, rfl, rfl⟩
  have hnarrow : Session.Compiles .collecting [.rule wide, .rule narrow] narrow _ :=
    ⟨[.rule wide], [], _, rfl, rfl⟩
  obtain ⟨l, e, l', e', htext, htext', hl, he, -⟩ :=
    constants_shared_iff_equal.2 _ _ _ _ _ _ hwide hnarrow 0 0 _ _ _ _ rfl rfl
  have hbytes : Bytes.ofString "\u0100" = Bytes.ofString "\u00c4\u0080" := by decide
  obtain rfl := hl.mpr hbytes
  obtain rfl := he.mpr ⟨hbytes, rfl⟩
  exact ⟨_, _, l, e, hwide, hnarrow, htext, htext'⟩

end Backtrack
