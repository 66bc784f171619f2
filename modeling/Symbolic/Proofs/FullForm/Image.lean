import Symbolic.Proofs.FullForm.Magnitude
import Symbolic.Proofs.Scanning.Tokens
import Symbolic.Proofs.Trees.Atom
import Symbolic.Proofs.Trees.Built

/-!
# Trees of scanned texts

Whatever a reader builds from the atoms of a text, its names are plain names and its numbers are
written as literals: names and numbers of atoms are, since they were scanned, and so are those that
rules put in.

## Key results

- `scannable_atom`: what an atom stands for
- `Built.scannable`, `Element.scannable`: trees that are built from atoms
-/

namespace Symbolic

namespace Expr

/-! ## Trees with plain names and magnitudes -/

mutual

/-- Names are plain, and numbers without their signs are scanned as they are written. -/
def Scannable : Expr → Prop
  | .symbol name _ => Name.IsPlain name.toList
  | .number n _ => IsMagnitude { n with negative := false }
  | .string .. => True
  | .node head children _ _ => head.Scannable ∧ AllScannable children

/-- All of the trees are so. -/
def AllScannable : List Expr → Prop
  | [] => True
  | e :: es => e.Scannable ∧ AllScannable es

end

/-- Trees are all scannable just if each of them is. -/
theorem allScannable_iff {es : List Expr} : AllScannable es ↔ ∀ e ∈ es, e.Scannable := by
  induction es with
  | nil => simp [AllScannable]
  | cons e es ih => simp [AllScannable, ih]

variable {table : OperatorTable} {e lhs rhs : Expr} {es : List Expr} {loc sign : Location}

/-- The children of a scannable tree are scannable. -/
theorem Scannable.children (h : e.Scannable) : ∀ child ∈ e.children, child.Scannable := by
  cases e with
  | node head children parenthesized loc => exact allScannable_iff.mp h.2
  | _ => nofun

/-- A location does not matter to what is scannable. -/
theorem Scannable.withLoc (h : e.Scannable) (loc : Location) : (e.withLoc loc).Scannable := by
  cases e <;> exact h

/-- Neither do parentheses. -/
theorem Scannable.parenthesize (h : e.Scannable) : e.parenthesize.Scannable := by
  cases e <;> exact h

/-- An integer is scannable. -/
theorem scannable_integer (n : Int) : (integer n loc).Scannable :=
  Number.isMagnitude_ofInt n

/-! ## Nodes that rules make -/

/-- A letter and more letters and digits. -/
def isWord : List Char → Bool
  | [] => false
  | c :: cs => c.isAlpha && cs.all Char.isAlphanum

/-- A word of letters is a plain name. -/
theorem isPlain_of_isWord {cs : List Char} (h : isWord cs = true) : Name.IsPlain cs := by
  cases cs with
  | nil => cases h
  | cons c cs =>
    rw [isWord, Bool.and_eq_true] at h
    exact Name.isPlain_of_ascii h.1 h.2

/-- The heads of the standard operators are plain names. -/
theorem isPlain_head {head : String} (h : head ∈ OperatorTable.standard.heads) :
    Name.IsPlain head.toList := by
  have hall : ∀ head ∈ OperatorTable.standard.heads, isWord head.toList = true := by
    decide +kernel
  exact isPlain_of_isWord (hall head h)

/-- The names that atoms and rules put in. -/
theorem isPlain_name {name : String} (h : name ∈ atomHeads ++ constantNames ++ ruleNames) :
    Name.IsPlain name.toList := by
  have hall : ∀ name ∈ atomHeads ++ constantNames ++ ruleNames, isWord name.toList = true := by
    decide +kernel
  exact isPlain_of_isWord (hall name h)

/-- A node that a rule makes of scannable trees is scannable. -/
theorem scannable_make {head : String} (hhead : Name.IsPlain head.toList)
    (hes : ∀ e ∈ es, e.Scannable) (loc : Location) : (make table head es loc).Scannable := by
  refine ⟨hhead, allScannable_iff.mpr fun e he => ?_⟩
  unfold arguments at he
  split at he
  · obtain ⟨arg, harg, he⟩ := List.mem_flatMap.mp he
    unfold contribution at he
    split at he
    · exact (hes arg harg).children e he
    · obtain rfl := List.mem_singleton.mp he
      exact hes e harg
  · exact hes e he

/-- A call of scannable trees is scannable. -/
theorem scannable_apply {head : Expr} (hhead : head.Scannable) (hes : ∀ e ∈ es, e.Scannable)
    (loc : Location) : (apply head es loc).Scannable :=
  ⟨hhead, allScannable_iff.mpr hes⟩

/-- The negative of a scannable tree is scannable. -/
theorem scannable_negate {head : String} (hhead : Name.IsPlain head.toList) (h : e.Scannable)
    (sign loc : Location) : (negate table head e sign loc).Scannable := by
  -- a sign before a number goes into it, before any other tree it makes a product
  have hmake : (make table head [integer (-1) sign, e] loc).Scannable := by
    refine scannable_make hhead (fun arg harg => ?_) loc
    simp only [List.mem_cons, List.not_mem_nil, or_false] at harg
    rcases harg with rfl | rfl
    · exact scannable_integer _
    · exact h
  unfold negate
  split
  · split
    · exact hmake
    · exact h
  · exact hmake

/-- A comparison of scannable trees is scannable. -/
theorem scannable_compare {op : String} (hop : Name.IsPlain op.toList) (hlhs : lhs.Scannable)
    (hrhs : rhs.Scannable) (sign loc : Location) :
    (compare table lhs op sign rhs loc).Scannable := by
  have hmake : (make table op [lhs, rhs] loc).Scannable :=
    scannable_make hop (by simp [hlhs, hrhs]) loc
  unfold compare
  split
  · rename_i head headLoc children lhsLoc
    have hchildren := allScannable_iff.mp hlhs.2
    have hsign : (symbol op sign).Scannable := hop
    split
    · refine ⟨hlhs.1, allScannable_iff.mpr fun e he => ?_⟩
      simp only [List.mem_append, List.mem_cons, List.not_mem_nil, or_false] at he
      rcases he with he | rfl | rfl
      · exact hchildren e he
      · exact hsign
      · exact hrhs
    · split
      · refine scannable_make (isPlain_of_isWord (by decide)) (fun e he => ?_) loc
        simp only [List.mem_append, List.mem_cons, List.not_mem_nil, or_false] at he
        rcases he with he | rfl | rfl
        · -- between the operands stands the head of the comparison so far
          rcases mem_intersperse he with he | rfl
          · exact hchildren e he
          · exact hlhs.1
        · exact hsign
        · exact hrhs
      · exact hmake
  · exact hmake

/-- Scannable factors side by side make a scannable tree. -/
theorem scannable_juxtaposed (hes : ∀ e ∈ es, e.Scannable) (h : juxtaposed? es = some e) :
    e.Scannable := by
  unfold juxtaposed? at h
  split at h
  · cases h
  · cases h
    exact hes e (by simp)
  · cases h
    have htimes : ∀ loc, (symbol "Times" loc).Scannable :=
      fun _ => show Name.IsPlain "Times".toList from isPlain_of_isWord (by decide)
    exact scannable_apply (htimes _) hes _

/-! ## Atoms -/

section Atoms

variable {t : Token}

/-- A number that is read off the text of a token is scannable when its magnitude is one. -/
theorem scannable_literal {text : List Char} (h : literal text loc = .ok e)
    (hmagnitude : ∀ n, Number.ofCharacters? text = some n → IsMagnitude n) : e.Scannable := by
  unfold literal at h
  split at h
  · rename_i n hn
    cases h
    have hsame : { n with negative := false } = n := by
      rw [← Number.negative_of_ofCharacters? hn]
    rw [Scannable, hsame]
    exact hmagnitude n hn
  · cases h

/-- A run of digits is read as a scannable number. -/
theorem scannable_digits {text : List Char} (h : literal text loc = .ok e)
    (hdigits : text.all Char.isDigit = true) : e.Scannable := by
  refine scannable_literal h fun n hn => Number.isMagnitude_of_isDigits ⟨?_, hdigits⟩ hn
  rintro rfl
  cases hn

/-- A slot is scannable. -/
theorem scannable_slot (h : slot table t = .ok e) : e.Scannable := by
  obtain ⟨arg, rfl, harg⟩ := eq_of_slot h
  refine scannable_make (isPlain_name (by decide)) (fun arg' hmem => ?_) _
  obtain rfl := List.mem_singleton.mp hmem
  rcases harg with rfl | rfl | ⟨hdigits, hliteral⟩
  · exact scannable_integer 1
  · trivial
  · exact scannable_digits hliteral hdigits

/-- A sequence of slots is scannable. -/
theorem scannable_slotSequence {digits : List Char} (htext : t.text.toList = '#' :: '#' :: digits)
    (hdigits : digits.all Char.isDigit = true) (h : slotSequence table t = .ok e) :
    e.Scannable := by
  obtain ⟨arg, rfl, harg⟩ := eq_of_slotSequence h
  refine scannable_make (isPlain_name (by decide)) (fun arg' hmem => ?_) _
  obtain rfl := List.mem_singleton.mp hmem
  rcases harg with rfl | hliteral
  · exact scannable_integer 1
  · have hafter : textAfter 2 t = digits := by
      rw [textAfter, htext]
      exact congrArg (Option.getD · []) (Text.dropBytes?_byteLength_append ['#', '#'] digits)
    rw [hafter] at hliteral
    exact scannable_digits hliteral hdigits

/-- A reference to an output is scannable. -/
theorem scannable_out {digits : List Char} (htext : t.text.toList = '%' :: digits)
    (hdigits : digits.all Char.isDigit = true ∨ digits.all (· == '%') = true)
    (h : out table t = .ok e) : e.Scannable := by
  obtain ⟨args, rfl, hargs⟩ := eq_of_out h
  refine scannable_make (isPlain_name (by decide)) (fun arg hmem => ?_) _
  -- the last output, one so many steps back, or one with a number
  rcases hargs with rfl | ⟨n, rfl⟩ | ⟨hsigns, arg', rfl, hliteral⟩
  · cases hmem
  · obtain rfl := List.mem_singleton.mp hmem
    exact scannable_integer n
  · obtain rfl := List.mem_singleton.mp hmem
    have hafter : textAfter 1 t = digits := by
      rw [textAfter, htext]
      exact congrArg (Option.getD · []) (Text.dropBytes?_byteLength_append ['%'] digits)
    rw [hafter] at hliteral
    have hnot : digits.all (· == '%') = false := by
      simpa [htext] using hsigns
    rw [hnot] at hdigits
    exact scannable_digits hliteral (hdigits.resolve_right (by simp))

/-- A pattern with a plain name and a plain head is scannable. -/
theorem scannable_placeholder {name head : List Char} (hname : name = [] ∨ Name.IsPlain name)
    (hhead : head = [] ∨ Name.IsPlain head) (marks : Nat) :
    (placeholder table name head marks loc).Scannable := by
  have hsymbol : ∀ {cs : List Char}, Name.IsPlain cs → (symbol (.ofList cs) loc).Scannable := by
    intro cs hcs
    simpa [Scannable] using hcs
  have hblank : Name.IsPlain (blankHead marks).toList :=
    isPlain_name (by simp [blankHead_mem_atomHeads])
  have hpattern : (make table (blankHead marks)
      (if head.isEmpty then [] else [symbol (.ofList head) loc]) loc).Scannable := by
    refine scannable_make hblank (fun arg hmem => ?_) _
    split at hmem
    · cases hmem
    · rename_i hne
      obtain rfl := List.mem_singleton.mp hmem
      exact hsymbol (hhead.resolve_left (by simpa using hne))
  -- a blank alone, or a pattern that names it
  unfold placeholder namedPattern
  dsimp only
  split
  · exact hpattern
  · rename_i hne
    refine scannable_make (isPlain_name (by decide)) (fun arg hmem => ?_) _
    simp only [List.mem_cons, List.not_mem_nil, or_false] at hmem
    rcases hmem with rfl | rfl
    · exact hsymbol (hname.resolve_left (by simpa using hne))
    · exact hpattern

/-- A plain name holds no point. -/
theorem point_notMem_of_isPlain {cs : List Char} (h : cs = [] ∨ Name.IsPlain cs) : '.' ∉ cs := by
  rcases h with rfl | ⟨-, hread⟩
  · simp
  · rw [← hread]
    exact Name.notMem_readFrom (by decide) (by decide +kernel) true _

/-- The parts of a blank are a name, underscores and a head. -/
theorem blankParts_append {name marks head : List Char} (hname : '_' ∉ name) (hmarks : marks ≠ [])
    (hunderscores : ∀ c ∈ marks, c = '_') (hhead : '_' ∉ head) :
    blankParts (name ++ marks ++ head) = (name, marks.length, head) := by
  have hbefore : name.all (· != '_') = true := by
    rw [List.all_eq_true]
    intro c hc
    rw [bne_iff_ne]
    rintro rfl
    exact hname hc
  have hall : marks.all (· == '_') = true := by
    simpa using hunderscores
  have hstart : ∀ c ∈ (marks ++ head).head?, (c != '_') = false := by
    obtain ⟨c, marks, rfl⟩ := List.exists_cons_of_ne_nil hmarks
    rintro _ ⟨⟩
    simpa using hunderscores c List.mem_cons_self
  have hend : ∀ c ∈ head.head?, (c == '_') = false := by
    intro c hc
    rw [beq_eq_false_iff_ne]
    rintro rfl
    exact hhead (List.mem_of_mem_head? hc)
  -- the name ends at the first underscore, and the head starts behind the last one
  unfold blankParts
  rw [List.append_assoc, Literal.takeWhile_append_of_all hbefore hstart,
    Literal.dropWhile_append_of_all hbefore hstart]
  simp only [Literal.dropWhile_append_of_all hall hend, List.length_append, Nat.add_sub_cancel]

/-- Neither a head nor an underscore ends in a point. -/
theorem optionalName?_append {name marks head : List Char} (hmarks : marks ≠ [])
    (hunderscores : ∀ c ∈ marks, c = '_') (hhead : '.' ∉ head) :
    optionalName? (name ++ marks ++ head) = none := by
  rw [Option.eq_none_iff_forall_ne_some]
  intro name' hname'
  have hlast := congrArg List.getLast? (eq_of_optionalName? hname')
  rw [List.append_assoc, List.getLast?_append_of_ne_nil name (by simp [hmarks]),
    List.getLast?_append_of_ne_nil name' (by simp)] at hlast
  rcases List.mem_append.mp (List.mem_of_getLast? hlast) with hmem | hmem
  · cases hunderscores '.' hmem
  · exact hhead hmem

/-- A blank that was scanned is scannable. -/
theorem scannable_blank (htext : Scan.AtomText .blank t.text.toList) (h : blank table t = .ok e) :
    e.Scannable := by
  have hblank := eq_of_blank h
  generalize t.text.toList = text at htext hblank
  -- a blank with or without a head, or an optional one
  cases htext with
  | @blank name marks head plainName noUnderscore underscores isMarks plainHead noUnderscore' =>
    rw [optionalName?_append underscores isMarks (point_notMem_of_isPlain plainHead)] at hblank
    rw [blankParts_append noUnderscore underscores isMarks noUnderscore'] at hblank
    rcases hblank with ⟨_, hsome, -⟩ | ⟨-, rfl⟩
    · cases hsome
    · exact scannable_placeholder plainName plainHead _
  | @optional name plainName _ =>
    rcases hblank with ⟨name', hname', rfl⟩ | ⟨hnone, -⟩
    · obtain rfl := List.append_cancel_right (eq_of_optionalName? hname')
      refine scannable_make (isPlain_name (by decide)) (fun arg hmem => ?_) _
      obtain rfl := List.mem_singleton.mp hmem
      exact scannable_placeholder plainName (.inl rfl) 1
    · simp [optionalName?] at hnone

/-- A symbol, a number, a string or a file name that was scanned is scannable. -/
theorem scannable_leaf (htext : Scan.AtomText t.kind t.text.toList) (h : leaf t = .ok e) :
    e.Scannable := by
  unfold leaf at h
  split at h
  · rename_i hkind
    cases h
    rw [hkind] at htext
    cases htext with
    | symbol plain =>
      -- a sign of a constant stands for the name of one
      rcases canonicalName_cases t.text with hsame | hmem
      · rw [hsame]
        exact plain
      · exact isPlain_name (by simp [hmem])
  · rename_i hkind
    rw [hkind] at htext
    generalize t.text.toList = text at htext h
    cases htext with
    | number split =>
      exact scannable_literal h fun n hn => Number.isMagnitude_of_split? split hn
  · cases h
    trivial
  · cases h
    trivial
  · cases h

/-- What a scanned atom stands for. -/
theorem scannable_atom (htext : Scan.AtomText t.kind t.text.toList) (h : atom table t = .ok e) :
    e.Scannable := by
  unfold atom at h
  split at h
  · exact scannable_slot h
  · rename_i hkind
    rw [hkind] at htext
    generalize htokenText : t.text.toList = text at htext
    cases htext with
    -- the scanner takes nothing but digits behind the signs
    | slotSequence isDigits => exact scannable_slotSequence htokenText isDigits h
  · rename_i hkind
    rw [hkind] at htext
    generalize htokenText : t.text.toList = text at htext
    cases htext with
    | out isDigits => exact scannable_out htokenText isDigits h
  · rename_i hkind
    rw [hkind] at htext
    exact scannable_blank htext h
  · exact scannable_leaf htext h

end Atoms

end Expr

/-! ## Trees that are built -/

section Built

open Symbolic.Expr

variable {beside : Expr → Prop}

mutual

/-- A tree that is built from scanned atoms. -/
theorem Built.scannable : ∀ {e : Expr} {atoms : List Token},
    Built .standard beside e atoms → (∀ t ∈ atoms, Scan.AtomText t.kind t.text.toList) →
    e.Scannable
  -- by induction on how the tree was built: atoms come from tokens, and no rule brings in a name
  -- that is not plain
  | _, _, .atom _ value, hatoms => scannable_atom (hatoms _ List.mem_cons_self) value
  | _, _, .tag _, _ => trivial
  | _, _, .name known, _ => isPlain_name (by simp [known])
  | _, _, .integer, _ => scannable_integer _
  | _, _, .make known args, hatoms =>
    scannable_make (isPlain_head known) (BuiltAll.scannable args hatoms) _
  | _, _, .sequence known elements, hatoms => by
    -- a sequence has one of a few heads, all of them words
    have hall : ∀ head ∈ OperatorTable.standard.sequenceHeads, isWord head.toList = true := by
      decide +kernel
    exact scannable_make (isPlain_of_isWord (hall _ known)) (elements.scannable hatoms) _
  | _, _, .apply head elements, hatoms => by
    rw [List.forall_mem_append] at hatoms
    exact scannable_apply (head.scannable hatoms.1) (elements.scannable hatoms.2) _
  | _, _, .negate known built, hatoms =>
    scannable_negate (isPlain_head known) (Built.scannable built hatoms) _ _
  | _, _, .compare known lhs rhs, hatoms => by
    rw [List.forall_mem_append] at hatoms
    exact scannable_compare (isPlain_head known) (lhs.scannable hatoms.1)
      (rhs.scannable hatoms.2) _ _
  | _, _, .withLoc built, hatoms => (Built.scannable built hatoms).withLoc _
  | _, _, .parenthesize built, hatoms => (Built.scannable built hatoms).parenthesize
  | _, _, .perm built perm, hatoms =>
    Built.scannable built fun t ht => hatoms t (perm.mem_iff.mp ht)

/-- The same of each argument. -/
theorem BuiltAll.scannable : ∀ {es : List Expr} {atoms : List Token},
    BuiltAll .standard beside es atoms → (∀ t ∈ atoms, Scan.AtomText t.kind t.text.toList) →
    ∀ e ∈ es, e.Scannable
  | _, _, .nil, _ => nofun
  | _, _, .cons first after, hatoms => by
    rw [List.forall_mem_append] at hatoms
    rw [List.forall_mem_cons]
    exact ⟨first.scannable hatoms.1, after.scannable hatoms.2⟩

/-- The same of an element of a sequence. -/
theorem Element.scannable : ∀ {e : Expr} {atoms : List Token},
    Element .standard beside e atoms → (∀ t ∈ atoms, Scan.AtomText t.kind t.text.toList) →
    e.Scannable
  | _, _, .omitted, _ => isPlain_name (by decide)
  | _, _, .product factors _ product, hatoms =>
    scannable_juxtaposed (BuiltAll.scannable factors hatoms) product

/-- The same of all elements of a sequence. -/
theorem Elements.scannable : ∀ {es : List Expr} {atoms : List Token},
    Elements .standard beside es atoms → (∀ t ∈ atoms, Scan.AtomText t.kind t.text.toList) →
    ∀ e ∈ es, e.Scannable
  | _, _, .nil, _ => nofun
  | _, _, .cons first after, hatoms => by
    rw [List.forall_mem_append] at hatoms
    rw [List.forall_mem_cons]
    exact ⟨first.scannable hatoms.1, after.scannable hatoms.2⟩

end

end Built

end Symbolic
