import Symbolic.Proofs.FullForm.Spelling
import Symbolic.Proofs.Reader.Standard

/-!
# Reading a full form

The tokens of a full form are read back as the tree, with other locations: every call as a call,
and every number with a sign as that number. A sign is the only operator there, and it binds more
tightly than a comma but not as tightly as a call.

## Key results

- `Spells.reads`, `SpellsAll.exists_sequence`: trees and lists of trees are read from their tokens
- `Spells.exists_read`: a text whose tokens spell a tree is read as the tree
- `exists_read_text`: the full form of a tree is read as the tree
-/

namespace Symbolic.FullForm

open Reader Filter

/-! ## First tokens -/

/-- The kinds of token that a full form starts with. -/
def formStarts : List TokenKind :=
  [.symbol, .string, .number, .minus]

/-- A full form starts with an atom or a sign. -/
theorem Spells.tokens_eq_cons : ∀ {e : Expr} {tokens : List Token}, Spells e tokens →
    ∃ t rest, tokens = t :: rest ∧ t.kind ∈ formStarts
  | _, _, .symbol kind _ _ => ⟨_, _, rfl, by simp [formStarts, kind]⟩
  | _, _, .string kind _ => ⟨_, _, rfl, by simp [formStarts, kind]⟩
  | _, _, .number kind _ _ => ⟨_, _, rfl, by simp [formStarts, kind]⟩
  | _, _, .negative kind _ _ _ => ⟨_, _, rfl, by simp [formStarts, kind]⟩
  | _, _, .node _ spellsHead _ _ _ => by
    obtain ⟨t, rest, rfl, ht⟩ := spellsHead.tokens_eq_cons
    exact ⟨t, _, rfl, ht⟩

/-- What a full form starts with goes on with no operand. -/
theorem not_endsOperand_of_mem_formStarts {kind : TokenKind} (h : kind ∈ formStarts) :
    kind.endsOperand = false ∧ kind ≠ .leftBracket := by
  revert h
  cases kind <;> decide

/-! ## Trees -/

/-- With enough room, what stands before the rest is read as the tree, up to locations. After a
    negative number something has to follow that ends the operand of a sign. -/
def Reads (e : Expr) (tokens : List Token) : Prop :=
  ∀ (s : State) (rest : List Token),
    (e.isNegative = true → OperatorTable.standard.Stops 480 (s.before rest).current.kind) →
    ∃ e', e'.outline = e.outline ∧ ∀ᶠ room in atTop,
      chain .standard (Forgetful.expression .standard room) 0 (s.before (tokens ++ rest)) =
        Parse.iterate (trailing .standard (Forgetful.expression .standard room) 0) e'
          (s.before rest)

/-- A full form is read as an expression. -/
theorem Reads.exists_expression {e : Expr} {tokens : List Token} (h : Reads e tokens) (s : State)
    {rest : List Token} (hrest : OperatorTable.standard.Stops 0 (s.before rest).current.kind) :
    ∃ e', e'.outline = e.outline ∧ ∀ᶠ room in atTop,
      Forgetful.expression .standard room 0 (s.before (tokens ++ rest)) =
        .ok e' (s.before rest) := by
  obtain ⟨e', houtline, hread⟩ := h s rest fun _ => stops_of_le hrest (by decide)
  exact ⟨e', houtline, eventually_expression_of_chain hread hrest⟩

/-- A single token that stands for a tree. -/
theorem reads_atom {e e' : Expr} {t : Token}
    (hlead : OperatorTable.standard.lookup? t.kind .prefixed = none)
    (hkind : t.kind.isAtom = true) (h : Expr.atom .standard t = .ok e')
    (houtline : e'.outline = e.outline) : Reads e [t] := by
  intro s rest _
  exact ⟨e', houtline, .of_forall fun room => chain_of_leading (leading_atom hlead hkind h)⟩

/-- The token of a literal stands for its number. -/
theorem atom_number {n : Number} {t : Token} (kind : t.kind = .number)
    (literal : Number.ofLiteral? t.text = some n) :
    Expr.atom .standard t = .ok (.number n t.loc) := by
  rw [Number.ofLiteral?] at literal
  simp only [Expr.atom, Expr.leaf, kind, Expr.literal, literal]

/-- A sign goes into the number after it. -/
theorem reads_negative {n : Number} {loc : Location} {minus t : Token}
    (minusKind : minus.kind = .minus) (kind : t.kind = .number)
    (literal : Number.ofLiteral? t.text = some { n with negative := false })
    (sign : n.negative = true) : Reads (.number n loc) [minus, t] := by
  intro s rest hrest
  have hstop : OperatorTable.standard.Stops 480 (s.before rest).current.kind := hrest sign
  have hoperand : ∀ᶠ room in atTop,
      Forgetful.expression .standard room 480 (s.before ([t] ++ rest)) =
        .ok (.number { n with negative := false } t.loc) (s.before rest) := by
    refine eventually_expression (.of_forall fun room => ?_)
    exact chain_ok (leading_atom (by rw [kind]; rfl) (by rw [kind]; rfl) (atom_number kind literal))
      (iterate_of_stops hstop)
  -- giving the sign back to what was read makes the number that was written
  have hnumber : { n with negative := true } = n := by
    rw [← sign]
  refine ⟨.number n (minus.loc.union t.loc), rfl, ?_⟩
  filter_upwards [hoperand] with room hoperand
  have hnegate : Expr.negate .standard "Times" (.number { n with negative := false } t.loc)
      minus.loc (minus.loc.union t.loc) = .number n (minus.loc.union t.loc) := by
    simp only [Expr.negate, Bool.false_eq_true, if_false, hnumber]
  have hread := leading_minus minusKind hoperand
  rw [show (Expr.number { n with negative := false } t.loc).loc = t.loc from rfl, hnegate] at hread
  exact chain_of_leading hread

/-! ## Trees and lists of trees -/

/-- The arguments of a call do not start like a part. -/
theorem SpellsAll.kind_ne_leftBracket {es : List Expr} {tokens : List Token}
    (h : SpellsAll es tokens) (s : State) {closing : Token}
    (hclosing : closing.kind = .rightBracket) (rest : List Token) :
    (s.before (tokens ++ closing :: rest)).current.kind ≠ .leftBracket := by
  cases h with
  | nil =>
    -- without arguments the closing bracket comes next
    show closing.kind ≠ .leftBracket
    rw [hclosing]
    decide
  | cons first after =>
    obtain ⟨t, more, rfl, ht⟩ := first.tokens_eq_cons
    exact (not_endsOperand_of_mem_formStarts ht).2

mutual

/-- The tokens of a full form are read as the tree. -/
theorem Spells.reads : ∀ {e : Expr} {tokens : List Token}, Spells e tokens → Reads e tokens
  | _, _, @Spells.symbol name _ t kind text canonical => by
    have hatom : Expr.atom .standard t = .ok (.symbol name t.loc) := by
      simp only [Expr.atom, Expr.leaf, kind, text, canonical]
    exact reads_atom (by rw [kind]; rfl) (by rw [kind]; rfl) hatom rfl
  | _, _, @Spells.string value _ t kind text => by
    have hatom : Expr.atom .standard t = .ok (.string value t.loc) := by
      simp only [Expr.atom, Expr.leaf, kind, text]
    exact reads_atom (by rw [kind]; rfl) (by rw [kind]; rfl) hatom rfl
  | _, _, .number kind literal _ =>
    reads_atom (by rw [kind]; rfl) (by rw [kind]; rfl) (atom_number kind literal) rfl
  | _, _, .negative minusKind kind literal sign => reads_negative minusKind kind literal sign
  | _, _, @Spells.node head children parenthesized loc headTokens childTokens opening closing
      positive spellsHead openingKind spellsChildren closingKind => by
    intro s rest _
    -- a negative head would read the call as that of its number without the sign
    obtain ⟨head', hhead, hreadHead⟩ := spellsHead.reads s
      (opening :: (childTokens ++ closing :: rest))
      (fun hnegative => by simp [positive] at hnegative)
    obtain ⟨args, hargs, hreadArgs⟩ :=
      spellsChildren.exists_sequence (s.within opening.loc) closingKind rest
    have hfirst := spellsChildren.kind_ne_leftBracket (s.within opening.loc) closingKind rest
    -- a call is marked as if it stood in brackets, which the outline leaves out
    refine ⟨(Expr.apply head' args (head'.loc.union closing.loc)).parenthesize, ?_, ?_⟩
    · simp only [Expr.apply, Expr.parenthesize, Expr.outline, hhead, hargs]
    · filter_upwards [hreadHead, hreadArgs] with room hreadHead hreadArgs
      have htokens : headTokens ++ opening :: (childTokens ++ [closing]) ++ rest =
          headTokens ++ opening :: (childTokens ++ closing :: rest) := by
        simp
      rw [htokens, hreadHead]
      refine iterate_again (trailing_call openingKind hfirst hreadArgs closingKind (by decide)) ?_
      simp only [State.rest_before, List.length_cons, List.length_append]
      omega

/-- So are the tokens of several, with commas between them. -/
theorem SpellsAll.exists_sequence : ∀ {es : List Expr} {tokens : List Token},
    SpellsAll es tokens → ∀ (s : State) {closing : Token}, closing.kind = .rightBracket →
    ∀ rest : List Token, ∃ args, Expr.outlines args = Expr.outlines es ∧ ∀ᶠ room in atTop,
      sequence (Forgetful.expression .standard room) .rightBracket
        (s.before (tokens ++ closing :: rest)) = .ok args (s.before (closing :: rest))
  | _, _, .nil, s, closing, hclosing, rest => by
    refine ⟨[], rfl, .of_forall fun room => iterate_done ?_⟩
    exact sequenceTurn_done hclosing (by decide)
  | _, _, .cons first after, s, closing, hclosing, rest => by
    obtain ⟨args, hargs, hread⟩ := after.exists_iterate first.reads first.tokens_eq_cons [] s
      hclosing rest
    refine ⟨args, hargs, ?_⟩
    filter_upwards [hread] with room hread
    rw [List.append_assoc]
    exact hread

/-- Elements after one that is still to be read. -/
theorem SpellsAfter.exists_iterate : ∀ {es : List Expr} {afterTokens : List Token},
    SpellsAfter es afterTokens → ∀ {e : Expr} {tokens : List Token}, Reads e tokens →
    (∃ t rest, tokens = t :: rest ∧ t.kind ∈ formStarts) → ∀ (items : List Expr) (s : State)
    {closing : Token}, closing.kind = .rightBracket → ∀ rest : List Token,
    ∃ args, Expr.outlines args = Expr.outlines (e :: es) ∧ ∀ᶠ room in atTop,
      Parse.iterate (sequenceTurn (Forgetful.expression .standard room) .rightBracket) items
          (s.before (tokens ++ (afterTokens ++ closing :: rest))) =
        .ok (items ++ args) (s.before (closing :: rest))
  | _, _, .nil, e, tokens, hreads, ⟨t, more, htokens, ht⟩, items, s, closing, hclosing, rest => by
    -- the last element ends at the closing bracket
    have hstop : OperatorTable.standard.Stops 0 (s.before (closing :: rest)).current.kind := by
      show OperatorTable.standard.Stops 0 closing.kind
      rw [hclosing]
      decide
    obtain ⟨e', houtline, hread⟩ := hreads.exists_expression s hstop
    refine ⟨[e'], by simp only [Expr.outlines, houtline], ?_⟩
    filter_upwards [hread] with room hread
    have hstart : (s.before (tokens ++ closing :: rest)).current.kind.endsOperand = false := by
      rw [htokens]
      exact (not_endsOperand_of_mem_formStarts ht).1
    exact iterate_done
      (sequenceTurn_last (by decide) hstart (element_ok hread (.inr hclosing)) hclosing)
  | _, _, @SpellsAfter.cons e₁ es comma tokens₁ afterTokens commaKind first after, e, tokens,
      hreads, ⟨t, more, htokens, ht⟩, items, s, closing, hclosing, rest => by
    -- any other element ends at the comma after it
    have hstop : OperatorTable.standard.Stops 0
        (s.before (comma :: (tokens₁ ++ (afterTokens ++ closing :: rest)))).current.kind := by
      show OperatorTable.standard.Stops 0 comma.kind
      rw [commaKind]
      decide
    obtain ⟨e', houtline, hread⟩ := hreads.exists_expression s hstop
    obtain ⟨args, hargs, hreadAfter⟩ := after.exists_iterate first.reads first.tokens_eq_cons
      (items ++ [e']) s hclosing rest
    refine ⟨e' :: args, ?_, ?_⟩
    · simp only [Expr.outlines, hargs, houtline]
    filter_upwards [hread, hreadAfter] with room hread hreadAfter
    have hlist : comma :: (tokens₁ ++ afterTokens) ++ closing :: rest =
        comma :: (tokens₁ ++ (afterTokens ++ closing :: rest)) := by
      simp
    have hstart : (s.before (tokens ++ comma :: (tokens₁ ++ (afterTokens ++ closing :: rest)))
        ).current.kind.endsOperand = false := by
      rw [htokens]
      exact (not_endsOperand_of_mem_formStarts ht).1
    rw [hlist, iterate_again (sequenceTurn_comma (by decide) hstart
        (element_ok hread (.inl commaKind)) commaKind), hreadAfter,
      List.append_assoc]
    · rfl
    · simp only [State.rest_before, List.length_cons, List.length_append]
      omega

end

/-! ## Whole texts -/

mutual

/-- No token of a full form ends the input. -/
theorem Spells.kind_ne_endOfInput : ∀ {e : Expr} {tokens : List Token}, Spells e tokens →
    ∀ t ∈ tokens, t.kind ≠ .endOfInput
  | _, _, .symbol kind _ _ => by simp [kind]
  | _, _, .string kind _ => by simp [kind]
  | _, _, .number kind _ _ => by simp [kind]
  | _, _, .negative minusKind kind _ _ => by simp [minusKind, kind]
  | _, _, .node _ spellsHead openingKind spellsChildren closingKind => by
    rw [List.forall_mem_append, List.forall_mem_cons, List.forall_mem_append]
    exact ⟨spellsHead.kind_ne_endOfInput, by simp [openingKind],
      spellsChildren.kind_ne_endOfInput, by simp [closingKind]⟩

/-- Nor does one of several full forms. -/
theorem SpellsAll.kind_ne_endOfInput : ∀ {es : List Expr} {tokens : List Token},
    SpellsAll es tokens → ∀ t ∈ tokens, t.kind ≠ .endOfInput
  | _, _, .nil => fun _ h => nomatch h
  | _, _, .cons first after => by
    rw [List.forall_mem_append]
    exact ⟨first.kind_ne_endOfInput, after.kind_ne_endOfInput⟩

/-- Nor does one behind a comma. -/
theorem SpellsAfter.kind_ne_endOfInput : ∀ {es : List Expr} {tokens : List Token},
    SpellsAfter es tokens → ∀ t ∈ tokens, t.kind ≠ .endOfInput
  | _, _, .nil => fun _ h => nomatch h
  | _, _, .cons commaKind first after => by
    rw [List.forall_mem_cons, List.forall_mem_append]
    exact ⟨by simp [commaKind], first.kind_ne_endOfInput, after.kind_ne_endOfInput⟩

end

/-- With enough room for nesting, a text whose tokens spell a tree is read as the tree, up to
    locations and the marks of brackets. -/
theorem Spells.exists_read {e : Expr} {tokens : List Token} {text : String} {stop : Location}
    (hspells : Spells e tokens) (htokenize : tokenize text = .ok (tokens ++ [.endOfInput stop])) :
    ∃ e', e'.outline = e.outline ∧ ∀ᶠ limit in atTop,
      read ⟨.standard, limit⟩ text = .ok (some e') := by
  let s := State.ofTokens (tokens ++ [.endOfInput stop])
  have hstop : OperatorTable.standard.Stops 0 (s.before []).current.kind := by
    rw [State.kind_current_before_nil]
    decide
  obtain ⟨e', houtline, hread⟩ := hspells.reads.exists_expression s hstop
  rw [List.append_nil] at hread
  have hne : tokens ≠ [] := by
    -- every spelling starts with some token
    obtain ⟨t, rest, rfl, -⟩ := hspells.tokens_eq_cons
    simp
  refine ⟨e', houtline, ?_⟩
  filter_upwards [eventually_readTokens hspells.kind_ne_endOfInput hne
    Token.kind_of_mem_endOfInput hread] with limit hlimit
  rw [read, htokenize]
  simp only [hlimit]

/-- With enough room for nesting, the full form of a well-formed tree is read as the tree, up to
    locations and the marks of brackets. -/
theorem exists_read_text {e : Expr} (h : e.WellFormed) :
    ∃ e', e'.outline = e.outline ∧ ∀ᶠ limit in atTop,
      read ⟨.standard, limit⟩ e.text = .ok (some e') := by
  obtain ⟨tokens, stop, hspells, htokenize⟩ := exists_tokenize_text h
  exact hspells.exists_read htokenize

/-- A call of a call is read back. -/
theorem exists_read_curried :
    Expr.curried.WellFormed ∧ ∃ e', e'.outline = Expr.curried.outline ∧ ∀ᶠ limit in atTop,
      read ⟨.standard, limit⟩ Expr.curried.text = .ok (some e') := by
  exact ⟨Expr.wellFormed_curried, exists_read_text Expr.wellFormed_curried⟩

end Symbolic.FullForm
