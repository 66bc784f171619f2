import Symbolic.Proofs.Application.Matches
import Symbolic.Proofs.Nesting.Depth
import Symbolic.Proofs.Reader.Progress

/-!
# Applications with and without brackets

`f @ x` and `f[x]` are the same application, but for one thing: the second one stands in brackets
of its own. So they are read alike before anything that does not look at the head of an open
operand, whatever comes later. Before an operator that makes nodes with the head `f` the first one
is taken for such a node.

## Key results

- `Opens`: what is read as an operand, before anything that binds less tightly
- `map_text_readTokens_eq`: what follows two operands that are not told apart
- `Opens.readTokens_flat`: an operand before a flat operator
- `readTokens_prefixApplication`: both ways to write an application
-/

namespace Symbolic.Application

open Reader Parse Symbolic.Expr Nesting Spans

variable {s s' : State} {room : Nat} {tokens rest : List Token} {lhs lhs' e : Expr}
  {f x : TokenOf .symbol} {sign : TokenOf .prefixMark} {opening : TokenOf .leftBracket}
  {closing : TokenOf .rightBracket}

/-! ## Reading an application -/

/-- A kind of token that binds less tightly than an application, a colon apart. -/
abbrev IsLooser (kind : TokenKind) : Prop :=
  OperatorTable.standard.Stops 640 kind

theorem expression_ok {p : Precedence} (hs : s.failures = [])
    (h : chain .standard (expression .standard room) p s = .ok e s') :
    expression .standard (room + 1) p s = .ok e s' := by
  unfold expression remember
  simp only [hs, List.lookup_nil, h]

theorem expression_error {p : Precedence} {error : SyntaxError} (hs : s.failures = [])
    (h : chain .standard (expression .standard room) p s = .error error s') :
    ∃ s'', expression .standard (room + 1) p s = .error error s'' := by
  unfold expression remember
  simp only [hs, List.lookup_nil, h]
  split
  · exact ⟨_, rfl⟩
  · exact ⟨_, rfl⟩

/-- A symbol is read before a token that ends it. -/
theorem expression_symbol {p : Precedence} (hs : s.failures = [])
    (hstop : OperatorTable.standard.Stops p (s.before rest).current.kind) :
    expression .standard (room + 1) p (s.before (x.1 :: rest)) =
      .ok (.ofSymbol x) (s.before rest) :=
  expression_ok hs (chain_ok (leading_symbol rfl x) (iterate_of_stops hstop))

/-- The symbol and what is after it are read as an operand, before anything that binds less tightly
    than an application and with room for one of its parts. With no room for that the reader gives
    up at `x`. -/
structure Opens (f x : TokenOf .symbol) (after : List Token) (lhs : Expr) : Prop where
  endFree : ∀ t ∈ f.1 :: after, t.kind ≠ .endOfInput
  chain (s : State) (rest : List Token) (room : Nat) (hs : s.failures = [])
    (hrest : IsLooser (s.before rest).current.kind) :
      chain .standard (expression .standard (room + 1)) 0 (s.before (f.1 :: after ++ rest)) =
        iterate (trailing .standard (expression .standard (room + 1)) 0) lhs (s.before rest)
  error (s : State) (rest : List Token) : ∃ s',
    Reader.chain .standard (expression .standard 0) 0 (s.before (f.1 :: after ++ rest)) =
      .error (.recursionLimitExceeded x.1.loc) s'

theorem trailing_prefixMark {expr : Precedence → Parse Expr} :
    trailing .standard expr 0 lhs (s.before (sign.1 :: tokens)) =
      (.again <$> prefixApplication expr lhs (.infixed .prefixMark "Prefix" 640 .right))
        (s.before (sign.1 :: tokens)) := by
  have hfound : OperatorTable.standard.trailing? .prefixMark =
      some (.infixed .prefixMark "Prefix" 640 .right) := rfl
  rw [trailing_extended sign.2 hfound (by decide) UInt16.zero_le]
  rfl

/-- `f @ x` -/
theorem opens_application (f x : TokenOf .symbol) (sign : TokenOf .prefixMark) :
    Opens f x [sign.1, x.1] (apply (.ofSymbol f) [.ofSymbol x] (f.1.loc.union x.1.loc)) where
  endFree := by simp [f.2, sign.2, x.2]
  chain s rest room hs hrest := by
    have hturn : trailing .standard (expression .standard (room + 1)) 0 (.ofSymbol f)
        (s.before (sign.1 :: ([x.1] ++ rest))) =
          .ok (.again (apply (.ofSymbol f) [.ofSymbol x] (f.1.loc.union x.1.loc)))
            (s.before rest) := by
      refine trailing_prefixMark.trans (map_ok _ ?_)
      unfold prefixApplication
      rw [advance_bind]
      -- the argument ends where the application would
      exact bind_ok _ (expression_symbol hs hrest)
    exact (chain_of_leading (leading_symbol rfl f)).trans (iterate_again_before hturn)
  error s rest := by
    refine ⟨s.before (x.1 :: rest), (chain_of_leading (leading_symbol rfl f)).trans ?_⟩
    exact iterate_error (trailing_prefixMark.trans rfl)

/-- `f[x]` -/
theorem opens_call (f x : TokenOf .symbol) (opening : TokenOf .leftBracket)
    (closing : TokenOf .rightBracket) :
    Opens f x [opening.1, x.1, closing.1]
      (apply (.ofSymbol f) [.ofSymbol x] (f.1.loc.union closing.1.loc)).parenthesize where
  endFree := by simp [f.2, opening.2, x.2, closing.2]
  chain s rest room hs hrest := by
    have hends : x.1.kind.endsOperand = false := by rw [x.2]; rfl
    -- the argument ends before the bracket, whatever comes after that
    have hx : expression .standard (room + 1) 0
        ((s.within opening.1.loc).before (x.1 :: closing.1 :: rest)) =
          .ok (.ofSymbol x) ((s.within opening.1.loc).before (closing.1 :: rest)) :=
      expression_symbol hs (by rw [State.current_before_cons, closing.2]; decide)
    have hsequence := sequence_one (by decide) (by exact hends) hx closing.2
    have hturn : trailing .standard (expression .standard (room + 1)) 0 (.ofSymbol f)
        (s.before (opening.1 :: ([x.1, closing.1] ++ rest))) =
          .ok (.again (apply (.ofSymbol f) [.ofSymbol x]
            (f.1.loc.union closing.1.loc)).parenthesize) (s.before rest) := by
      have hfirst : x.1.kind ≠ .leftBracket := by simp [x.2]
      exact trailing_call opening.2 (by exact hfirst) hsequence closing.2 UInt16.zero_le
    exact (chain_of_leading (leading_symbol rfl f)).trans (iterate_again_before hturn)
  error s rest := by
    refine ⟨(s.within opening.1.loc).before (x.1 :: closing.1 :: rest),
      (chain_of_leading (leading_symbol rfl f)).trans ?_⟩
    have hends : x.1.kind.endsOperand = false := by rw [x.2]; rfl
    have hfirst : x.1.kind ≠ .leftBracket := by simp [x.2]
    exact call_error opening.2 UInt16.zero_le hfirst (sequence_error (by decide) hends rfl)

/-! ## Operands that are not told apart -/

/-- The next token is the first one, or the end. -/
theorem kind_current_ofTokens (w : List Token) :
    (State.ofTokens w).current.kind = w.head?.elim .endOfInput Token.kind := by
  cases w with
  | nil => rfl
  | cons t w =>
    by_cases hend : t.kind = .endOfInput
    · simp [State.ofTokens, State.current, hend, Token.endOfInput]
    · simp [State.ofTokens, State.current, hend]

/-- What tokens are read before does not depend on them, if there is anything. -/
theorem ofTokens_of_endFree (htokens : ∀ t ∈ tokens, t.kind ≠ .endOfInput) (hrest : rest ≠ []) :
    State.ofTokens (tokens ++ rest) =
      (State.ofTokens rest).before (tokens ++ (State.ofTokens rest).rest) := by
  have htake := rest_ofTokens_more htokens rest
  have hfind : (tokens ++ rest).find? (·.kind == .endOfInput) =
      rest.find? (·.kind == .endOfInput) := by
    rw [List.find?_append, List.find?_eq_none.mpr (by simpa using htokens), Option.none_or]
  have hlast := List.getLast?_append_of_ne_nil tokens hrest
  simp only [State.ofTokens, State.before] at htake ⊢
  simp only [htake, hfind, hlast]

/-- A chain that takes up all tokens is the whole input. -/
theorem readTokens_of_chain {input : List Token}
    (hkind : (State.ofTokens input).current.kind ≠ .endOfInput)
    (h : chain .standard (expression .standard room) 0 (.ofTokens input) =
      .ok e ((State.ofTokens input).before [])) :
    readTokens ⟨.standard, room + 1⟩ input = .ok (some e) := by
  unfold readTokens run program
  rw [programTurns_ok hkind (expression_ok rfl h)]

namespace Opens

variable {after after' w : List Token} {limit : Nat}

theorem kind_current (h : Opens f x after lhs) (w : List Token) :
    (State.ofTokens (f.1 :: after ++ w)).current.kind ≠ .endOfInput := by
  rw [State.current, rest_ofTokens_more h.endFree]
  exact h.endFree f.1 List.mem_cons_self

theorem before_eq (h : Opens f x after lhs) (w : List Token) :
    (State.ofTokens (f.1 :: after ++ w)).before (f.1 :: after ++ (State.ofTokens w).rest) =
      State.ofTokens (f.1 :: after ++ w) := by
  rw [← rest_ofTokens_more h.endFree, State.before_rest]

/-- With no room at all the reader gives up at once. -/
theorem readTokens_zero (h : Opens f x after lhs) (w : List Token) :
    readTokens ⟨.standard, 0⟩ (f.1 :: after ++ w) = .error (.recursionLimitExceeded f.1.loc) := by
  have herror : expression .standard 0 0 (.ofTokens (f.1 :: after ++ w)) =
      .error (.recursionLimitExceeded f.1.loc) (.ofTokens (f.1 :: after ++ w)) := by
    rw [← h.before_eq w]
    rfl
  exact readTokens_eq_error (h.kind_current w) herror

/-- With no room for the parts of the operand the reader gives up in it. -/
theorem readTokens_one (h : Opens f x after lhs) (w : List Token) :
    readTokens ⟨.standard, 1⟩ (f.1 :: after ++ w) = .error (.recursionLimitExceeded x.1.loc) := by
  obtain ⟨s', herror⟩ := h.error (.ofTokens (f.1 :: after ++ w)) (State.ofTokens w).rest
  rw [h.before_eq w] at herror
  exact readTokens_eq_error (h.kind_current w) (remember_error_of_final rfl rfl herror)

/-- The operand is the whole input, if nothing follows. -/
theorem readTokens_eq_ok (h : Opens f x after lhs) :
    readTokens ⟨.standard, room + 2⟩ (f.1 :: after ++ []) = .ok (some lhs) := by
  refine readTokens_of_chain (h.kind_current []) ?_
  have hend : IsLooser .endOfInput := by decide
  have hrun := h.chain (.ofTokens (f.1 :: after ++ [])) (State.ofTokens []).rest room rfl hend
  rw [h.before_eq []] at hrun
  exact hrun.trans (iterate_of_stops (stops_of_mem_chainEnds List.mem_cons_self 0))

end Opens

variable {after after' w : List Token} {limit : Nat}

theorem map_text_eq_of_bare {e? e?' : Option Expr} (h : e?.map Expr.bare = e?'.map Expr.bare) :
    e?.map text = e?'.map text := by
  cases e? <;> cases e?'
  · rfl
  · cases h
  · cases h
  · exact congrArg some (text_eq_of_bare (Option.some.inj h))

/-- Two inputs whose first expressions end alike, at the same place, end alike. -/
theorem map_text_eq_of_chain {input input' : List Token}
    (hkind : (State.ofTokens input).current.kind ≠ .endOfInput)
    (hkind' : (State.ofTokens input').current.kind ≠ .endOfInput)
    (h : SameEnd BareEq
      (chain .standard (expression .standard room) 0 (.ofTokens input))
      (chain .standard (expression .standard room) 0 (.ofTokens input'))) :
    (readTokens ⟨.standard, room + 1⟩ input).map (Option.map text) =
      (readTokens ⟨.standard, room + 1⟩ input').map (Option.map text) := by
  generalize hr : chain _ _ _ (State.ofTokens input) = r at h
  generalize hr' : chain _ _ _ (State.ofTokens input') = r' at h
  cases h with
  | error =>
    -- the errors are remembered at different places, but are the same
    obtain ⟨_, herror⟩ := expression_error rfl hr
    obtain ⟨_, herror'⟩ := expression_error rfl hr'
    rw [readTokens_eq_error hkind herror, readTokens_eq_error hkind' herror']
  | @ok e e' s value =>
    -- the inputs go on after these expressions
    have he := expression_ok rfl hr
    have he' := expression_ok rfl hr'
    have hexprs : [e].map Expr.bare = [e'].map Expr.bare := congrArg (fun e => [e]) value
    have hrest := @matches_programTurns (expression .standard (room + 1)) [e] [e'] hexprs s
    unfold readTokens run program
    rw [programTurns_again hkind he (lt_of_expression_ok he),
      programTurns_again hkind' he' (lt_of_expression_ok he')]
    revert hrest
    generalize iterate _ [e] s = q, iterate _ [e'] s = q'
    rintro (⟨value⟩ | _)
    · exact congrArg Except.ok (map_text_eq_of_bare value)
    · rfl

/-- What follows two operands of which the next token tells nothing apart makes the same inputs of
    them. -/
theorem map_text_readTokens_eq (h : Opens f x after lhs) (h' : Opens f x after' lhs')
    (hw : IsLooser (State.ofTokens w).current.kind)
    (htwin : Twin {head | head ∈ takenUp (State.ofTokens w).current.kind} lhs lhs') :
    (readTokens ⟨.standard, limit⟩ (f.1 :: after ++ w)).map (Option.map text) =
      (readTokens ⟨.standard, limit⟩ (f.1 :: after' ++ w)).map (Option.map text) := by
  match limit with
  | 0 => rw [h.readTokens_zero, h'.readTokens_zero]
  | 1 => rw [h.readTokens_one, h'.readTokens_one]
  | room + 2 =>
    by_cases hne : w = []
    · -- the ends of the inputs are at different places, but nothing looks at them
      subst hne
      rw [h.readTokens_eq_ok, h'.readTokens_eq_ok]
      exact congrArg (Except.ok ∘ some) (text_eq_of_bare htwin.bare)
    · refine map_text_eq_of_chain (h.kind_current w) (h'.kind_current w) ?_
      -- both go on from their operands at the same place
      have hrun := h.chain (.ofTokens w) (State.ofTokens w).rest room rfl hw
      have hrun' := h'.chain (.ofTokens w) (State.ofTokens w).rest room rfl hw
      rw [← ofTokens_of_endFree h.endFree hne] at hrun
      rw [← ofTokens_of_endFree h'.endFree hne] at hrun'
      rw [hrun, hrun']
      exact sameEnd_iterate_trailing htwin

/-! ## Both ways to write an application -/

/-- An application and one in brackets are not told apart by what does not look for their head. -/
theorem twin_application {heads : Set String} {loc loc' : Location}
    (hf : canonicalName f.1.text ∉ heads) :
    Twin heads (apply (.ofSymbol f) [.ofSymbol x] loc)
      (apply (.ofSymbol f) [.ofSymbol x] loc').parenthesize where
  bare := by simp [bare_parenthesize, apply]
  isOpenNode := by
    intro head hhead
    have hne : canonicalName f.1.text ≠ head := fun heq => hf (heq ▸ hhead)
    simp [apply, parenthesize, ofSymbol, isOpenNode, headName?, symbolName?, isParenthesized, hne]

/-! ## Applications of the head of an operator -/

/-- A flat infix operator that is read by the general rule and binds less tightly than an
    application. -/
structure FlatOperator (kind : TokenKind) where
  op : Operator
  found : OperatorTable.standard.lookup? kind .infixed = some op
  general : kind.hasOwnRule = false
  flat : op.associativity = .flat
  looser : op.precedence < 640

variable {kind : TokenKind}

theorem FlatOperator.isFlat_head (o : FlatOperator kind) :
    OperatorTable.standard.isFlat o.op.head = true :=
  List.any_eq_true.mpr ⟨o.op, OperatorTable.mem_of_lookup? o.found, by simp [o.flat]⟩

theorem FlatOperator.isLooser (o : FlatOperator kind) : IsLooser kind :=
  stops_of_infixed o.found (TokenKind.ne_rawColon_of_general o.general) o.looser

/-- An operand with such an operator and a symbol after it is the first argument of the operator's
    node. -/
theorem Opens.readTokens_flat (h : Opens f x after lhs) (o : FlatOperator kind)
    (plus : TokenOf kind) (y : TokenOf .symbol) {ending : List Token}
    (hending : ∀ t ∈ ending.head?, t.kind = .endOfInput) :
    readTokens ⟨.standard, room + 2⟩ (f.1 :: after ++ (plus.1 :: y.1 :: ending)) =
      .ok (some (make .standard o.op.head [lhs, .ofSymbol y] (lhs.loc.union y.1.loc))) := by
  have hends : kind ≠ .endOfInput := by
    rintro rfl
    cases o.found
  have hfree : ∀ t ∈ [plus.1, y.1], t.kind ≠ .endOfInput := by simp [plus.2, y.2, hends]
  have hrest : (State.ofTokens (plus.1 :: y.1 :: ending)).rest = [plus.1, y.1] :=
    rest_ofTokens_append hfree hending
  refine readTokens_of_chain (h.kind_current _) ?_
  have hrun := h.chain (.ofTokens (f.1 :: after ++ (plus.1 :: y.1 :: ending))) [plus.1, y.1] room
    rfl (by rw [State.current_before_cons, plus.2]; exact o.isLooser)
  rw [← hrest, h.before_eq, hrest] at hrun
  generalize hs : State.ofTokens (f.1 :: after ++ (plus.1 :: y.1 :: ending)) = s at hrun ⊢
  -- the operator takes the symbol after it, and nothing is left
  have hy : expression .standard (room + 1) o.op.rightPrecedence (s.before [y.1]) =
      .ok (.ofSymbol y) (s.before []) :=
    expression_symbol (hs ▸ rfl) (stops_of_mem_chainEnds List.mem_cons_self _)
  have hturn : trailing .standard (expression .standard (room + 1)) 0 lhs
      (s.before [plus.1, y.1]) = .ok (.again (make .standard o.op.head [lhs, .ofSymbol y]
        (lhs.loc.union y.1.loc))) (s.before []) :=
    trailing_general plus.2 o.found o.general (by simp [o.flat]) UInt16.zero_le hy
  rw [hrun, iterate_again hturn (by simp)]
  exact iterate_of_stops (stops_of_mem_chainEnds List.mem_cons_self 0)

/-- Over an application of its head the operator goes on with the arguments. -/
theorem bare_make_apply (o : FlatOperator kind) (hf : o.op.head = canonicalName f.1.text)
    {x y : TokenOf .symbol} {loc loc' : Location} :
    (make .standard o.op.head [apply (.ofSymbol f) [.ofSymbol x] loc, .ofSymbol y] loc').bare =
      (apply (.ofSymbol f) [.ofSymbol x, .ofSymbol y] .zero).bare := by
  have hopen : (apply (.ofSymbol f) [.ofSymbol x] loc).isOpenNode o.op.head = true := by
    simp [apply, ofSymbol, isOpenNode, headName?, symbolName?, isParenthesized, hf]
  have hargs : arguments .standard o.op.head [apply (.ofSymbol f) [.ofSymbol x] loc, .ofSymbol y] =
      [.ofSymbol x, .ofSymbol y] := by
    rw [arguments, if_pos o.isFlat_head, List.flatMap_cons, contribution, if_pos hopen]
    rfl
  rw [make, hargs, hf]
  simp [apply, ofSymbol]

/-- Over one in brackets the operator makes a node of its own. -/
theorem bare_make_parenthesize (o : FlatOperator kind) (hf : o.op.head = canonicalName f.1.text)
    {x y : TokenOf .symbol} {loc loc' : Location} :
    (make .standard o.op.head
        [(apply (.ofSymbol f) [.ofSymbol x] loc).parenthesize, .ofSymbol y] loc').bare =
      (apply (.ofSymbol f) [apply (.ofSymbol f) [.ofSymbol x] .zero, .ofSymbol y] .zero).bare := by
  have hclosed : (apply (.ofSymbol f) [.ofSymbol x] loc).parenthesize.isOpenNode o.op.head =
      false := by
    simp [apply, parenthesize, isOpenNode, isParenthesized]
  have hargs : arguments .standard o.op.head
      [(apply (.ofSymbol f) [.ofSymbol x] loc).parenthesize, .ofSymbol y] =
        [(apply (.ofSymbol f) [.ofSymbol x] loc).parenthesize, .ofSymbol y] := by
    rw [arguments, if_pos o.isFlat_head, List.flatMap_cons, contribution, hclosed]
    rfl
  rw [make, hargs, hf]
  simp [bare_parenthesize, apply, ofSymbol]

/-- Before anything that binds less tightly than an application, is no colon and looks for no head
    that `f` is, `f @ x` and `f[x]` are read as the same full form, or fail with the same error.
    Before a flat operator with the head `f` the operator takes the application for a node of its
    own, unless it is written with brackets. -/
theorem readTokens_prefixApplication (f x : TokenOf .symbol) (sign : TokenOf .prefixMark)
    (opening : TokenOf .leftBracket) (closing : TokenOf .rightBracket) (limit : Nat) :
    (∀ w : List Token,
      (∀ t ∈ w.head?, IsLooser t.kind ∧ canonicalName f.1.text ∉ takenUp t.kind) →
      (readTokens ⟨.standard, limit⟩ ([f.1, sign.1, x.1] ++ w)).map (Option.map text) =
        (readTokens ⟨.standard, limit⟩ ([f.1, opening.1, x.1, closing.1] ++ w)).map
          (Option.map text)) ∧
    ∀ (kind : TokenKind) (o : FlatOperator kind) (plus : TokenOf kind) (y : TokenOf .symbol)
      (ending : List Token), o.op.head = canonicalName f.1.text →
      (∀ t ∈ ending.head?, t.kind = .endOfInput) → 2 ≤ limit →
      (readTokens ⟨.standard, limit⟩ ([f.1, sign.1, x.1] ++ plus.1 :: y.1 :: ending)).map
          (Option.map text) =
        .ok (some (apply (.ofSymbol f) [.ofSymbol x, .ofSymbol y] .zero).text) ∧
      (readTokens ⟨.standard, limit⟩
          ([f.1, opening.1, x.1, closing.1] ++ plus.1 :: y.1 :: ending)).map (Option.map text) =
        .ok (some (apply (.ofSymbol f)
          [apply (.ofSymbol f) [.ofSymbol x] .zero, .ofSymbol y] .zero).text) := by
  have hopen := opens_application f x sign
  have hcall := opens_call f x opening closing
  refine ⟨fun w hw => ?_, fun kind o plus y ending hf hending hlimit => ?_⟩
  · -- what comes next neither binds tightly nor takes up nodes of the head
    have hcurrent : IsLooser (State.ofTokens w).current.kind ∧
        canonicalName f.1.text ∉ takenUp (State.ofTokens w).current.kind := by
      rw [kind_current_ofTokens]
      cases w with
      | nil => exact ⟨by decide, List.not_mem_nil⟩
      | cons t w => exact hw t rfl
    exact map_text_readTokens_eq hopen hcall hcurrent.1 (twin_application hcurrent.2)
  · -- an operator with the same head, which takes up the open application only
    obtain ⟨room, rfl⟩ : ∃ n, limit = n + 2 := ⟨limit - 2, by omega⟩
    refine ⟨(congrArg _ (hopen.readTokens_flat o plus y hending)).trans ?_,
      (congrArg _ (hcall.readTokens_flat o plus y hending)).trans ?_⟩
    · exact congrArg (Except.ok ∘ some) (text_eq_of_bare (bare_make_apply o hf))
    · exact congrArg (Except.ok ∘ some) (text_eq_of_bare (bare_make_parenthesize o hf))

def plusOperator : FlatOperator .plus where
  op := .infixed .plus "Plus" 310 .flat
  found := rfl
  general := rfl
  flat := rfl
  looser := by decide

/-- The tokens of `+ y`. -/
def plusY : List Token :=
  [⟨.plus, "+", ⟨9, 10⟩⟩, ⟨.symbol, "y", ⟨11, 12⟩⟩]

/-- `f @ x + y` is read as `f[x] + y`, but `Plus @ x + y` is not read as `Plus[x] + y`. -/
theorem readTokens_plusY :
    (∀ t ∈ plusY.head?, IsLooser t.kind ∧ canonicalName "f" ∉ takenUp t.kind) ∧
      (readTokens ⟨.standard, 128⟩ ([⟨.symbol, "f", ⟨0, 1⟩⟩, ⟨.prefixMark, "@", ⟨5, 6⟩⟩,
          ⟨.symbol, "x", ⟨7, 8⟩⟩] ++ plusY)).map (Option.map text) =
        (readTokens ⟨.standard, 128⟩ ([⟨.symbol, "f", ⟨0, 1⟩⟩, ⟨.leftBracket, "[", ⟨5, 6⟩⟩,
          ⟨.symbol, "x", ⟨7, 8⟩⟩, ⟨.rightBracket, "]", ⟨8, 9⟩⟩] ++ plusY)).map
            (Option.map text) ∧
    plusOperator.op.head = canonicalName "Plus" ∧
      (readTokens ⟨.standard, 2⟩ ([⟨.symbol, "Plus", ⟨0, 4⟩⟩, ⟨.prefixMark, "@", ⟨5, 6⟩⟩,
          ⟨.symbol, "x", ⟨7, 8⟩⟩] ++ plusY)).map (Option.map text) =
        .ok (some "Plus[x, y]") := by
  have hf : ∀ t ∈ plusY.head?, IsLooser t.kind ∧ canonicalName "f" ∉ takenUp t.kind := by
    rintro t ⟨⟩
    exact ⟨by decide, by decide +kernel⟩
  have hplus : plusOperator.op.head = canonicalName "Plus" := by decide +kernel
  refine ⟨hf, ?_, hplus, ?_⟩
  · exact (readTokens_prefixApplication (.placed .symbol "f" 0 1) (.placed .symbol "x" 7 8)
      (.placed .prefixMark "@" 5 6) (.placed .leftBracket "[" 5 6)
      (.placed .rightBracket "]" 8 9) 128).1 plusY hf
  · -- `Plus @ x + y` is taken for one sum
    have htext : (apply (.ofSymbol (.placed .symbol "Plus" 0 4))
        [.ofSymbol (.placed .symbol "x" 7 8), .ofSymbol (.placed .symbol "y" 11 12)] .zero).text =
          "Plus[x, y]" := by decide +kernel
    have hread := ((readTokens_prefixApplication (.placed .symbol "Plus" 0 4)
      (.placed .symbol "x" 7 8) (.placed .prefixMark "@" 5 6) (.placed .leftBracket "[" 5 6)
      (.placed .rightBracket "]" 8 9) 2).2 .plus plusOperator (.placed .plus "+" 9 10)
      (.placed .symbol "y" 11 12) [] hplus (fun _ h => nomatch h) (by decide)).1
    rw [htext] at hread
    exact hread

/-- The tokens of `Plus @ x + y`. -/
def plusApplied : List Token :=
  [⟨.symbol, "Plus", ⟨0, 4⟩⟩, ⟨.prefixMark, "@", ⟨5, 6⟩⟩, ⟨.symbol, "x", ⟨7, 8⟩⟩,
    ⟨.plus, "+", ⟨9, 10⟩⟩, ⟨.symbol, "y", ⟨11, 12⟩⟩, .endOfInput ⟨12, 12⟩]

/-- The tokens of `Plus[x] + y`. -/
def plusCalled : List Token :=
  [⟨.symbol, "Plus", ⟨0, 4⟩⟩, ⟨.leftBracket, "[", ⟨4, 5⟩⟩, ⟨.symbol, "x", ⟨5, 6⟩⟩,
    ⟨.rightBracket, "]", ⟨6, 7⟩⟩, ⟨.plus, "+", ⟨8, 9⟩⟩, ⟨.symbol, "y", ⟨10, 11⟩⟩,
    .endOfInput ⟨11, 11⟩]

/-- The tokens of `f @ x : y`. -/
def patternApplied : List Token :=
  [⟨.symbol, "f", ⟨0, 1⟩⟩, ⟨.prefixMark, "@", ⟨2, 3⟩⟩, ⟨.symbol, "x", ⟨4, 5⟩⟩,
    ⟨.rawColon, ":", ⟨6, 7⟩⟩, ⟨.symbol, "y", ⟨8, 9⟩⟩, .endOfInput ⟨9, 9⟩]

/-- The tokens of `f[x] : y`. -/
def patternCalled : List Token :=
  [⟨.symbol, "f", ⟨0, 1⟩⟩, ⟨.leftBracket, "[", ⟨1, 2⟩⟩, ⟨.symbol, "x", ⟨2, 3⟩⟩,
    ⟨.rightBracket, "]", ⟨3, 4⟩⟩, ⟨.rawColon, ":", ⟨5, 6⟩⟩, ⟨.symbol, "y", ⟨7, 8⟩⟩,
    .endOfInput ⟨8, 8⟩]

/-- Sums and colons bind less tightly than applications, but `Plus @ x + y` and `f @ x : y` are not
    read as `Plus[x] + y` and `f[x] : y` are. -/
theorem readTokens_applied_differ :
    (∀ kind ∈ [TokenKind.plus, .rawColon], ∃ q, OperatorTable.standard.grip? kind = some q ∧
      q < 640) ∧
    (readTokens ⟨.standard, 128⟩ plusApplied).map (Option.map text) = .ok (some "Plus[x, y]") ∧
    (readTokens ⟨.standard, 128⟩ plusCalled).map (Option.map text) =
      .ok (some "Plus[Plus[x], y]") ∧
    (readTokens ⟨.standard, 128⟩ patternApplied).map (Option.map text) =
      .ok (some "f[Pattern[x, y]]") ∧
    (readTokens ⟨.standard, 128⟩ patternCalled).map (Option.map text) =
      .error (.unexpectedToken ⟨5, 6⟩ .rawColon) := by
  refine ⟨?_, by decide +kernel, by decide +kernel, by decide +kernel, by decide +kernel⟩
  intro kind hkind
  simp only [List.mem_cons, List.not_mem_nil, or_false] at hkind
  rcases hkind with rfl | rfl
  · exact ⟨310, by decide⟩
  · exact ⟨150, by decide⟩

end Symbolic.Application
