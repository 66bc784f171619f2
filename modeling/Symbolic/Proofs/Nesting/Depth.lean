import Symbolic.Proofs.Reader.Room
import Symbolic.Proofs.Spans.Reading

/-!
# How deep expressions may nest

Brackets of all kinds, calls, parts and prefix operators are each read by a rule of its own, and
each takes one level of the room for nesting. So a stack of them around a symbol is read in any
room that is larger than the stack. In no more room than that the reader gives up at the first
token within as many of them as there is room for, whatever comes after that token.

## Key results

- `Wrapper.chain_ok`, `Wrapper.chain_error`: what the rule of each wrapper makes of what is inside
- `expression_nested`: a stack is read in any room that is larger
- `exists_expression_error`: where the room ends, the reader gives up
- `readTokens_nested`: how deep whole inputs may nest
-/

namespace Symbolic

namespace Nesting

open Reader Parse Spans

/-! ## Wrappers -/

/-- One level of nesting: brackets, or a prefix operator. -/
inductive Wrapper where
  | group (opening : TokenOf .leftParen) (closing : TokenOf .rightParen)
  | list (opening : TokenOf .leftBrace) (closing : TokenOf .rightBrace)
  | association (opening : TokenOf .leftAssociation) (closing : TokenOf .rightAssociation)
  | call (f : TokenOf .symbol) (opening : TokenOf .leftBracket) (closing : TokenOf .rightBracket)
  | part (a : TokenOf .symbol) (opening inner : TokenOf .leftBracket)
      (closing closing' : TokenOf .rightBracket)
  | minus (sign : TokenOf .minus)
  | not (sign : TokenOf .factorial)

namespace Wrapper

/-- The tokens before what is inside. -/
def openings : Wrapper → List Token
  | group opening _ => [opening]
  | list opening _ => [opening]
  | association opening _ => [opening]
  | call f opening _ => [f, opening]
  | part a opening inner _ _ => [a, opening, inner]
  | minus sign => [sign]
  | not sign => [sign]

/-- The tokens after what is inside. -/
def closings : Wrapper → List Token
  | group _ closing => [closing]
  | list _ closing => [closing]
  | association _ closing => [closing]
  | call _ _ closing => [closing]
  | part _ _ _ closing closing' => [closing, closing']
  | minus _ | not _ => []

/-- What the wrapper makes of the expression inside. -/
def tree (e : Expr) : Wrapper → Expr
  | group opening closing => grouped (opening.1.loc.union closing.1.loc) e
  | list opening closing => .make .standard "List" [e] (opening.1.loc.union closing.1.loc)
  | association opening closing =>
    .make .standard "Association" [e] (opening.1.loc.union closing.1.loc)
  | call f _ closing =>
    (Expr.apply (.ofSymbol f) [e] (f.1.loc.union closing.1.loc)).parenthesize
  | part a _ _ _ closing' =>
    .make .standard "Part" [.ofSymbol a, e] (a.1.loc.union closing'.1.loc)
  | minus sign => .negate .standard "Times" e sign.1.loc (sign.1.loc.union e.loc)
  | not sign => .make .standard "Not" [e] (sign.1.loc.union e.loc)

/-- How tightly the operators inside have to bind. -/
def precedence : Wrapper → Precedence
  | minus _ => 480
  | not _ => 230
  | _ => 0

/-- The reader inside the brackets, if there are any. -/
def inside (s : State) : Wrapper → State
  | group opening _ => s.within opening.1.loc
  | list opening _ => s.within opening.1.loc
  | association opening _ => s.within opening.1.loc
  | call _ opening _ => s.within opening.1.loc
  | part _ opening _ _ _ => s.within opening.1.loc
  | minus _ | not _ => s

end Wrapper

/-- The tokens of a stack of wrappers around a symbol, the outermost first. -/
def nested (x : TokenOf .symbol) : List Wrapper → List Token
  | [] => [x]
  | w :: ws => w.openings ++ (nested x ws ++ w.closings)

/-- The tokens before what is inside all of the wrappers. -/
def openings (ws : List Wrapper) : List Token :=
  ws.flatMap Wrapper.openings

/-- What a stack of wrappers around a symbol stands for. -/
def nestedTree (x : TokenOf .symbol) : List Wrapper → Expr
  | [] => .ofSymbol x
  | w :: ws => w.tree (nestedTree x ws)

variable {s s' : State} {expr : Precedence → Parse Expr} {tokens rest : List Token}
  {w : Wrapper} {ws : List Wrapper} {x : TokenOf .symbol} {p : Precedence} {e : Expr}
  {error : SyntaxError} {t : Token}

/-- The inside of a wrapper is read at the precedence of brackets at most. -/
theorem Wrapper.precedence_le (w : Wrapper) : w.precedence ≤ 670 := by
  unfold precedence
  split <;> decide

/-- Within a wrapper the reader remembers what it did before. -/
@[simp] theorem Wrapper.failures_inside : (w.inside s).failures = s.failures := by
  cases w <;> rfl

/-! ## The tokens of a stack -/

/-- The kinds of token that a wrapper or a symbol starts with. -/
def starts : List TokenKind :=
  [.symbol, .leftParen, .leftBrace, .leftAssociation, .minus, .factorial]

/-- What a stack starts with neither ends an operand nor follows one as a part. -/
theorem endsOperand_of_mem_starts {kind : TokenKind} (h : kind ∈ starts) :
    kind.endsOperand = false ∧ kind ≠ .leftBracket ∧ kind ≠ .endOfInput := by
  revert h
  cases kind <;> decide

/-- A wrapper starts with a token that leads an expression. -/
theorem Wrapper.exists_openings_eq_cons (w : Wrapper) :
    ∃ t after, w.openings = t :: after ∧ t.kind ∈ starts := by
  cases w with
  | group opening | list opening | association opening | minus opening | not opening =>
    exact ⟨_, _, rfl, by rw [opening.2]; decide⟩
  | call f | part f => exact ⟨_, _, rfl, by rw [f.2]; decide⟩

/-- So does a stack. -/
theorem exists_nested_eq_cons (x : TokenOf .symbol) (ws : List Wrapper) :
    ∃ t after, nested x ws = t :: after ∧ t.kind ∈ starts := by
  cases ws with
  | nil => exact ⟨x, [], rfl, by rw [x.2]; decide⟩
  | cons w ws =>
    obtain ⟨t, after, heq, hstart⟩ := w.exists_openings_eq_cons
    exact ⟨t, after ++ (nested x ws ++ w.closings), by rw [nested, heq]; rfl, hstart⟩

/-- So do the openings of a stack before such a token. -/
theorem exists_openings_append_eq_cons (ws : List Wrapper) (ht : t.kind ∈ starts)
    (rest : List Token) :
    ∃ first after, openings ws ++ t :: rest = first :: after ∧ first.kind ∈ starts := by
  cases ws with
  | nil => exact ⟨t, rest, rfl, ht⟩
  | cons w ws =>
    obtain ⟨first, after, heq, hstart⟩ := w.exists_openings_eq_cons
    refine ⟨first, after ++ (openings ws ++ t :: rest), ?_, hstart⟩
    rw [openings, List.flatMap_cons, heq]
    simp [openings]

/-- A stack starts with what comes before the inside of any of its wrappers. -/
theorem openings_take_prefix (n : Nat) (ws : List Wrapper) :
    openings (ws.take n) ++ nested x (ws.drop n) <+: nested x ws := by
  induction n generalizing ws with
  | zero => exact List.prefix_refl _
  | succ n ih =>
    cases ws with
    | nil => exact List.prefix_refl _
    | cons w ws =>
      rw [List.take_succ_cons, List.drop_succ_cons, openings, List.flatMap_cons, List.append_assoc,
        nested]
      exact (List.prefix_append_right_inj _).mpr ((ih ws).trans (List.prefix_append _ _))

/-- A wrapper holds no end of the input. -/
theorem Wrapper.endFree (w : Wrapper) :
    ∀ t ∈ w.openings ++ w.closings, t.kind ≠ .endOfInput := by
  cases w with
  | group opening closing => simp [openings, closings, opening.2, closing.2]
  | list opening closing => simp [openings, closings, opening.2, closing.2]
  | association opening closing => simp [openings, closings, opening.2, closing.2]
  | call f opening closing => simp [openings, closings, f.2, opening.2, closing.2]
  | part a opening inner closing closing' =>
    simp [openings, closings, a.2, opening.2, inner.2, closing.2, closing'.2]
  | minus sign => simp [openings, closings, sign.2]
  | not sign => simp [openings, closings, sign.2]

/-- Neither do the openings of a stack. -/
theorem endFree_openings (ws : List Wrapper) : ∀ t ∈ openings ws, t.kind ≠ .endOfInput := by
  intro t ht
  obtain ⟨w, -, hw⟩ := List.mem_flatMap.mp ht
  exact w.endFree t (List.mem_append_left _ hw)

/-- Nor does a stack. -/
theorem endFree_nested (x : TokenOf .symbol) (ws : List Wrapper) :
    ∀ t ∈ nested x ws, t.kind ≠ .endOfInput := by
  induction ws with
  | nil => simp [nested, x.2]
  | cons w ws ih =>
    intro t ht
    rw [nested, List.mem_append, List.mem_append] at ht
    rcases ht with ht | ht | ht
    · exact w.endFree t (List.mem_append_left _ ht)
    · exact ih t ht
    · exact w.endFree t (List.mem_append_right _ ht)

/-! ## One wrapper -/

/-- An exclamation mark before an operand is a `Not`. -/
theorem leading_not (ht : t.kind = .factorial) :
    leading .standard expr (s.before (t :: tokens)) =
      prefixedNode .standard expr (.prefixed .factorial "Not" 230) (s.before (t :: tokens)) := by
  have hfound : OperatorTable.standard.lookup? .factorial .prefixed =
      some (.prefixed .factorial "Not" 230) := rfl
  rw [leading_prefixed ht hfound]
  rfl

/-- A group fails as what is inside it does. -/
theorem leading_group_error (ht : t.kind = .leftParen)
    (h : expr 0 ((s.within t.loc).before tokens) = .error error s') :
    leading .standard expr (s.before (t :: tokens)) = .error error s' := by
  unfold leading
  rw [peek_bind, State.current_before_cons, ht]
  show group expr _ = _
  unfold group
  rw [openBracket_bind]
  exact bind_error h

/-- An operand fails as the brackets behind it do. -/
theorem callOrPart_error {lhs : Expr} (ht : t.kind = .leftBracket) (hp : p ≤ 670)
    (h : callOrPart .standard expr lhs (.postfixed .leftBracket "Part" 670)
      (s.before (t :: tokens)) = .error error s') :
    iterate (trailing .standard expr p) lhs (s.before (t :: tokens)) = .error error s' := by
  have hfound : OperatorTable.standard.trailing? .leftBracket =
      some (.postfixed .leftBracket "Part" 670) := rfl
  have hturn : trailing .standard expr p lhs (s.before (t :: tokens)) = .error error s' := by
    rw [trailing_extended ht hfound (by decide) hp]
    exact map_error _ h
  exact iterate_error hturn

/-- A call fails as its arguments do. -/
theorem call_error {opening : Token} {lhs : Expr} (hopening : opening.kind = .leftBracket)
    (hp : p ≤ 670) (ht : t.kind ≠ .leftBracket)
    (h : sequence expr .rightBracket ((s.within opening.loc).before (t :: tokens)) =
      .error error s') :
    iterate (trailing .standard expr p) lhs (s.before (opening :: t :: tokens)) =
      .error error s' := by
  refine callOrPart_error hopening hp ?_
  unfold callOrPart
  rw [openBracket_bind, peek_bind, State.current_before_cons, if_neg ht]
  exact bind_error h

/-- A part fails as its indices do. -/
theorem part_error {opening inner : Token} {lhs : Expr} (hopening : opening.kind = .leftBracket)
    (hinner : inner.kind = .leftBracket) (hp : p ≤ 670)
    (h : sequence expr .rightBracket ((s.within opening.loc).before tokens) = .error error s') :
    iterate (trailing .standard expr p) lhs (s.before (opening :: inner :: tokens)) =
      .error error s' := by
  refine callOrPart_error hopening hp ?_
  unfold callOrPart
  rw [openBracket_bind, peek_bind, State.current_before_cons, if_pos hinner]
  unfold part
  rw [advance_bind]
  exact bind_error h

/-- A node between brackets fails as what is inside them does. -/
theorem bracketed_error {head : String} {closer : TokenKind}
    (h : sequence expr closer ((s.within t.loc).before tokens) = .error error s') :
    bracketed .standard expr head closer (s.before (t :: tokens)) = .error error s' := by
  unfold bracketed
  rw [openBracket_bind]
  exact bind_error h

namespace Wrapper

/-- What is inside ends before a token that ends every operand, as the wrapper does. -/
theorem inside_mem_chainEnds (w : Wrapper) (hrest : (s.before rest).current.kind ∈ chainEnds) :
    ((w.inside s).before (w.closings ++ rest)).current.kind ∈ chainEnds := by
  cases w with
  | group _ closing | list _ closing | association _ closing | call _ _ closing
  | part _ _ _ closing _ =>
    show closing.1.kind ∈ chainEnds
    rw [closing.2]
    decide
  | minus _ | not _ => exact hrest

/-- Where what is inside a wrapper is read, the wrapper is. -/
theorem chain_ok {inner : List Token} (w : Wrapper) (hp : p ≤ 670)
    (hinner : ∃ t after, inner = t :: after ∧ t.kind ∈ starts)
    (hrest : (s.before rest).current.kind ∈ chainEnds)
    (h : expr w.precedence ((w.inside s).before (inner ++ (w.closings ++ rest))) =
      .ok e ((w.inside s).before (w.closings ++ rest))) :
    chain .standard expr p (s.before (w.openings ++ (inner ++ (w.closings ++ rest)))) =
      .ok (w.tree e) (s.before rest) := by
  obtain ⟨t, after, rfl, hstart⟩ := hinner
  obtain ⟨hends, hpart, -⟩ := endsOperand_of_mem_starts hstart
  -- nothing extends the wrapper, whose end is before a token that ends every operand
  have hdone : ∀ e', iterate (trailing .standard expr p) e' (s.before rest) =
      .ok e' (s.before rest) :=
    fun e' => iterate_of_stops (stops_of_mem_chainEnds hrest p)
  cases w with
  | group opening closing =>
    -- a group is read by its own rule
    exact Reader.chain_ok (leading_group opening.2 rfl h closing.2) (hdone _)
  | list opening closing =>
    have hsequence := sequence_one (by decide) (by exact hends) h closing.2
    exact Reader.chain_ok (leading_list opening.2 hsequence closing.2) (hdone _)
  | association opening closing =>
    have hsequence := sequence_one (by decide) (by exact hends) h closing.2
    exact Reader.chain_ok (leading_association opening.2 hsequence closing.2) (hdone _)
  | call f opening closing =>
    -- a call goes on from its symbol, behind which no part may start
    have hsequence := sequence_one (by decide) (by exact hends) h closing.2
    refine Reader.chain_ok (leading_symbol rfl f) ?_
    refine (iterate_again (trailing_call opening.2 (by exact hpart) hsequence closing.2 hp)
      ?_).trans (hdone _)
    simp only [State.rest_before, closings, List.append_eq, List.length_cons, List.length_append]
    omega
  | part a opening inner closing closing' =>
    have hsequence := sequence_one (by decide) (by exact hends) h closing.2
    refine Reader.chain_ok (leading_symbol rfl a) ?_
    refine (iterate_again (trailing_part opening.2 inner.2 hsequence closing.2 closing'.2 hp)
      ?_).trans (hdone _)
    simp only [State.rest_before, closings, List.append_eq, List.length_cons, List.length_append]
    omega
  | minus sign =>
    exact Reader.chain_ok (leading_minus sign.2 h) (hdone _)
  | not sign =>
    refine Reader.chain_ok ((leading_not sign.2).trans ?_) (hdone _)
    unfold prefixedNode
    rw [advance_bind]
    exact (bind_ok _ h).trans rfl

/-- A wrapper fails as what is inside it does. -/
theorem chain_error (w : Wrapper) (hp : p ≤ 670) (hstart : t.kind ∈ starts)
    (h : expr w.precedence ((w.inside s).before (t :: tokens)) = .error error s') :
    chain .standard expr p (s.before (w.openings ++ t :: tokens)) = .error error s' := by
  obtain ⟨hends, hpart, -⟩ := endsOperand_of_mem_starts hstart
  -- brackets and signs lead an operand, a call or a part goes on from the symbol that leads it
  cases w with
  | group opening closing => exact bind_error (leading_group_error opening.2 h)
  | list opening closing =>
    refine bind_error ?_
    unfold leading
    rw [peek_bind, openings, List.singleton_append, State.current_before_cons, opening.2]
    exact bracketed_error (sequence_error (by decide) hends h)
  | association opening closing =>
    refine bind_error ?_
    unfold leading
    rw [peek_bind, openings, List.singleton_append, State.current_before_cons, opening.2]
    exact bracketed_error (sequence_error (by decide) hends h)
  | call f opening closing =>
    exact (chain_of_leading (leading_symbol rfl f)).trans
      (call_error opening.2 hp hpart (sequence_error (by decide) hends h))
  | part a opening inner closing closing' =>
    exact (chain_of_leading (leading_symbol rfl a)).trans
      (part_error opening.2 inner.2 hp (sequence_error (by decide) hends h))
  | minus sign =>
    refine bind_error ((leading_prefixed sign.2 rfl).trans ?_)
    -- a sign has no bracket, so the error is that of its operand
    show Reader.minus .standard expr (.prefixed .minus "Times" 480) _ = _
    unfold Reader.minus
    rw [advance_bind]
    exact bind_error h
  | not sign =>
    refine bind_error ((leading_not sign.2).trans ?_)
    unfold prefixedNode
    rw [advance_bind]
    exact bind_error h

end Wrapper

/-! ## Stacks of wrappers -/

/-- With more room than wrappers, a stack is read as what it stands for. -/
theorem expression_nested {room : Nat} (hroom : ws.length < room) (hp : p ≤ 670)
    (hrest : (s.before rest).current.kind ∈ chainEnds) :
    Forgetful.expression .standard room p (s.before (nested x ws ++ rest)) =
      .ok (nestedTree x ws) (s.before rest) := by
  induction ws generalizing room p s rest with
  | nil =>
    obtain ⟨room, rfl⟩ : ∃ n, room = n + 1 := ⟨room - 1, by omega⟩
    exact chain_ok (leading_symbol rfl x) (iterate_of_stops (stops_of_mem_chainEnds hrest p))
  | cons w ws ih =>
    rw [List.length_cons] at hroom
    obtain ⟨room, rfl⟩ : ∃ n, room = n + 1 := ⟨room - 1, by omega⟩
    rw [nested, List.append_assoc, List.append_assoc]
    exact w.chain_ok hp (exists_nested_eq_cons x ws) hrest
      (ih (by omega) w.precedence_le (w.inside_mem_chainEnds hrest))

/-- Once there are as many wrappers around a reader as it has room for, it gives up at the token
    that is next. -/
theorem exists_expression_error (ht : t.kind ∈ starts) (hp : p ≤ 670) (hs : s.failures = []) :
    ∃ s', expression .standard ws.length p (s.before (openings ws ++ t :: rest)) =
      .error (.recursionLimitExceeded t.loc) s' := by
  induction ws generalizing p s with
  | nil => exact ⟨s.before (t :: rest), rfl⟩
  | cons w ws ih =>
    obtain ⟨s', herror⟩ := ih (s := w.inside s) w.precedence_le (w.failures_inside.trans hs)
    obtain ⟨first, after, heq, hstart⟩ := exists_openings_append_eq_cons ws ht rest
    rw [heq] at herror
    rw [openings, List.flatMap_cons, List.append_assoc, ← openings, heq]
    -- running out of room is not remembered, and nothing has been before
    exact ⟨s', remember_error_of_final hs rfl (w.chain_error hp hstart herror)⟩

/-! ## Whole inputs -/

/-- A stack that there is room for is read. -/
theorem readTokens_of_lt (limit : Nat) (h : ws.length < limit) {ending : List Token}
    (hending : ∀ t ∈ ending.head?, t.kind = .endOfInput) :
    readTokens ⟨.standard, limit⟩ (nested x ws ++ ending) = .ok (some (nestedTree x ws)) := by
  obtain ⟨t, after, heq, -⟩ := exists_nested_eq_cons x ws
  have hne : nested x ws ≠ [] := by simp [heq]
  refine readTokens_of_expression (endFree_nested x ws) hne hending ?_
  have hread : ∀ s : State, Forgetful.expression .standard limit 0 (s.before (nested x ws ++ [])) =
      .ok (nestedTree x ws) (s.before []) :=
    fun s => expression_nested h (by decide) List.mem_cons_self
  rw [List.append_nil] at hread
  exact hread _

/-- A stack that there is no room for is refused at the token where the room ends. -/
theorem readTokens_error (ht : t.kind ∈ starts) {input : List Token}
    (hinput : openings ws ++ [t] <+: input) :
    readTokens ⟨.standard, ws.length⟩ input = .error (.recursionLimitExceeded t.loc) := by
  obtain ⟨rest, rfl⟩ := hinput
  -- the reader starts before all of these tokens, as no end is among them
  obtain ⟨after, hrest⟩ : ∃ after, (State.ofTokens (openings ws ++ [t] ++ rest)).rest =
      openings ws ++ t :: after := by
    have hends := (endsOperand_of_mem_starts ht).2.2
    rw [List.append_assoc, rest_ofTokens_more (endFree_openings ws)]
    exact ⟨(State.ofTokens rest).rest, by simp [State.ofTokens, hends]⟩
  obtain ⟨first, others, heq, hstart⟩ := exists_openings_append_eq_cons ws ht after
  have hkind : (State.ofTokens (openings ws ++ [t] ++ rest)).current.kind ≠ .endOfInput := by
    rw [State.current, hrest, heq]
    exact (endsOperand_of_mem_starts hstart).2.2
  obtain ⟨s', herror⟩ : ∃ s', expression .standard ws.length 0
      (State.ofTokens (openings ws ++ [t] ++ rest)) =
        .error (.recursionLimitExceeded t.loc) s' := by
    rw [← State.before_rest (s := .ofTokens _), hrest]
    exact exists_expression_error ht (by decide) rfl
  exact readTokens_eq_error hkind herror

/-- A stack of wrappers around a symbol is read in any room that is larger than the stack. In no
    more room than that, any input that goes as far as the first token inside as many wrappers as
    there is room for fails at this token. -/
theorem readTokens_nested (limit : Nat) (ws : List Wrapper) (x : TokenOf .symbol) :
    (ws.length < limit → ∀ ending : List Token, (∀ t ∈ ending.head?, t.kind = .endOfInput) →
      readTokens ⟨.standard, limit⟩ (nested x ws ++ ending) = .ok (some (nestedTree x ws))) ∧
    (limit ≤ ws.length → ∃ t after, nested x (ws.drop limit) = t :: after ∧
      openings (ws.take limit) ++ [t] <+: nested x ws ∧
      ∀ input, openings (ws.take limit) ++ [t] <+: input →
        readTokens ⟨.standard, limit⟩ input = .error (.recursionLimitExceeded t.loc)) := by
  refine ⟨fun h ending hending => readTokens_of_lt limit h hending, fun h => ?_⟩
  obtain ⟨t, after, heq, ht⟩ := exists_nested_eq_cons x (ws.drop limit)
  have hprefix : openings (ws.take limit) ++ [t] <+: nested x ws := by
    have htake := openings_take_prefix (x := x) limit ws
    rw [heq] at htake
    exact ((List.prefix_append_right_inj _).mpr (List.prefix_append [t] after)).trans htake
  refine ⟨t, after, heq, hprefix, fun input hinput => ?_⟩
  have herror := readTokens_error ht hinput
  rwa [List.length_take, Nat.min_eq_left h] at herror

/-- The wrappers of `-!{<|f[a[[(x)]]]|>}`, one of each kind. -/
def mixedStack : List Wrapper :=
  [.minus (.placed .minus "-" 0 1), .not (.placed .factorial "!" 1 2),
    .list (.placed .leftBrace "\x7b" 2 3) (.placed .rightBrace "\x7d" 18 19),
    .association (.placed .leftAssociation "<|" 3 5) (.placed .rightAssociation "|>" 16 18),
    .call (.placed .symbol "f" 5 6) (.placed .leftBracket "[" 6 7)
      (.placed .rightBracket "]" 15 16),
    .part (.placed .symbol "a" 7 8) (.placed .leftBracket "[" 8 9) (.placed .leftBracket "[" 9 10)
      (.placed .rightBracket "]" 13 14) (.placed .rightBracket "]" 14 15),
    .group (.placed .leftParen "(" 10 11) (.placed .rightParen ")" 12 13)]

/-- Room for eight expressions is enough for the seven wrappers. Room for five ends at `a`. -/
theorem readTokens_mixedStack :
    (mixedStack.length < 8 ∧
      readTokens ⟨.standard, 8⟩ (nested (.placed .symbol "x" 11 12) mixedStack) =
        .ok (some (nestedTree (.placed .symbol "x" 11 12) mixedStack))) ∧
    (5 ≤ mixedStack.length ∧
      readTokens ⟨.standard, 5⟩ (nested (.placed .symbol "x" 11 12) mixedStack) =
        .error (.recursionLimitExceeded ⟨7, 8⟩)) := by
  refine ⟨⟨by decide, ?_⟩, by decide, ?_⟩
  · have hread := (readTokens_nested 8 mixedStack (.placed .symbol "x" 11 12)).1 (by decide) []
      (fun _ h => nomatch h)
    rwa [List.append_nil] at hread
  · obtain ⟨t, after, heq, hprefix, herror⟩ :=
      (readTokens_nested 5 mixedStack (.placed .symbol "x" 11 12)).2 (by decide)
    obtain rfl : (TokenOf.placed .symbol "a" 7 8).1 = t := (List.cons.inj heq).1
    exact herror _ hprefix

end Nesting

end Symbolic
