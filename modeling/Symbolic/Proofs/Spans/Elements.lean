import Symbolic.Proofs.Spans.Reading

/-!
# Spans as inputs and as elements

A chain of spans is read in the same way where it is a whole input and where it is an element of a
list: expressions that are left over side by side are multiplied in either case.

## Key results

- `Aligned.program`, `Aligned.element`: expressions that are read one after the other
- `exists_readTokens_spans`: a chain by itself, between braces, and as an element among others
- `not_separate_missingStep`: a span whose step is a span
-/

namespace Symbolic.Spans

open Reader Parse Filter

variable {s : State} {room : Nat} {tail : List Token}

/-! ## Inputs and elements -/

theorem Aligned.program {expr : Precedence → Parse Expr} {s' : State} {es : List Expr}
    (h : Aligned expr s es s') (hend : s'.current.kind = .endOfInput) (exprs : List Expr) :
    iterate (programTurn expr) exprs s = .ok (Expr.juxtaposed? (exprs ++ es)) s' := by
  induction h generalizing exprs with
  | done s =>
    refine iterate_done ?_
    unfold programTurn
    rw [peek_bind, if_pos hend, List.append_nil]
    rfl
  | @next s s₁ s' e es starts read shorter rest ih =>
    -- a product that is to follow keeps the program from ending here
    have hne : s.current.kind ≠ .endOfInput := ne_of_not_endsOperand starts rfl
    have hturn : programTurn expr exprs s = .ok (.again (exprs ++ [e])) s₁ := by
      unfold programTurn
      rw [peek_bind, if_neg hne, bind_ok _ read]
      rfl
    rw [iterate_again hturn shorter, ih hend, List.append_assoc]
    rfl

theorem Aligned.elements {expr : Precedence → Parse Expr} {s' : State} {es : List Expr}
    {closer : TokenKind} (h : Aligned expr s es s') (hcloser : closer ∈ sequenceClosers)
    (hend : s'.current.kind = closer) (factors : List Expr) :
    iterate (elementTurn expr closer) factors s =
      .ok (Expr.juxtaposed? (factors ++ es)).toList s' := by
  induction h generalizing factors with
  | done s =>
    refine iterate_done ?_
    unfold elementTurn
    rw [peek_bind, if_pos (.inr hend), List.append_nil]
    rfl
  | next starts read shorter rest ih =>
    rw [iterate_again (elementTurn_again hcloser starts read) shorter, ih hend, List.append_assoc]
    rfl

/-- Expressions side by side are one element. -/
theorem Aligned.element {expr : Precedence → Parse Expr} {s' : State} {es : List Expr} {e : Expr}
    {closer : TokenKind} (h : Aligned expr s es s') (hproduct : Expr.juxtaposed? es = some e)
    (hcloser : closer ∈ sequenceClosers) (hend : s'.current.kind = closer) :
    s.current.kind.endsOperand = false ∧ element expr closer s = .ok [e] s' := by
  cases h with
  | done s => cases hproduct
  | next starts read shorter rest =>
    refine ⟨starts, ?_⟩
    unfold Reader.element
    rw [bind_ok _ read, rest.elements hcloser hend, List.singleton_append, hproduct]
    rfl

theorem endFree_chainTokens (first : Option Operand) (links : List Link) :
    ∀ t ∈ chainTokens first links, t.kind ≠ .endOfInput := by
  have hoperands : ∀ operand? : Option Operand,
      ∀ t ∈ operand?.toList.map Operand.token, t.kind ≠ .endOfInput := by
    intro operand? t ht
    obtain ⟨operand, -, rfl⟩ := List.mem_map.mp ht
    rcases operand.plain with h | h <;> simp [h]
  refine List.forall_mem_append.mpr ⟨hoperands first, fun t ht => ?_⟩
  obtain ⟨link, -, ht⟩ := List.mem_flatMap.mp ht
  rcases List.mem_cons.mp ht with rfl | ht
  · simp [link.isMark]
  · exact hoperands link.operand t ht

/-- Expressions that are read up to the end are read as their product, in any more room. -/
theorem Aligned.readTokens_eq {tokens ending : List Token} {es : List Expr} {e : Expr}
    (endFree : ∀ t ∈ tokens, t.kind ≠ .endOfInput)
    (hending : ∀ t ∈ ending.head?, t.kind = .endOfInput)
    (h : Aligned (Forgetful.expression .standard room)
      ((State.ofTokens (tokens ++ ending)).before tokens) es
      ((State.ofTokens (tokens ++ ending)).before []))
    (hproduct : Expr.juxtaposed? es = some e) {limit : Nat} (hle : room ≤ limit) :
    readTokens ⟨.standard, limit⟩ (tokens ++ ending) = .ok (some e) := by
  have hrest := rest_ofTokens_append endFree hending
  generalize hs : State.ofTokens (tokens ++ ending) = s at hrest h
  refine readTokens_of_le hle ?_ fun _ h => nomatch h
  have hprogram := h.program rfl []
  rw [← hrest, State.before_rest, List.nil_append, hproduct] at hprogram
  unfold Forgetful.readTokens Forgetful.program
  rw [hs, hprogram]

/-- By itself a chain is read as the product of its spans. -/
theorem exists_readTokens_chain (first : Option Operand) (link : Link) (links : List Link)
    (ending : List Token) (hending : ∀ t ∈ ending.head?, t.kind = .endOfInput) :
    ∃ e : Expr, e.eraseLocations = product (nestedSpans (startOf first) (link :: links)) ∧
      ∀ limit, nesting (link :: links) + 2 ≤ limit →
        readTokens ⟨.standard, limit⟩ (chainTokens first (link :: links) ++ ending) =
          .ok (some e) := by
  generalize hs : State.ofTokens (chainTokens first (link :: links) ++ ending) = s
  obtain ⟨es, e, he, hproduct, haligned⟩ := exists_product s [] List.mem_cons_self
    first link links (Nat.lt_succ_self _)
  rw [List.append_nil, ← hs] at haligned
  exact ⟨e, hproduct, fun limit hle => haligned.readTokens_eq (endFree_chainTokens first _) hending
    he hle⟩

/-- Between braces it is the one element of a list. -/
theorem exists_readTokens_braces (first : Option Operand) (link : Link) (links : List Link)
    {opening closing : Token} (hopening : opening.kind = .leftBrace)
    (hclosing : closing.kind = .rightBrace) {ending : List Token}
    (hending : ∀ t ∈ ending.head?, t.kind = .endOfInput) :
    ∃ e : Expr, e.eraseLocations = .node (.symbol "List" .zero)
        [product (nestedSpans (startOf first) (link :: links))] false .zero ∧
      ∀ limit, nesting (link :: links) + 3 ≤ limit →
        readTokens ⟨.standard, limit⟩
          (opening :: (chainTokens first (link :: links) ++ [closing]) ++ ending) =
            .ok (some e) := by
  generalize hs : State.ofTokens (opening :: (chainTokens first (link :: links) ++ [closing]) ++
    ending) = s
  have hends : ((s.within opening.loc).before [closing]).current.kind ∈ chainEnds := by
    show closing.kind ∈ chainEnds
    rw [hclosing]
    decide
  obtain ⟨es, e, he, hproduct, haligned⟩ :=
    exists_product _ _ hends first link links (Nat.lt_succ_self _)
  obtain ⟨hstart, helement⟩ := haligned.element he (by decide) hclosing
  -- the closing brace comes right after the element, so the sequence ends in its first turn
  have hsequence := iterate_done
    (a := []) (sequenceTurn_last (by decide) hstart helement hclosing)
  have hlist := chain_ok (p := 0) (leading_list hopening hsequence hclosing)
    (iterate_of_stops (stops_endOfInput 0))
  have endFree : ∀ t ∈ opening :: (chainTokens first (link :: links) ++ [closing]),
      t.kind ≠ .endOfInput := by
    simpa [or_imp, forall_and, hopening, hclosing] using endFree_chainTokens first (link :: links)
  refine ⟨.make .standard "List" [e] (opening.loc.union closing.loc), ?_, fun limit hle => ?_⟩
  · rw [eraseLocations_make (by decide), List.map_singleton, hproduct]
  · -- the list is the whole program, one product of the outermost turn
    have halone : Aligned (Forgetful.expression .standard (nesting (link :: links) + 3))
        (s.before (opening :: (chainTokens first (link :: links) ++ [closing])))
        [.make .standard "List" [e] (opening.loc.union closing.loc)] (s.before []) := by
      refine .next ?_ hlist ?_ (.done _)
      · show opening.kind.endsOperand = false
        rw [hopening]
        rfl
      · exact Nat.zero_lt_succ _
    rw [← hs] at halone
    exact halone.readTokens_eq endFree hending rfl hle

/-! ## Elements among others -/

/-- An element next to another one, with the comma between them. -/
structure Neighbour where
  tokens : List Token
  tree : Expr
  element : IsElement tokens tree
  comma : Token
  isComma : comma.kind = .comma

/-- The tokens of an element and of those before and after it. -/
def among (before : List Neighbour) (tokens : List Token) (after : List Neighbour) : List Token :=
  before.flatMap (fun other => other.tokens ++ [other.comma]) ++
    (tokens ++ after.flatMap fun other => other.comma :: other.tokens)

/-- The trees of an element and of those before and after it. -/
def treesAmong (before : List Neighbour) (tree : Expr) (after : List Neighbour) : List Expr :=
  before.map Neighbour.tree ++ tree :: after.map Neighbour.tree

theorem listed_among {tokens : List Token} {tree : Expr} (h : IsElement tokens tree)
    (before after : List Neighbour) :
    Listed (treesAmong before tree after) (among before tokens after) := by
  -- from the element on to the right, and then to the left of it
  have hafter : Listed (tree :: after.map Neighbour.tree)
      (tokens ++ after.flatMap fun other => other.comma :: other.tokens) := by
    induction after generalizing tokens tree with
    | nil => simpa using Listed.last h
    | cons other after ih => exact .cons h other.isComma (ih other.element)
  induction before with
  | nil => exact hafter
  | cons other before ih =>
    have hcons := Listed.cons other.element other.isComma ih
    simpa [among, treesAmong] using hcons

/-- An element among others is read as it is by itself, in anything that holds a sequence. -/
theorem exists_readTokens_of_isElement {element tokens ending : List Token} {x tree : Expr}
    {before after : List Neighbour} (helement : IsElement element x) (hne : element ≠ [])
    (henclosed : Enclosed (among before element after) (treesAmong before x after) tokens tree)
    (hending : ∀ t ∈ ending.head?, t.kind = .endOfInput) :
    ∃ e : Expr, e.eraseLocations = tree ∧
      ∀ᶠ limit in atTop, readTokens ⟨.standard, limit⟩ (tokens ++ ending) = .ok (some e) := by
  -- there are tokens between the brackets, so there are elements
  have hsome : elementsOf (among before element after) (treesAmong before x after) =
      treesAmong before x after := by
    refine if_neg ?_
    simp [among, hne]
  rw [← hsome] at henclosed
  exact henclosed.exists_readTokens (listed_among helement before after) hending

/-- As an element of a list a chain is read as it is by itself. -/
theorem exists_readTokens_among (first : Option Operand) (link : Link) (links : List Link)
    (before after : List Neighbour) {opening closing : Token}
    (hopening : opening.kind = .leftBrace) (hclosing : closing.kind = .rightBrace)
    {ending : List Token} (hending : ∀ t ∈ ending.head?, t.kind = .endOfInput) :
    ∃ e : Expr, e.eraseLocations = .node (.symbol "List" .zero)
        (treesAmong before (product (nestedSpans (startOf first) (link :: links))) after)
        false .zero ∧
      ∀ᶠ limit in atTop, readTokens ⟨.standard, limit⟩
        (opening :: (among before (chainTokens first (link :: links)) after ++ [closing]) ++
          ending) = .ok (some e) := by
  obtain ⟨e, he, hread⟩ := exists_readTokens_chain first link links [] Token.kind_of_mem_nil
  have helement : IsElement (chainTokens first (link :: links))
      (product (nestedSpans (startOf first) (link :: links))) := by
    rw [← he]
    have hchain := hread _ (Nat.le_refl _)
    rw [List.append_nil] at hchain
    exact .accepted (endFree_chainTokens first _) hchain
  have hne : chainTokens first (link :: links) ≠ [] := by
    simp [chainTokens, linkTokens, Link.tokens]
  exact exists_readTokens_of_isElement helement hne (.list hopening hclosing) hending

/-- Whatever operands are missing, a chain of spans is read as the product of the spans of the
    second reading: as an input and as the only element of a list, with room for the spans that are
    nested, and as an element of a list among others, with enough room for those. Just where every
    missing step is at the end this is the first reading, and then room for a span and its parts is
    enough, and no span is a part of another one. -/
theorem exists_readTokens_spans (first : Option Operand) (link : Link) (links : List Link)
    {ending : List Token} (hending : ∀ t ∈ ending.head?, t.kind = .endOfInput) :
    (∃ e : Expr, e.eraseLocations = product (nestedSpans (startOf first) (link :: links)) ∧
      ∀ limit, nesting (link :: links) + 2 ≤ limit →
        readTokens ⟨.standard, limit⟩ (chainTokens first (link :: links) ++ ending) =
          .ok (some e)) ∧
      (∀ opening closing : Token, opening.kind = .leftBrace → closing.kind = .rightBrace →
        (∃ e : Expr, e.eraseLocations = .node (.symbol "List" .zero)
            [product (nestedSpans (startOf first) (link :: links))] false .zero ∧
          ∀ limit, nesting (link :: links) + 3 ≤ limit →
            readTokens ⟨.standard, limit⟩
              (opening :: (chainTokens first (link :: links) ++ [closing]) ++ ending) =
                .ok (some e)) ∧
        ∀ before after : List Neighbour, ∃ e : Expr,
          e.eraseLocations = .node (.symbol "List" .zero)
            (treesAmong before (product (nestedSpans (startOf first) (link :: links))) after)
            false .zero ∧
          ∀ᶠ limit in atTop, readTokens ⟨.standard, limit⟩
            (opening :: (among before (chainTokens first (link :: links)) after ++ [closing]) ++
              ending) = .ok (some e)) ∧
      (nestedSpans (startOf first) (link :: links) =
          separateSpans (startOf first) (link :: links) ↔ isSettled (link :: links) = true) ∧
      (isSettled (link :: links) = true → nesting (link :: links) = 0) ∧
      ∀ span ∈ separateSpans (startOf first) (link :: links),
        IsSpan span ∧ ∀ part ∈ span.children, ¬IsSpan part :=
  ⟨exists_readTokens_chain first link links ending hending,
    fun _ _ hopening hclosing =>
      ⟨exists_readTokens_braces first link links hopening hclosing hending, fun before after =>
        exists_readTokens_among first link links before after hopening hclosing hending⟩,
    nestedSpans_eq_iff _ _, nesting_eq_zero_of_isSettled,
    not_isSpan_of_mem_separateSpans (not_isSpan_startOf first) _⟩

/-- The operand that a symbol in the text stands for. -/
def name (text : String) (loc : Location) : Operand :=
  ⟨⟨.symbol, text, loc⟩, .symbol (Expr.canonicalName text) loc, .inl rfl, rfl⟩

/-- A mark in the text and the operand after it. -/
def mark (loc : Location) (operand : Option Operand) : Link :=
  ⟨⟨.span, ";;", loc⟩, rfl, operand⟩

/-- The links of `a;;b;;c;;d` after `a`. -/
def fourOperands : List Link :=
  [mark ⟨1, 3⟩ (name "b" ⟨3, 4⟩), mark ⟨4, 6⟩ (name "c" ⟨6, 7⟩), mark ⟨7, 9⟩ (name "d" ⟨9, 10⟩)]

/-- The two spans of `a;;b;;c;;d` are multiplied. -/
theorem exists_readTokens_fourOperands :
    ∃ e : Expr, readTokens {} (chainTokens (name "a" ⟨0, 1⟩) fourOperands ++
        [.endOfInput ⟨10, 10⟩]) = .ok (some e) ∧
      e.eraseLocations = product [
        spanOf [.symbol "a" .zero, .symbol "b" .zero, .symbol "c" .zero],
        spanOf [one, .symbol "d" .zero]] := by
  have hending : ∀ t ∈ [Token.endOfInput ⟨10, 10⟩].head?, t.kind = .endOfInput :=
    Token.kind_of_mem_endOfInput
  obtain ⟨⟨e, he, hread⟩, -, hreadings, -, -⟩ :=
    exists_readTokens_spans (name "a" ⟨0, 1⟩) (mark ⟨1, 3⟩ (name "b" ⟨3, 4⟩)) fourOperands.tail
      hending
  refine ⟨e, hread 128 (by decide), ?_⟩
  rw [he, hreadings.mpr rfl]
  decide

/-- The links of `a;;b;;;;c` after `a`. -/
def missingStep : List Link :=
  [mark ⟨1, 3⟩ (name "b" ⟨3, 4⟩), mark ⟨4, 6⟩ none, mark ⟨6, 8⟩ (name "c" ⟨8, 9⟩)]

/-- In `a;;b;;;;c` the first span does not end before the second mark: the third one starts a span
    that becomes its step. So the reader does not always read a chain in the first way, and spans
    may be parts of spans. -/
theorem not_separate_missingStep :
    ¬∀ (first : Option Operand) (link : Link) (links : List Link),
      ∃ e : Expr, readTokens {} (chainTokens first (link :: links)) = .ok (some e) ∧
        e.eraseLocations = product (separateSpans (startOf first) (link :: links)) := by
  intro h
  obtain ⟨e, he, hseparate⟩ := h (name "a" ⟨0, 1⟩) (mark ⟨1, 3⟩ (name "b" ⟨3, 4⟩)) missingStep.tail
  obtain ⟨e', hnested, he'⟩ :=
    exists_readTokens_chain (name "a" ⟨0, 1⟩) (mark ⟨1, 3⟩ (name "b" ⟨3, 4⟩)) missingStep.tail []
      nofun
  have hread := he' 128 (by decide)
  rw [List.append_nil] at hread
  cases he.symm.trans hread
  -- the two readings are different
  have hdiffer : product (nestedSpans (startOf (name "a" ⟨0, 1⟩)) missingStep) ≠
      product (separateSpans (startOf (name "a" ⟨0, 1⟩)) missingStep) := by
    decide
  exact hdiffer (hnested.symm.trans hseparate)

end Symbolic.Spans
