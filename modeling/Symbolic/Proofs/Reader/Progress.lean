import Symbolic.Proofs.Likeness.Careful

/-!
# A reader makes progress and stays before the end

A reader stands at one of the tokens up to the first end of the input. Every step leaves it there
or further on, an expression that is read takes up at least one token, and so does every form that
extends one, unless the table has an operator that is the end of the input itself. So a loop of
the grammar need not look whether it gets any further: every one of them ends by itself.

## Key results

- `upToEnd`, `State.At`: the tokens that count, and the one the reader stands at
- `Ends`: loops that come to an end by themselves; `Progresses.ends`: loops that progress do
- `lt_of_expression_ok`, `progresses_trailing`: expressions and what extends them take up tokens
- `forward_of_not_endOperator`: all of it for whole inputs
-/

namespace Symbolic.Reader

open Parse

/-! ## Positions -/

/-- The tokens before the reader, the end of the input included. -/
def State.ahead (s : State) : List Token :=
  s.rest ++ [.endOfInput s.stop]

/-- The tokens up to the first end of the input, which is added if it is missing. -/
def upToEnd (tokens : List Token) : List Token :=
  tokens.takeWhile (·.kind != .endOfInput) ++ [.endOfInput (State.ofTokens tokens).stop]

/-- The reader stands at the token of that number among those up to the end of the input. -/
def State.At (tokens : List Token) (i : Nat) (s : State) : Prop :=
  (upToEnd tokens).drop i = s.ahead

variable {table : OperatorTable} {tokens : List Token} {s s' : State} {i : Nat} {α β : Type}

/-- A reader starts at the first token. -/
theorem at_ofTokens (tokens : List Token) : State.At tokens 0 (.ofTokens tokens) := rfl

/-- What follows the first end of the input has no part in anything. -/
theorem ofTokens_append (before after : List Token) {ending : Token}
    (h : ending.kind = .endOfInput) :
    State.ofTokens (before ++ ending :: after) = State.ofTokens (before ++ [ending]) := by
  have htake : (before ++ ending :: after).takeWhile (·.kind != .endOfInput) =
      (before ++ [ending]).takeWhile (·.kind != .endOfInput) := by
    rw [List.takeWhile_append, List.takeWhile_append]
    simp [h]
  -- the first end of the input is the one that counts, and it is not behind `ending`
  have hfind : (before ++ ending :: after).find? (·.kind == .endOfInput) =
      (before ++ [ending]).find? (·.kind == .endOfInput) := by
    simp [List.find?_append, h]
  have hsome : ((before ++ [ending]).find? (·.kind == .endOfInput)).isSome := by
    simp [h]
  obtain ⟨first, hfirst⟩ := Option.isSome_iff_exists.mp hsome
  simp only [State.ofTokens, htake, hfind, hfirst]

namespace State.At

/-- The token the reader looks at is the one of that number, and there is one. -/
theorem getElem?_eq (h : State.At tokens i s) : (upToEnd tokens)[i]? = some s.current := by
  rw [← List.head?_drop, h, State.ahead, State.current, List.head?_append]
  cases s.rest.head? <;> rfl

/-- As many tokens as are taken up, so much further on the reader stands. -/
theorem forward (h : State.At tokens i s) (suffix : s'.rest <:+ s.rest) (stop : s'.stop = s.stop) :
    State.At tokens (i + (s.rest.length - s'.rest.length)) s' := by
  obtain ⟨taken, htaken⟩ := suffix
  have hlength : s.rest.length - s'.rest.length = taken.length := by
    rw [← htaken, List.length_append]
    omega
  unfold State.At at h ⊢
  rw [← List.drop_drop, h, hlength, State.ahead, State.ahead, ← htaken, List.append_assoc,
    List.drop_left, stop]

/-- A step that only drops tokens leads forward. -/
theorem exists_le (h : State.At tokens i s) (suffix : s'.rest <:+ s.rest)
    (stop : s'.stop = s.stop) : ∃ j, i ≤ j ∧ State.At tokens j s' :=
  ⟨_, Nat.le_add_right _ _, h.forward suffix stop⟩

/-- A step that drops some leads to a later token. -/
theorem exists_lt (h : State.At tokens i s) (suffix : s'.rest <:+ s.rest)
    (stop : s'.stop = s.stop) (hlt : s'.rest.length < s.rest.length) :
    ∃ j, i < j ∧ State.At tokens j s' :=
  ⟨_, by omega, h.forward suffix stop⟩

end State.At

/-! ## Loops -/

/-- Taking turns, with no regard to whether they get any further, comes to an end with that
    outcome. -/
inductive Ends (turn : α → Parse (Turn α β)) :
    α → State → EStateM.Result SyntaxError State β → Prop where
  | error {a : α} {s s' : State} {e : SyntaxError} (h : turn a s = .error e s') :
      Ends turn a s (.error e s')
  | done {a : α} {b : β} {s s' : State} (h : turn a s = .ok (.done b) s') : Ends turn a s (.ok b s')
  | again {a a' : α} {s s' : State} {r : EStateM.Result SyntaxError State β}
      (h : turn a s = .ok (.again a') s') (rest : Ends turn a' s' r) : Ends turn a s r

/-- Every turn that goes on has taken up a token. -/
def Progresses (turn : α → Parse (Turn α β)) : Prop :=
  ∀ a a' s s', turn a s = .ok (.again a') s' → s'.rest.length < s.rest.length

/-- A loop that progresses comes to an end by itself, and just as it does when each turn is made
    to progress. -/
theorem Progresses.ends {turn : α → Parse (Turn α β)} (h : Progresses turn) (a : α) (s : State) :
    Ends turn a s (iterate turn a s) := by
  -- induction on what remains of the input
  induction hn : s.rest.length using Nat.strongRecOn generalizing a s with
  | _ n ih =>
    subst hn
    unfold iterate
    cases hturn : turn a s with
    | error e s' => exact .error hturn
    | ok next s' =>
      cases next with
      | done b => exact .done hturn
      | again a' =>
        have hlt := h a a' s s' hturn
        simp only [hlt, if_true]
        exact .again hturn (ih _ hlt a' s' rfl)

/-! ## Progress -/

/-- Anything is taken for a token of the input, and any error is justified. -/
def Evidence.trivial (table : OperatorTable) : Evidence table where
  token _ := True
  error _ := True
  faults _ _ := .intro
  unclosed _ _ := .intro

/-- Every state is orderly where nothing is asked of tokens. -/
theorem orderly_trivial (table : OperatorTable) (s : State) :
    Orderly (.trivial table) s :=
  ⟨fun _ _ => .intro, .intro, fun _ _ => .intro, fun _ _ => .intro⟩

/-- Every expression is careful where nothing is asked of tokens. -/
theorem careful_trivial (table : OperatorTable) (room : Nat) (p : Precedence) (s : State) :
    Careful (.trivial table) s False (fun _ => True) (expression table room p s) :=
  careful_expression _ room p (orderly_trivial table s)

/-- An expression that is read takes some tokens. -/
theorem lt_of_expression_ok {room : Nat} {p : Precedence} {e : Expr}
    (h : expression table room p s = .ok e s') : s'.rest.length < s.rest.length := by
  have hcareful := careful_trivial table room p s
  rw [h] at hcareful
  obtain ⟨-, -, -, progress⟩ := hcareful
  exact (progress trivial).resolve_left id

/-- Turns that are parallel to themselves progress if they are said to. -/
theorem progresses_of_parallel [Located α] [Located β] (table : OperatorTable) (room : Nat)
    {gains : Turn α β → Prop} {turn : α → Parse (Turn α β)} (hgains : ∀ a, gains (.again a))
    (hturn : ∀ a, Parallel (.only (Evidence.trivial table).token) table (expression table room)
      (fun _ => expression table room) none False 0 0 gains (turn a) (fun _ => turn a)) :
    Progresses turn := by
  intro a a' s s' h
  have hcareful := (hturn a).careful (fun p s _ => careful_trivial table room p s)
    (orderly_trivial table s)
  rw [h] at hcareful
  obtain ⟨-, -, -, progress⟩ := hcareful
  exact (progress (hgains a')).resolve_left id

/-- No loop of the grammar has to be made to end. -/
structure LoopsEnd (table : OperatorTable) (expr : Precedence → Parse Expr) : Prop where
  program : ∀ exprs s, Ends (programTurn expr) exprs s (iterate (programTurn expr) exprs s)
  trailing : ∀ p lhs s, Ends (trailing table expr p) lhs s (iterate (trailing table expr p) lhs s)
  element : ∀ closer factors s,
    Ends (elementTurn expr closer) factors s (iterate (elementTurn expr closer) factors s)
  sequence : ∀ closer items s,
    Ends (sequenceTurn expr closer) items s (iterate (sequenceTurn expr closer) items s)
  derivative : ∀ op marks s, op.kind ≠ .endOfInput →
    Ends (derivativeTurn op) marks s (iterate (derivativeTurn op) marks s)
  message : ∀ op tags s, op.kind ≠ .endOfInput →
    Ends (messageTurn op) tags s (iterate (messageTurn op) tags s)

section NoEndOperator

variable (hend : table.lookup? .endOfInput .postfixed = none)
include hend

/-- Each form that extends an operand takes some tokens. -/
theorem progresses_trailing (room : Nat) (p : Precedence) :
    Progresses (trailing table (expression table room) p) :=
  progresses_of_parallel table room (fun _ => hend) fun lhs =>
    parallel_trailing p (Expr.like_self (fun _ => rfl) lhs)

/-- So does each expression of an input. -/
theorem progresses_programTurn (room : Nat) :
    Progresses (programTurn (expression table room)) :=
  progresses_of_parallel table room (fun _ => hend) fun exprs =>
    parallel_programTurn (Located.like_self (fun _ => rfl) exprs)

/-- So does each expression of an element. -/
theorem progresses_elementTurn (room : Nat) (closer : TokenKind) :
    Progresses (elementTurn (expression table room) closer) :=
  progresses_of_parallel table room (fun _ => hend) fun factors =>
    parallel_elementTurn closer (Located.like_self (fun _ => rfl) factors)

/-- So does each element of a sequence that is not the last. -/
theorem progresses_sequenceTurn (room : Nat) (closer : TokenKind) :
    Progresses (sequenceTurn (expression table room) closer) :=
  progresses_of_parallel table room (fun _ => hend) fun items =>
    parallel_sequenceTurn closer (Located.like_self (fun _ => rfl) items)

omit hend in
/-- So does each mark of a derivative. -/
theorem progresses_derivativeTurn {op : Operator} (hop : op.kind ≠ .endOfInput) :
    Progresses (derivativeTurn op) :=
  progresses_of_parallel .standard 0 (fun _ => hop) fun marks =>
    parallel_derivativeTurn (Located.like_self (fun _ => rfl) marks)

omit hend in
/-- So does each tag of a message. -/
theorem progresses_messageTurn {op : Operator} (hop : op.kind ≠ .endOfInput) :
    Progresses (messageTurn op) :=
  progresses_of_parallel .standard 0 (fun _ => hop) fun message =>
    parallel_messageTurn (Located.like_self (fun _ => rfl) message)

/-- All loops of the reader come to an end. -/
theorem loopsEnd (room : Nat) : LoopsEnd table (expression table room) where
  program := (progresses_programTurn hend room).ends
  trailing p := (progresses_trailing hend room p).ends
  element closer := (progresses_elementTurn hend room closer).ends
  sequence closer := (progresses_sequenceTurn hend room closer).ends
  derivative _ marks s hop := (progresses_derivativeTurn hop).ends marks s
  message _ tags s hop := (progresses_messageTurn hop).ends tags s

/-- If the end of the input is no operator after an operand, the reader gets ahead with every
    expression and every form that extends one, its loops end by themselves, and whatever it does,
    it stands at one of the tokens up to the first end. What follows that does not matter. -/
theorem forward_of_not_endOperator (limit : Nat) (tokens : List Token) :
    State.At tokens 0 (.ofTokens tokens) ∧
      (∀ i s, State.At tokens i s → (upToEnd tokens)[i]? = some s.current) ∧
      (∀ room p i s, State.At tokens i s →
        match expression table room p s with
        | .ok _ s' => ∃ j, i < j ∧ State.At tokens j s'
        | .error _ s' => ∃ j, i ≤ j ∧ State.At tokens j s') ∧
      (∀ room p lhs i s, State.At tokens i s →
        match trailing table (expression table room) p lhs s with
        | .ok (.again _) s' => ∃ j, i < j ∧ State.At tokens j s'
        | .ok (.done _) s' => ∃ j, i ≤ j ∧ State.At tokens j s'
        | .error _ s' => ∃ j, i ≤ j ∧ State.At tokens j s') ∧
      (∃ j, State.At tokens j (run ⟨table, limit⟩ (.ofTokens tokens)).2) ∧
      (∀ room, LoopsEnd table (expression table room)) ∧
      ∀ before ending after after', ending.kind = .endOfInput →
        readTokens ⟨table, limit⟩ (before ++ ending :: after) =
          readTokens ⟨table, limit⟩ (before ++ ending :: after') := by
  refine ⟨at_ofTokens tokens, fun i s => State.At.getElem?_eq, fun room p i s hs => ?_,
    fun room p lhs i s hs => ?_, ?_, loopsEnd hend, fun before ending after after' hending => ?_⟩
  · -- nothing is asked of the tokens, so that only the places are left of what careful steps do
    have hcareful := careful_trivial table room p s
    revert hcareful
    generalize expression table room p s = r
    rintro (⟨-, suffix, stop, progress⟩ | ⟨-, suffix, stop, -⟩)
    · exact hs.exists_lt suffix stop ((progress trivial).resolve_left id)
    · exact hs.exists_le suffix stop
  · have hcareful := careful_trailing (.trivial table) room p lhs (orderly_trivial table s)
    revert hcareful
    generalize trailing table (expression table room) p lhs s = r
    rintro (@⟨turn, s', -, suffix, stop, progress⟩ | ⟨-, suffix, stop, -⟩)
    · cases turn with
      | again e => exact hs.exists_lt suffix stop ((progress hend).resolve_left id)
      | done e => exact hs.exists_le suffix stop
    · exact hs.exists_le suffix stop
  · have hcareful := careful_program ⟨table, limit⟩ (orderly_trivial table (.ofTokens tokens))
    unfold run
    revert hcareful
    generalize program ⟨table, limit⟩ (.ofTokens tokens) = r
    have hstart := at_ofTokens tokens
    rintro (⟨-, suffix, stop, -⟩ | ⟨-, suffix, stop, -⟩) <;>
      exact ⟨_, hstart.forward suffix stop⟩
  · unfold readTokens
    rw [ofTokens_append before after hending, ofTokens_append before after' hending]

end NoEndOperator

/-- The tokens of `a;`, the end of the input, and more tokens after it. -/
def statementAndMore : List Token :=
  [⟨.symbol, "a", ⟨0, 1⟩⟩, ⟨.semicolon, ";", ⟨1, 2⟩⟩, .endOfInput ⟨2, 2⟩, ⟨.comma, ",", ⟨2, 3⟩⟩,
    .endOfInput ⟨3, 3⟩]

/-- A reader does not see what stands behind the end of the input. -/
theorem forward_statementAndMore :
    OperatorTable.standard.lookup? .endOfInput .postfixed = none ∧
      (upToEnd statementAndMore)[0]? = some ⟨.symbol, "a", ⟨0, 1⟩⟩ ∧
      LoopsEnd .standard (expression .standard 128) ∧
      readTokens {} statementAndMore = readTokens {} (statementAndMore.take 3) := by
  have hend : OperatorTable.standard.lookup? .endOfInput .postfixed = none := by decide +kernel
  obtain ⟨hstart, hcurrent, -, -, -, hloops, hsame⟩ :=
    forward_of_not_endOperator hend 128 statementAndMore
  exact ⟨hend, hcurrent 0 _ hstart, hloops 128, hsame (statementAndMore.take 2) _ _ [] rfl⟩

end Symbolic.Reader
