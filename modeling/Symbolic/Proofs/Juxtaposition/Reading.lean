import Symbolic.Proofs.Juxtaposition.Rules

/-!
# A product with and without its sign

At the seam an operand is complete. If a product binds tightly enough there, one reader takes what
comes next as a factor, and the other passes over the sign and reads the same factor at the same
precedence; if not, the operand ends for both. So an expression that can take up a product does not
end at the seam, and that is where the other expressions of an element or of an input would start.

## Key results

- `meets_trailing`: the turn in which the readers pass the seam
- `crosses_expression`: expressions, in any room
- `readTokens_agrees`: whole inputs
-/

namespace Symbolic.Juxtaposition

open Reader Parse

variable {seam : Seam} {room : Nat} {s t : State} {p : Precedence}

/-! ## Passing the seam -/

/-- The sign of multiplication is an infix operator. -/
theorem lookup?_times : OperatorTable.standard.lookup? .times .infixed =
    some (.infixed .times "Times" 400 .flat) := rfl

/-- What both readers do at the seam if a product binds tightly enough: read one more factor. -/
def factor (expr : Precedence → Parse Expr) (lhs : Expr) : Parse (Turn Expr Expr) := do
  let rhs ← expr 401
  return .again (.make .standard "Times" [lhs, rhs] (lhs.loc.union rhs.loc))

/-- One reader takes what comes next as a factor. -/
theorem trailing_first {expr : Precedence → Parse Expr} {lhs : Expr}
    (hcurrent : s.current = seam.first) (hp : p ≤ 400) :
    trailing .standard expr p lhs s = factor expr lhs s := by
  have hgoes : ¬(seam.first.kind.endsOperand || decide ((400 : Precedence) < p)) = true := by
    simpa [seam.goesOn] using hp
  unfold trailing
  rw [peek_bind, hcurrent]
  simp only [seam.unextended]
  unfold juxtaposition
  rw [peek_bind, hcurrent]
  simp only [lookup?_times]
  exact if_neg hgoes ▸ rfl

/-- The other one does so behind the sign. -/
theorem trailing_sign {expr : Precedence → Parse Expr} {lhs : Expr}
    (hrest : t.rest = seam.sign :: seam.right) (hp : p ≤ 400) :
    trailing .standard expr p lhs t = factor expr lhs (t.before seam.right) := by
  have hnode : infixedNode .standard expr lhs (.infixed .times "Times" 400 .flat) =
      advance >>= fun _ => expr 401 >>= fun rhs =>
        pure (.make .standard "Times" [lhs, rhs] (lhs.loc.union rhs.loc)) := rfl
  have ht : t = t.before (seam.sign :: seam.right) := by rw [← hrest, State.before_rest]
  conv_lhs => rw [ht]
  rw [trailing_eq_infixedNode seam.isTimes lookup?_times rfl hp, hnode, map_eq_pure_bind]
  simp only [bind_assoc, pure_bind]
  rfl

/-- Both tokens at the seam end an operand in which a product does not bind tightly enough. -/
theorem stops_seam (seam : Seam) (hp : ¬p ≤ 400) :
    OperatorTable.standard.Stops p seam.first.kind ∧
      OperatorTable.standard.Stops p seam.sign.kind := by
  have hlt : (400 : Precedence) < p := UInt16.not_le.mp hp
  refine ⟨⟨seam.first_ne_of_endsOperand rfl, ?_⟩, ⟨?_, ?_⟩⟩
  · intro q hq
    -- side by side, the next factor grips as tightly as the sign does
    simp only [OperatorTable.grip?, seam.unextended, seam.goesOn, lookup?_times] at hq
    cases hq
    exact hlt
  · rw [seam.isTimes]
    decide
  · intro q hq
    rw [seam.isTimes] at hq
    cases hq
    exact hlt

/-- The turn in which the readers pass the seam, or end an operand there. -/
theorem meets_trailing (hexpr : PartsCross seam room) (lhs : Expr)
    (hfacing : Facing seam False s t) (hs : s.rest = seam.right)
    (ht : t.rest = seam.sign :: seam.right) :
    Meets seam (Turn.Holds (fun _ => False) fun _ => p ≤ 400)
      (trailing .standard (expression .standard room) p lhs s)
      (trailing .standard (expression .standard room) p lhs t) := by
  have hfirst : s.current = seam.first := by
    rw [State.current, hs]
    rfl
  have hsign : t.current = seam.sign := by
    rw [State.current, ht]
    rfl
  by_cases hp : p ≤ 400
  · -- past the sign both readers are to the right of the seam
    have hright : Facing seam True s (t.before seam.right) :=
      ⟨by rw [hs]; exact .right (List.suffix_refl _), hfacing.stop, hfacing.brackets,
        hfacing.known⟩
    have hfactor : Crosses seam none True (Turn.Holds (fun _ => False) fun _ => p ≤ 400)
        (factor (expression .standard room) lhs) :=
      .bind (hexpr _ _) fun rhs => .pure _ False.elim
    rw [trailing_first hfirst hp, trailing_sign ht hp]
    exact hfactor.meets_of_facing hright
  · obtain ⟨hstop, hstop'⟩ := stops_seam seam hp
    rw [trailing_of_stops (hfirst ▸ hstop), trailing_of_stops (hsign ▸ hstop')]
    exact .ok (hfacing.weaken hp)

/-! ## Expressions -/

/-- The turn in which the readers part. -/
theorem crosses_trailing (hexpr : PartsCross seam room) (p : Precedence) (lhs : Expr) :
    Crosses seam none False (Turn.Holds (fun _ => False) fun _ => p ≤ 400)
      (trailing .standard (expression .standard room) p lhs) := by
  refine ⟨fun {s t} hfacing _ => ?_⟩
  rcases hfacing.cases with hclear | ⟨-, -, -, hs, ht⟩
  · -- away from the seam the readers see the same token
    have hrule : Crosses seam none True (Turn.Holds (fun _ => False) fun _ => True)
        (trailing .standard (expression .standard room) p lhs) := by
      unfold trailing
      refine .peek fun token _ => ?_
      split
      · exact rule_juxtaposition hexpr lhs p
      rename_i op hfound
      split
      · rename_i hcolon
        exact rule_colon hexpr (hcolon ▸ rfl) lhs op p
      split
      · exact .pure _ fun _ => trivial
      · exact rule_extended hexpr hfound lhs
    refine (hrule.meets_of_facing hclear).weaken fun outcome hholds => ?_
    cases outcome with
    | again e => exact hholds
    | done e => trivial
  · exact meets_trailing hexpr lhs hfacing hs ht

/-- A chain of operators across the seam. -/
theorem crosses_chain (hexpr : PartsCross seam room) (here : Option TokenKind) (p : Precedence) :
    Crosses seam here True (fun _ => p ≤ 400)
      (chain .standard (expression .standard room) p) := by
  unfold chain
  exact .bind (crosses_leading hexpr) fun e =>
    .iterate (progresses_trailing rfl room p) (crosses_trailing hexpr p) e

/-- The readers read the same expression in any room, or fail for reasons of the same sort. -/
theorem crosses_expression (seam : Seam) (room : Nat) : PartsCross seam room := by
  -- induction on the room, which is less for the parts of an expression
  induction room with
  | zero => exact fun _ _ => ⟨fun hfacing _ => hfacing.fail rfl⟩
  | succ room ih => exact fun here p => .remember p (crosses_chain ih here p)

/-! ## Inputs -/

/-- A whole input across the seam. -/
theorem crosses_program (seam : Seam) (limit : Nat) :
    Crosses seam none True (fun _ => True) (program ⟨.standard, limit⟩) := by
  have hexpr := crosses_expression seam limit
  refine .iterate (progresses_programTurn rfl limit) (fun exprs => ?_) []
  unfold programTurn
  refine .peek fun token _ => ?_
  split
  · exact .pure _ fun _ => trivial
  · exact .bind (hexpr _ 0) fun e => .pure _ fun _ => by decide

namespace Seam

/-- The tokens on both sides of the seam. -/
def juxtaposed (seam : Seam) : List Token :=
  seam.left ++ seam.right

/-- The tokens on both sides, with the sign of a product between them. -/
def multiplied (seam : Seam) : List Token :=
  seam.left ++ seam.sign :: seam.right

end Seam

/-- Without an end of the input the tokens stop behind the last one. -/
theorem stop_ofTokens_of_endFree {tokens : List Token}
    (endFree : ∀ t ∈ tokens, t.kind ≠ .endOfInput) :
    (State.ofTokens tokens).stop =
      tokens.getLast?.elim .zero fun token => .empty token.loc.stop := by
  have hnone : tokens.find? (·.kind == .endOfInput) = none := by simpa using endFree
  simp only [State.ofTokens, hnone]

/-- The readers start to the left of the seam. -/
theorem facing_ofTokens (endFree : ∀ t ∈ seam.juxtaposed, t.kind ≠ .endOfInput) :
    Facing seam True (.ofTokens seam.juxtaposed) (.ofTokens seam.multiplied) := by
  have endFree' : ∀ t ∈ seam.multiplied, t.kind ≠ .endOfInput := by
    simp only [Seam.juxtaposed, Seam.multiplied, List.forall_mem_append, List.forall_mem_cons] at *
    refine ⟨endFree.1, ?_, endFree.2⟩
    rw [seam.isTimes]
    decide
  refine ⟨?_, ?_, rfl, .nil⟩
  · rw [rest_ofTokens endFree, rest_ofTokens endFree']
    exact .left (by simp [Seam.left]) (List.suffix_refl _)
  · -- the last token is to the right of the seam
    have hlast : seam.multiplied.getLast? = seam.juxtaposed.getLast? := by
      simp [Seam.multiplied, Seam.juxtaposed, Seam.right, List.getLast?_append]
    rw [stop_ofTokens_of_endFree endFree, stop_ofTokens_of_endFree endFree', hlast]

/-- An input is read as its expressions are. -/
theorem readTokens_of_program {settings : Settings} {tokens : List Token} {e? : Option Expr}
    {s : State} (h : program settings (.ofTokens tokens) = .ok e? s) :
    readTokens settings tokens = .ok e? := by
  unfold readTokens run
  rw [h]

/-- An input fails as its expressions do. -/
theorem readTokens_of_program_error {settings : Settings} {tokens : List Token} {e : SyntaxError}
    {s : State} (h : program settings (.ofTokens tokens) = .error e s) :
    readTokens settings tokens = .error e := by
  unfold readTokens run
  rw [h]

/-- Between an operand and what can follow it side by side, the sign of a product makes no
    difference: with the sign and without it the tokens are read as the same tree, locations
    included, or as none, and then the limit is exceeded both times or neither time. -/
theorem readTokens_agrees (seam : Seam) (limit : Nat)
    (endFree : ∀ t ∈ seam.juxtaposed, t.kind ≠ .endOfInput) :
    (∃ e?, readTokens ⟨.standard, limit⟩ seam.juxtaposed = .ok e? ∧
      readTokens ⟨.standard, limit⟩ seam.multiplied = .ok e?) ∨
    ∃ e e', readTokens ⟨.standard, limit⟩ seam.juxtaposed = .error e ∧
      readTokens ⟨.standard, limit⟩ seam.multiplied = .error e' ∧
      e'.isRecoverable = e.isRecoverable := by
  have hmeets := (crosses_program seam limit).meets_of_facing (facing_ofTokens endFree)
  generalize hs : program ⟨.standard, limit⟩ (.ofTokens seam.juxtaposed) = r at hmeets
  generalize ht : program ⟨.standard, limit⟩ (.ofTokens seam.multiplied) = r' at hmeets
  cases hmeets with
  | @ok e? => exact .inl ⟨e?, readTokens_of_program hs, readTokens_of_program ht⟩
  | @error e e' _ _ recoverable =>
    exact .inr ⟨e, e', readTokens_of_program_error hs, readTokens_of_program_error ht, recoverable⟩

/-- The seam between `b` and `(c)` in `{a;;b(c);;d}`. -/
def withinSpan : Seam where
  before := [⟨.leftBrace, "\x7b", ⟨0, 1⟩⟩, ⟨.symbol, "a", ⟨1, 2⟩⟩, ⟨.span, ";;", ⟨2, 4⟩⟩]
  last := ⟨.symbol, "b", ⟨4, 5⟩⟩
  sign := ⟨.times, "*", ⟨5, 5⟩⟩
  first := ⟨.leftParen, "(", ⟨5, 6⟩⟩
  after := [⟨.symbol, "c", ⟨6, 7⟩⟩, ⟨.rightParen, ")", ⟨7, 8⟩⟩, ⟨.span, ";;", ⟨8, 10⟩⟩,
    ⟨.symbol, "d", ⟨10, 11⟩⟩, ⟨.rightBrace, "\x7d", ⟨11, 12⟩⟩]
  completes := rfl
  isTimes := rfl
  unextended := by decide +kernel
  goesOn := rfl

/-- The product is the end of the span both times. -/
theorem readTokens_withinSpan :
    (∀ t ∈ withinSpan.juxtaposed, t.kind ≠ .endOfInput) ∧
      ∃ e, readTokens {} withinSpan.juxtaposed = .ok e ∧
        readTokens {} withinSpan.multiplied = .ok e := by
  have endFree : ∀ t ∈ withinSpan.juxtaposed, t.kind ≠ .endOfInput := by decide
  have haccepted : (readTokens {} withinSpan.juxtaposed).isOk = true := by decide +kernel
  refine ⟨endFree, ?_⟩
  obtain h | ⟨e, e', herror, -⟩ := readTokens_agrees withinSpan 128 endFree
  · exact h
  · rw [herror] at haccepted
    cases haccepted

end Symbolic.Juxtaposition
