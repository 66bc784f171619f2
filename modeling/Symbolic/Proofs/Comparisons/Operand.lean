import Symbolic.Proofs.Lockstep.Elements
import Symbolic.Proofs.Lockstep.Within
import Symbolic.Proofs.Reader.Room
import Symbolic.Proofs.Trees.Built

/-!
# Operands that stand for themselves

An atom, an expression in parentheses, or one of these with arguments in brackets is read as the
same tree wherever it stands, as long as what is asked for binds no more tightly than a call: its
end is its own, not given by what comes after it. None of these trees is open to be taken up by a
chain of comparisons.

## Key results

- `OperandTokens`: the tokens of such an operand
- `Reads`: tokens that start an expression as a given tree
- `OperandTokens.exists_reads`: an operand that is read somewhere is read everywhere
-/

namespace Symbolic.Comparisons

open Reader Parse Filter

/-- The tokens of an atom, of an expression in parentheses, or of one of these with arguments in
    brackets. A second bracket right after the first would make a part. -/
inductive OperandTokens : List Token → Prop where
  | atom {t : Token} (isAtom : t.kind.isAtom = true) : OperandTokens [t]
  | group {opening closing : Token} {inside : List Token} (kind : opening.kind = .leftParen)
      (kind' : closing.kind = .rightParen) (nested : Nested inside) :
      OperandTokens (opening :: (inside ++ [closing]))
  | call {head : List Token} {opening closing : Token} {inside : List Token}
      (operand : OperandTokens head) (kind : opening.kind = .leftBracket)
      (kind' : closing.kind = .rightBracket) (nested : Nested inside)
      (noPart : ∀ t ∈ inside.head?, t.kind ≠ .leftBracket) :
      OperandTokens (head ++ opening :: (inside ++ [closing]))

/-- Given enough room, the tokens start any expression that binds no more tightly than a call as
    the tree, and other tokens may extend that. -/
def Reads (tokens : List Token) (e : Expr) : Prop :=
  ∀ (s : State) (rest : List Token) (p : Precedence), s.failures = [] → p ≤ 670 →
    ∀ᶠ room in atTop, chain .standard (Forgetful.expression .standard room) p
      (s.before (tokens ++ rest)) =
        iterate (trailing .standard (Forgetful.expression .standard room) p) e (s.before rest)

/-- The tree is no open node, except of what single tokens stand for. -/
def Sealed (e : Expr) : Prop :=
  ∀ head, head ∉ Expr.atomHeads → e.isOpenNode head = false

/-- The tree is not taken up by a chain of comparisons. -/
def StaysWhole (e : Expr) : Prop :=
  ∀ head ∈ comparisonHeads, e.isOpenNode head = false

variable {s s' t : State} {tokens inside rest : List Token} {opening closing : Token} {e x : Expr}
  {room : Nat} {p : Precedence}

/-! ## Trees -/

/-- A sealed tree is taken up whole. -/
theorem Sealed.staysWhole (h : Sealed e) : StaysWhole e := by
  intro head hhead
  -- no head of an atom is a comparison
  have hdisjoint : ∀ head ∈ comparisonHeads, head ∉ Expr.atomHeads := by decide
  exact h head (hdisjoint head hhead)

/-- A tree in brackets of its own is sealed. -/
theorem sealed_of_isParenthesized (h : e.isParenthesized = true) : Sealed e := by
  intro head _
  simp [Expr.isOpenNode, h]

/-- So is an atom. -/
theorem sealed_of_atom {t : Token} (h : Expr.atom .standard t = .ok e) : Sealed e := by
  intro head hhead
  have hne : e.headName? ≠ some head := fun heq => hhead (Expr.mem_atomHeads_of_atom h heq)
  simp [Expr.isOpenNode, hne]

/-- So is a tree in parentheses. -/
theorem sealed_grouped (loc : Location) (e : Expr) : Sealed (grouped loc e) := by
  cases e with
  | node => exact sealed_of_isParenthesized rfl
  | symbol => exact fun _ _ => rfl
  | number => exact fun _ _ => rfl
  | string => exact fun _ _ => rfl

/-- So is a call. -/
theorem sealed_parenthesize_apply (f : Expr) (args : List Expr) (loc : Location) :
    Sealed (Expr.apply f args loc).parenthesize :=
  sealed_of_isParenthesized rfl

/-! ## Atoms and parentheses -/

/-- An atom leads an expression by itself. -/
theorem leading_of_isAtom {expr : Precedence → Parse Expr} (h : s.current.kind.isAtom = true) :
    leading .standard expr s = Reader.atom .standard s := by
  unfold leading
  rw [peek_bind]
  revert h
  generalize s.current.kind = kind
  intro h
  -- no atom is a prefix operator or a bracket
  cases kind <;> first | (cases h; done) | rfl

/-- An atom that is read is sealed, and read the same wherever it stands. -/
theorem exists_reads_of_atom {t : Token} (isAtom : t.kind.isAtom = true)
    (h : chain .standard (Forgetful.expression .standard room) p (s.before (t :: rest)) =
      .ok x s') : ∃ e, Sealed e ∧ Reads [t] e := by
  -- an atom that stands for nothing would start no expression
  obtain ⟨first, s₁, hleading, -⟩ := exists_of_bind_ok h
  rw [leading_of_isAtom (by exact isAtom)] at hleading
  have hatom : Expr.atom .standard t = .ok first := atom_ok hleading
  exact ⟨first, sealed_of_atom hatom, fun s rest p _ _ => .of_forall fun room =>
    chain_of_leading (leading_standard_atom isAtom hatom)⟩

/-- A bracket is closed by the token that closes it. -/
theorem closeBracket_eq_ok {closer : TokenKind} {loc : Location}
    (h : closeBracket closer s = .ok loc s') :
    s.current.kind = closer ∧ loc = s.current.loc := by
  rw [closeBracket_eq] at h
  split at h
  · rename_i hkind
    cases h
    exact ⟨hkind, rfl⟩
  · cases h

/-- What is in parentheses is read between them and nowhere else. -/
theorem exists_reads_of_group (kind : opening.kind = .leftParen)
    (kind' : closing.kind = .rightParen) (nested : Nested inside)
    (endFree : ∀ t ∈ inside, t.kind ≠ .endOfInput) (hs : s.failures = [])
    (h : chain .standard (Forgetful.expression .standard room) p
      (s.before (opening :: (inside ++ closing :: rest))) = .ok x s') :
    ∃ e, Sealed e ∧ Reads (opening :: (inside ++ [closing])) e := by
  have hlead : OperatorTable.standard.lookup? .leftParen .prefixed = none := rfl
  obtain ⟨first, s₁, hleading, -⟩ := exists_of_bind_ok h
  unfold leading at hleading
  rw [peek_bind, State.current_before_cons, kind, hlead] at hleading
  change group _ _ = _ at hleading
  unfold group at hleading
  -- what the reader has read is the opening bracket, an expression and the closing bracket
  rw [openBracket_bind] at hleading
  obtain ⟨inner, s₂, hinner, hleading⟩ := exists_of_bind_ok hleading
  obtain ⟨loc, s₃, hclosing, -⟩ := exists_of_bind_ok hleading
  have hbalance : s₂.current.kind.balance = 1 := by
    rw [(closeBracket_eq_ok hclosing).1]
    rfl
  refine ⟨grouped (opening.loc.union closing.loc) inner, sealed_grouped _ _,
    fun t rest' q ht _ => eventually_atTop.mpr ⟨room, fun room' hle => ?_⟩⟩
  obtain ⟨-, hinner'⟩ := ok_of_nested rest rest' (meets_expression hle 0) nested endFree
    (by rw [kind']; rfl) hs ht hinner hbalance
  rw [List.cons_append, List.append_assoc]
  exact chain_of_leading (leading_group kind hlead hinner' kind')

/-! ## Calls -/

/-- A loop that succeeds takes a turn that does. -/
theorem exists_turn_of_iterate {α β : Type} {turn : α → Parse (Turn α β)} {a : α} {b : β}
    (h : iterate turn a s = .ok b s') : ∃ outcome s₁, turn a s = .ok outcome s₁ := by
  rw [iterate] at h
  split at h
  · cases h
  · exact ⟨_, _, by assumption⟩
  · exact ⟨_, _, by assumption⟩

/-- What is in the brackets of a call is read between them and nowhere else. -/
theorem exists_trailing_of_call {f : Expr} (kind : opening.kind = .leftBracket)
    (kind' : closing.kind = .rightBracket) (nested : Nested inside)
    (endFree : ∀ t ∈ inside, t.kind ≠ .endOfInput)
    (noPart : ∀ t ∈ inside.head?, t.kind ≠ .leftBracket) (hs : s.failures = []) (hp : p ≤ 670)
    (h : iterate (trailing .standard (Forgetful.expression .standard room) p) f
      (s.before (opening :: (inside ++ closing :: rest))) = .ok x s') :
    ∃ args, ∀ (t : State) (rest' : List Token) (q : Precedence), t.failures = [] → q ≤ 670 →
      ∀ room', room ≤ room' →
        trailing .standard (Forgetful.expression .standard room') q f
          (t.before (opening :: (inside ++ closing :: rest'))) =
            .ok (.again (Expr.apply f args (f.loc.union closing.loc)).parenthesize)
              (t.before rest') := by
  have hfound : OperatorTable.standard.trailing? .leftBracket =
      some (.postfixed .leftBracket "Part" 670) := rfl
  have hfirst : ∀ (t : State) (rest : List Token),
      ((t.within opening.loc).before (inside ++ closing :: rest)).current.kind ≠ .leftBracket := by
    intro t rest
    cases inside with
    | nil =>
      show closing.kind ≠ .leftBracket
      simp [kind']
    | cons first inside => exact noPart first rfl
  -- the first of the turns has read the arguments
  obtain ⟨outcome, s₁, hturn⟩ := exists_turn_of_iterate h
  rw [trailing_extended kind hfound (by decide) hp] at hturn
  obtain ⟨e, hcall, -⟩ := exists_of_map_ok hturn
  unfold callOrPart at hcall
  rw [openBracket_bind, peek_bind, if_neg (hfirst s rest)] at hcall
  unfold call at hcall
  obtain ⟨args, s₂, hargs, hcall⟩ := exists_of_bind_ok hcall
  obtain ⟨loc, s₃, hclosing, -⟩ := exists_of_bind_ok hcall
  have hbalance : s₂.current.kind.balance = 1 := by
    rw [(closeBracket_eq_ok hclosing).1]
    rfl
  refine ⟨args, fun t rest' q ht hq room' hle => ?_⟩
  obtain ⟨-, hargs'⟩ := ok_of_nested rest rest' (meets_sequence (meets_expression hle)
    .rightBracket) nested endFree (by rw [kind']; rfl) hs ht hargs hbalance
  exact trailing_call kind (hfirst t rest') hargs' kind' hq

/-- With arguments after it, too, an operand is read in the same way everywhere. -/
theorem exists_reads_of_call {head : List Token} {f : Expr} (hhead : Reads head f)
    (kind : opening.kind = .leftBracket) (kind' : closing.kind = .rightBracket)
    (nested : Nested inside) (endFree : ∀ t ∈ inside, t.kind ≠ .endOfInput)
    (noPart : ∀ t ∈ inside.head?, t.kind ≠ .leftBracket) (hs : s.failures = []) (hp : p ≤ 670)
    (h : ∀ᶠ room in atTop, ∃ x s', chain .standard (Forgetful.expression .standard room) p
      (s.before (head ++ opening :: (inside ++ closing :: rest))) = .ok x s') :
    ∃ e, Sealed e ∧ Reads (head ++ opening :: (inside ++ [closing])) e := by
  -- the arguments are read alone with some room; with any more they are read the same
  obtain ⟨room, ⟨x, s', hok⟩, hread⟩ :=
    (h.and (hhead s (opening :: (inside ++ closing :: rest)) p hs hp)).exists
  rw [hread] at hok
  obtain ⟨args, hcall⟩ := exists_trailing_of_call kind kind' nested endFree noPart hs hp hok
  refine ⟨_, sealed_parenthesize_apply f args (f.loc.union closing.loc),
    fun t rest' q ht hq => ?_⟩
  have hlt : (t.before rest').rest.length <
      (t.before (opening :: (inside ++ closing :: rest'))).rest.length := by
    simp only [State.rest_before, List.length_cons, List.length_append]
    omega
  filter_upwards [hhead t (opening :: (inside ++ closing :: rest')) q ht hq,
    eventually_ge_atTop room] with room' hread' hle
  have happend : head ++ opening :: (inside ++ [closing]) ++ rest' =
      head ++ opening :: (inside ++ closing :: rest') := by
    simp
  rw [happend, hread', iterate_again (hcall t rest' q ht hq room' hle) hlt]

/-- An operand that is read somewhere is read as the same tree everywhere. -/
theorem OperandTokens.exists_reads (shape : OperandTokens tokens)
    (endFree : ∀ t ∈ tokens, t.kind ≠ .endOfInput) (hs : s.failures = []) (hp : p ≤ 670)
    (h : ∀ᶠ room in atTop, ∃ x s', chain .standard (Forgetful.expression .standard room) p
      (s.before (tokens ++ rest)) = .ok x s') :
    ∃ e, Sealed e ∧ Reads tokens e := by
  -- induction on the calls: what is called is read before any of its arguments
  induction shape generalizing rest with
  | atom isAtom =>
    obtain ⟨room, x, s', hok⟩ := h.exists
    exact exists_reads_of_atom isAtom hok
  | group kind kind' nested =>
    obtain ⟨room, x, s', hok⟩ := h.exists
    rw [List.cons_append, List.append_assoc] at hok
    refine exists_reads_of_group kind kind' nested (fun t ht => endFree t ?_) hs hok
    simp [ht]
  | @call head opening closing inside _ kind kind' nested noPart ih =>
    have happend : head ++ opening :: (inside ++ [closing]) ++ rest =
        head ++ (opening :: (inside ++ closing :: rest)) := by
      simp
    rw [happend] at h
    obtain ⟨f, -, hhead⟩ := ih (fun t ht => endFree t (List.mem_append_left _ ht)) h
    refine exists_reads_of_call hhead kind kind' nested (fun t ht => endFree t ?_) noPart hs hp h
    simp [ht]

/-! ## Operands by themselves -/

/-- An operand has tokens. -/
theorem OperandTokens.ne_nil (shape : OperandTokens tokens) : tokens ≠ [] := by
  cases shape <;> simp

/-- What starts an input that is accepted is read as an expression. -/
theorem eventually_chain_of_readTokens {limit : Nat} (hne : tokens ≠ [])
    (endFree : ∀ t ∈ tokens, t.kind ≠ .endOfInput)
    (h : readTokens ⟨.standard, limit⟩ tokens = .ok (some e)) :
    ∀ᶠ room in atTop, ∃ x s', chain .standard (Forgetful.expression .standard room) 0
      (State.ofTokens tokens) = .ok x s' := by
  obtain ⟨-, t', -, -, hprogram⟩ := exists_sync_of_readTokens h
  have hkind : (State.ofTokens tokens).current.kind ≠ .endOfInput := by
    obtain ⟨first, rest, rfl⟩ := List.exists_cons_of_ne_nil hne
    rw [State.current, rest_ofTokens endFree]
    exact endFree first List.mem_cons_self
  -- a program reads one expression after the other, and its first turn is at the start
  filter_upwards [(tendsto_add_atTop_nat 1).eventually hprogram] with room hroom
  obtain ⟨outcome, s₁, hturn⟩ := exists_turn_of_iterate hroom
  unfold programTurn at hturn
  rw [peek_bind, if_neg hkind] at hturn
  obtain ⟨x, s₂, hexpression, -⟩ := exists_of_bind_ok hturn
  exact ⟨x, s₂, hexpression⟩

/-- An operand that is accepted by itself is read everywhere as what it is by itself. -/
theorem OperandTokens.reads_of_readTokens {limit : Nat} (shape : OperandTokens tokens)
    (endFree : ∀ t ∈ tokens, t.kind ≠ .endOfInput)
    (h : readTokens ⟨.standard, limit⟩ tokens = .ok (some e)) :
    Sealed e ∧ Reads tokens e := by
  have hbefore : (State.ofTokens tokens).before (tokens ++ []) = State.ofTokens tokens := by
    rw [List.append_nil]
    conv_rhs => rw [← State.before_rest (s := State.ofTokens tokens), rest_ofTokens endFree]
  have hchain : ∀ᶠ room in atTop, ∃ x s', chain .standard (Forgetful.expression .standard room) 0
      ((State.ofTokens tokens).before (tokens ++ [])) = .ok x s' := by
    rw [hbefore]
    exact eventually_chain_of_readTokens shape.ne_nil endFree h
  obtain ⟨x, hsealed, hreads⟩ := shape.exists_reads endFree rfl (by decide) hchain
  -- by itself it is read as that tree, too, with nothing after it
  have hread : ∀ᶠ limit in atTop, readTokens ⟨.standard, limit⟩ (tokens ++ []) = .ok (some x) := by
    have hstart := hreads (.ofTokens tokens) [] 0 rfl (by decide)
    have hexpression := eventually_expression_of_chain hstart (stops_endOfInput 0)
    refine eventually_readTokens endFree shape.ne_nil Token.kind_of_mem_nil ?_
    simpa using hexpression
  rw [List.append_nil] at hread
  -- with a limit that is high enough for both, the two trees are one
  obtain ⟨limit', hread, hle⟩ := (hread.and (eventually_ge_atTop limit)).exists
  have hsame : readTokens ⟨.standard, limit'⟩ tokens = readTokens ⟨.standard, limit⟩ tokens := by
    refine run_eq_of_le hle (.ofTokens tokens) fun loc heq => ?_
    cases h.symm.trans heq
  rw [hread, h] at hsame
  cases hsame
  exact ⟨hsealed, hreads⟩

end Symbolic.Comparisons
