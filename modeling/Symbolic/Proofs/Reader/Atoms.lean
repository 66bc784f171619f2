import Symbolic.Proofs.Comparisons.Operand
import Symbolic.Proofs.Layout.Blank
import Symbolic.Proofs.Layout.LaidOut

/-!
# Atoms start expressions

The scanner writes the parts of a reference or of a blank into the text of one token, and this text
is taken apart again when the token is read. Both agree on where the parts end: no text that is
scanned is refused, except that of a number that is out of range.

## Key results

- `Expr.exists_atom_of_atomText`: what is written as an atom stands for an expression
- `Reader.Leads`: a token that is by itself what an expression starts with
- `Reader.leads_of_tokenize`: the atoms among the tokens of a text, and what blanks mean
-/

namespace Symbolic

open Scan (AtomText)

/-! ## What the texts of atoms stand for -/

namespace Expr

variable {table : OperatorTable} {t : Token}

/-- Decimal digits are never out of range. -/
theorem exists_literal_of_all {digits : List Char} (hne : digits ≠ [])
    (hall : digits.all Char.isDigit = true) (loc : Location) :
    ∃ e, literal digits loc = .ok e := by
  obtain ⟨-, -, -, hnumber⟩ := Number.ofCharacters?_of_isDigits ⟨hne, hall⟩
  exact ⟨_, by rw [literal, hnumber]⟩

theorem textAfter_of_append (signs : List Char) {rest : List Char}
    (h : t.text.toList = signs ++ rest) :
    textAfter (Text.byteLength signs) t = rest := by
  rw [textAfter, h, Text.dropBytes?_byteLength_append, Option.getD_some]

theorem exists_slot {name : List Char} (h : t.text.toList = '#' :: name) :
    ∃ e, slot table t = .ok e := by
  have hrest : textAfter 1 t = name := textAfter_of_append ['#'] h
  simp only [slot, hrest]
  split
  · exact ⟨_, rfl⟩
  rename_i hne
  split
  · rename_i hall
    obtain ⟨arg, harg⟩ := exists_literal_of_all (by simpa using hne) hall t.loc
    exact ⟨_, by rw [harg]; rfl⟩
  · exact ⟨_, rfl⟩

theorem exists_slotSequence {digits : List Char} (h : t.text.toList = '#' :: '#' :: digits)
    (hall : digits.all Char.isDigit = true) : ∃ e, slotSequence table t = .ok e := by
  have hrest : textAfter 2 t = digits := textAfter_of_append ['#', '#'] h
  simp only [slotSequence, hrest]
  split
  · exact ⟨_, rfl⟩
  · rename_i hne
    obtain ⟨arg, harg⟩ := exists_literal_of_all (by simpa using hne) hall t.loc
    exact ⟨_, by rw [harg]; rfl⟩

theorem exists_out {digits : List Char} (h : t.text.toList = '%' :: digits)
    (hall : digits.all Char.isDigit = true ∨ digits.all (· == '%') = true) :
    ∃ e, out table t = .ok e := by
  have hrest : textAfter 1 t = digits := textAfter_of_append ['%'] h
  simp only [out, hrest, h]
  split
  · exact ⟨_, rfl⟩
  rename_i hne
  split
  · exact ⟨_, rfl⟩
  · -- what is no run of signs is the number of an output
    rename_i hsigns
    have hdigits : digits.all Char.isDigit = true :=
      hall.resolve_right fun hall' => hsigns (by simpa using hall')
    obtain ⟨arg, harg⟩ := exists_literal_of_all (by simpa using hne) hdigits t.loc
    exact ⟨_, by rw [harg]; rfl⟩

theorem exists_blank (hmem : '_' ∈ t.text.toList) : ∃ e, blank table t = .ok e := by
  cases hname : optionalName? t.text.toList with
  | none => exact ⟨_, blank_of_mem hname hmem⟩
  | some name => exact ⟨_, blank_of_optionalName? hname⟩

/-- What is written as an atom stands for an expression, unless it is a number out of range. -/
theorem exists_atom_of_atomText (h : AtomText t.kind t.text.toList) :
    (∃ e, atom table t = .ok e) ∨
      t.kind = .number ∧ Number.ofLiteral? t.text = none ∧
        atom table t = .error (.invalidNumber t.loc) := by
  unfold atom leaf
  generalize hkind : t.kind = kind at h
  generalize htext : t.text.toList = text at h
  cases h with
  | symbol => exact .inl ⟨_, rfl⟩
  | string => exact .inl ⟨_, rfl⟩
  | filename => exact .inl ⟨_, rfl⟩
  | slot name => exact .inl (exists_slot htext)
  | slotSequence isDigits => exact .inl (exists_slotSequence htext isDigits)
  | out isDigits => exact .inl (exists_out htext isDigits)
  | optional => exact .inl (exists_blank (by simp [htext]))
  | @blank name marks head _ _ underscores isMarks =>
    -- a blank is told from an optional one by what stands at its end
    obtain ⟨c, marks, rfl⟩ := List.exists_cons_of_ne_nil underscores
    obtain rfl := isMarks c List.mem_cons_self
    exact .inl (exists_blank (by simp [htext]))
  | number =>
    -- a number alone may be refused, when it is out of range
    simp only [literal, Number.ofLiteral?, htext]
    cases Number.ofCharacters? text with
    | some value => exact .inl ⟨_, rfl⟩
    | none => exact .inr (by simp)

end Expr

/-! ## Reading atoms -/

namespace Reader

open Parse

/-- The token is what an expression starts with, by itself and whatever follows. -/
def Leads (t : Token) (e : Expr) : Prop :=
  ∀ (expr : Precedence → Parse Expr) (s : State) (rest : List Token),
    leading .standard expr (s.before (t :: rest)) = .ok e (s.before rest)

/-- No expression starts with the token. -/
def Refuses (t : Token) (error : SyntaxError) : Prop :=
  ∀ (expr : Precedence → Parse Expr) (s : State) (rest : List Token),
    leading .standard expr (s.before (t :: rest)) = .error error (s.before (t :: rest))

variable {t : Token} {e : Expr} {text : String} {tokens : List Token}

theorem leads_of_atom (hatom : t.kind.isAtom = true) (h : Expr.atom .standard t = .ok e) :
    Leads t e :=
  fun _ _ _ => leading_standard_atom hatom h

theorem refuses_of_atom {error : SyntaxError} (hatom : t.kind.isAtom = true)
    (h : Expr.atom .standard t = .error error) : Refuses t error := by
  intro expr s rest
  rw [Comparisons.leading_of_isAtom (by exact hatom), Reader.atom]
  have hcurrent : (s.before (t :: rest)).current = t := rfl
  simp only [peek_bind, hcurrent, h]
  rfl

theorem Leads.unique {e' : Expr} (h : Leads t e) (h' : Leads t e') : e = e' := by
  have hboth := (h (fun _ => unexpected) (.ofTokens []) []).symm.trans (h' _ _ _)
  cases hboth
  rfl

theorem Refuses.not_leads {error : SyntaxError} (h : Refuses t error) (e : Expr) : ¬Leads t e := by
  intro hleads
  cases (h (fun _ => unexpected) (.ofTokens []) []).symm.trans (hleads _ _ _)

/-! ## The atoms of a text -/

/-- A blank stands for what the source means that it takes of the text. -/
theorem exists_means_of_scanned {expects : Bool} {c : Cursor} {sources : List (List Char)}
    (h : Scan.Scanned expects c sources tokens) (ht : t ∈ tokens) (hkind : t.kind = .blank) :
    ∃ source, (source, t) ∈ sources.zip tokens ∧
      ∃ e, Placeholder.Means t.loc source e ∧ Expr.atom .standard t = .ok e := by
  induction h with
  | stop =>
    obtain rfl := List.mem_singleton.mp ht
    cases hkind
  | @token expects c place gap source found sources tokens _ _ _ stable _ ih =>
    rcases List.mem_cons.mp ht with rfl | ht
    · -- the source is scanned in the same way by itself
      have halone := Scan.plain_of_lexeme (stable.again 0 [] Scan.atBoundary_nil)
        (by rw [show found.kind = .blank from hkind]; decide)
      obtain ⟨source', hsource, hmeans⟩ :=
        Placeholder.exists_means_of_foundAs (Scan.foundAs_of_plain halone) hkind
      obtain rfl : source = source' := List.append_cancel_right hsource.1
      obtain ⟨e, he, hatom⟩ := hmeans (found.token place).loc
      refine ⟨source, List.mem_cons_self, e, he, ?_⟩
      rw [← hatom, ← hkind]
      rfl
    · obtain ⟨source', hmem, hmeans⟩ := ih ht
      exact ⟨source', List.mem_cons_of_mem _ hmem, hmeans⟩

/-- The reader takes each atom that was scanned, and nothing else with it, as what an expression
    starts with, except that a number may be out of range. A blank is taken as the one thing that
    its source means, by the name, the underscores and the head that stand there. -/
theorem leads_of_tokenize (h : tokenize text = .ok tokens) :
    (∀ t ∈ tokens, t.kind.isAtom = true → (∃ e, Leads t e) ∨
      t.kind = .number ∧ Number.ofLiteral? t.text = none ∧ Refuses t (.invalidNumber t.loc)) ∧
    ∃ sources, Scan.Scanned false (.ofText text) sources tokens ∧
      ∀ t ∈ tokens, t.kind = .blank → ∃ source, (source, t) ∈ sources.zip tokens ∧
        (∃ e, Placeholder.Means t.loc source e) ∧
        ∀ e, Placeholder.Means t.loc source e → Leads t e := by
  constructor
  · intro t ht hatom
    -- the text of an atom is that of a form that stands for an expression
    rcases Expr.exists_atom_of_atomText (Scan.atomText_of_mem_tokenize h ht hatom) with
      ⟨e, he⟩ | ⟨hkind, hnumber, herror⟩
    · exact .inl ⟨e, leads_of_atom hatom he⟩
    · exact .inr ⟨hkind, hnumber, refuses_of_atom hatom herror⟩
  · obtain ⟨sources, hscanned⟩ := Scan.exists_scanned (Scan.tokensFrom_of_tokenize h)
    refine ⟨sources, hscanned, fun t ht hkind => ?_⟩
    -- a blank means what its source says, which is one thing only
    obtain ⟨source, hmem, e, hmeans, hatom⟩ := exists_means_of_scanned hscanned ht hkind
    refine ⟨source, hmem, ⟨e, hmeans⟩, fun e' hmeans' => ?_⟩
    rw [hmeans'.unique hmeans]
    exact leads_of_atom (by rw [hkind]; rfl) hatom

/-- A blank under a name with a context and an escape, and a number in a base that there is not. -/
def atomTokens : List Token :=
  [⟨.blank, "a`bα__h", ⟨0, 14⟩⟩, ⟨.number, "37^^0", ⟨15, 20⟩⟩, .endOfInput ⟨20, 20⟩]

theorem leads_of_tokenize_atoms :
    tokenize "a`b\\[Alpha]__h 37^^0" = .ok atomTokens ∧
      (∃ source, Placeholder.Means ⟨0, 14⟩ source
        (.node (.symbol "Pattern" ⟨0, 14⟩) [.symbol "a`bα" ⟨0, 14⟩,
          .node (.symbol "BlankSequence" ⟨0, 14⟩) [.symbol "h" ⟨0, 14⟩] false ⟨0, 14⟩]
          false ⟨0, 14⟩)) ∧
      Refuses ⟨.number, "37^^0", ⟨15, 20⟩⟩ (.invalidNumber ⟨15, 20⟩) := by
  have htokens : tokenize "a`b\\[Alpha]__h 37^^0" = .ok atomTokens := by
    decide +kernel
  obtain ⟨hatoms, sources, -, hblanks⟩ := leads_of_tokenize htokens
  refine ⟨htokens, ?_, ?_⟩
  · obtain ⟨source, -, ⟨e, hmeans⟩, hleads⟩ := hblanks _ List.mem_cons_self rfl
    obtain rfl := (hleads e hmeans).unique (leads_of_atom rfl rfl)
    exact ⟨source, hmeans⟩
  · -- a base of 37 is out of range
    have hnone : Expr.atom .standard ⟨.number, "37^^0", ⟨15, 20⟩⟩ =
        .error (.invalidNumber ⟨15, 20⟩) := by
      decide +kernel
    rcases hatoms _ (List.mem_cons_of_mem _ List.mem_cons_self) rfl with
      ⟨e, hleads⟩ | ⟨-, -, hrefuses⟩
    · exact absurd hleads ((refuses_of_atom rfl hnone).not_leads e)
    · exact hrefuses

end Reader

end Symbolic
