import Symbolic.Expr.Atom

/-!
# What atoms stand for

Every atom but a leaf stands for a node, whose arguments are read off the text of its token.

## Key results

- `eq_of_slot`, `eq_of_slotSequence`, `eq_of_out`: references
- `eq_of_blank`: blanks, with a name or without one
- `mem_atomHeads_of_atom`: the heads of what atoms stand for
- `error_of_atom`: errors of atoms
-/

namespace Symbolic

/-- Whether an error is about a token: neither about the end of the input within a bracket, nor
    about the room for nesting. -/
def SyntaxError.isAboutToken : SyntaxError → Bool
  | .unclosedBracket _ | .recursionLimitExceeded _ => false
  | _ => true

/-- An error about a token can be recovered from. -/
theorem SyntaxError.isRecoverable_of_isAboutToken {e : SyntaxError} (h : e.isAboutToken = true) :
    e.isRecoverable = true := by
  cases e with
  | recursionLimitExceeded loc => cases h
  | _ => rfl

namespace Expr

variable {table : OperatorTable} {t : Token} {e : Expr}

/-! ## Names and heads -/

/-- The names that constants have in place of their signs. -/
def constantNames : List String :=
  ["Pi", "Degree", "Infinity", "E", "I"]

/-- A name stands for itself or for a constant. -/
theorem canonicalName_cases (name : String) :
    canonicalName name = name ∨ canonicalName name ∈ constantNames := by
  unfold canonicalName
  split
  case h_7 => exact .inl rfl
  all_goals exact .inr (by decide)

/-- The signs that stand for constants. -/
def constantSigns : List String :=
  ["\u03c0", "\u00b0", "\u221e", "\uf74d", "\uf74e", "\uf74f"]

/-- A name that is no sign of a constant stands for itself. -/
theorem canonicalName_of_notMem {name : String} (h : name ∉ constantSigns) :
    canonicalName name = name := by
  have hsign : ∀ c, name.toList = [c] → name = .ofList [c] := by
    intro c hc
    rw [← hc, String.ofList_toList]
  unfold canonicalName
  split
  case h_7 => rfl
  all_goals
    rename_i hname
    exact absurd (hsign _ hname ▸ by decide) h

/-- A name that is no constant is the canonical name of nothing but itself. -/
theorem canonicalName_eq_iff {name text : String} (hnames : text ∉ constantNames)
    (hsigns : text ∉ constantSigns) : canonicalName name = text ↔ name = text := by
  constructor
  · rintro rfl
    exact ((canonicalName_cases name).resolve_right hnames).symm
  · rintro rfl
    exact canonicalName_of_notMem hsigns

/-- The heads of the nodes that atoms stand for. -/
def atomHeads : List String :=
  ["Slot", "SlotSequence", "Out", "Blank", "BlankSequence", "BlankNullSequence", "Pattern",
    "Optional"]

/-- Blanks have heads of atoms. -/
theorem blankHead_mem_atomHeads (marks : Nat) : blankHead marks ∈ atomHeads := by
  unfold blankHead
  split <;> decide

/-! ## References -/

/-- What is read off a token is part of its text. -/
theorem infix_textAfter (n : Nat) (t : Token) : textAfter n t <:+: t.text.toList := by
  unfold textAfter
  cases h : Text.dropBytes? n t.text.toList with
  | none => exact List.nil_infix
  | some rest => exact (Text.suffix_of_dropBytes? h).isInfix

/-- A slot has a number or a name, and it is the first one without either. -/
theorem eq_of_slot (h : slot table t = .ok e) : ∃ arg, e = make table "Slot" [arg] t.loc ∧
    (arg = integer 1 t.loc ∨ arg = string (.ofList (textAfter 1 t)) t.loc ∨
      (textAfter 1 t).all Char.isDigit = true ∧ literal (textAfter 1 t) t.loc = .ok arg) := by
  simp only [slot] at h
  split at h
  · cases h
    exact ⟨_, rfl, .inl rfl⟩
  split at h
  · rename_i hdigits
    -- a number behind the mark
    cases hliteral : literal (textAfter 1 t) t.loc with
    | error error =>
      rw [hliteral] at h
      cases h
    | ok arg =>
      rw [hliteral] at h
      cases h
      exact ⟨arg, rfl, .inr (.inr ⟨hdigits, rfl⟩)⟩
  · cases h
    exact ⟨_, rfl, .inr (.inl rfl)⟩

/-- A sequence of slots stands for a node with a number. -/
theorem eq_of_slotSequence (h : slotSequence table t = .ok e) :
    ∃ arg, e = make table "SlotSequence" [arg] t.loc ∧
      (arg = integer 1 t.loc ∨ literal (textAfter 2 t) t.loc = .ok arg) := by
  simp only [slotSequence] at h
  split at h
  · cases h
    exact ⟨_, rfl, .inl rfl⟩
  · cases hliteral : literal (textAfter 2 t) t.loc with
    | error error =>
      rw [hliteral] at h
      cases h
    | ok arg =>
      rw [hliteral] at h
      cases h
      exact ⟨arg, rfl, .inr rfl⟩

/-- An output is the last one, or is counted from the last one or from the first. -/
theorem eq_of_out (h : out table t = .ok e) : ∃ args, e = make table "Out" args t.loc ∧
    (args = [] ∨ (∃ n, args = [integer n t.loc]) ∨
      t.text.toList.all (· == '%') = false ∧
        ∃ arg, args = [arg] ∧ literal (textAfter 1 t) t.loc = .ok arg) := by
  simp only [out] at h
  split at h
  · cases h
    exact ⟨_, rfl, .inl rfl⟩
  split at h
  · cases h
    -- several signs count back from the last output
    exact ⟨_, rfl, .inr (.inl ⟨_, rfl⟩)⟩
  rename_i hsigns
  · cases hliteral : literal (textAfter 1 t) t.loc with
    | error error =>
      rw [hliteral] at h
      cases h
    | ok arg =>
      rw [hliteral] at h
      cases h
      exact ⟨_, rfl, .inr (.inr ⟨Bool.eq_false_iff.mpr hsigns, arg, rfl, rfl⟩)⟩

/-! ## Blanks -/

/-- A blank with the name before it and the head after it, each of which may be empty. -/
def placeholder (table : OperatorTable) (name head : List Char) (marks : Nat) (loc : Location) :
    Expr :=
  let args := if head.isEmpty then [] else [symbol (.ofList head) loc]
  namedPattern table name (make table (blankHead marks) args loc) loc

/-- The name, the number of underscores and the head in the text of a blank. -/
def blankParts (text : List Char) : List Char × Nat × List Char :=
  let rest := text.dropWhile (· != '_')
  let head := rest.dropWhile (· == '_')
  (text.takeWhile (· != '_'), rest.length - head.length, head)

/-- An optional blank is a name before an underscore and a point. -/
theorem eq_of_optionalName? {text name : List Char} (h : optionalName? text = some name) :
    text = name ++ ['_', '.'] := by
  unfold optionalName? at h
  split at h
  · rename_i name' hreverse
    cases h
    rw [← List.reverse_reverse text, hreverse]
    simp
  · cases h

/-- An optional blank stands for the default of a pattern. -/
theorem blank_of_optionalName? {name : List Char} (h : optionalName? t.text.toList = some name) :
    blank table t = .ok (make table "Optional" [placeholder table name [] 1 t.loc] t.loc) := by
  simp only [blank, h]
  rfl

/-- A blank with underscores in its text stands for a node. -/
theorem blank_of_mem (hname : optionalName? t.text.toList = none) (hmem : '_' ∈ t.text.toList) :
    blank table t = .ok (placeholder table (blankParts t.text.toList).1
      (blankParts t.text.toList).2.2 (blankParts t.text.toList).2.1 t.loc) := by
  simp only [blank, hname]
  split
  · -- the text would be what stands before its first underscore
    rename_i hnil
    have htext := List.takeWhile_append_dropWhile (p := (· != '_')) (l := t.text.toList)
    rw [hnil, List.append_nil] at htext
    rw [← htext] at hmem
    simpa using List.all_eq_true.mp List.all_takeWhile _ hmem
  · rfl

/-- A blank stands for a pattern, which may be optional. -/
theorem eq_of_blank (h : blank table t = .ok e) :
    (∃ name, optionalName? t.text.toList = some name ∧
      e = make table "Optional" [placeholder table name [] 1 t.loc] t.loc) ∨
    (optionalName? t.text.toList = none ∧
      e = placeholder table (blankParts t.text.toList).1 (blankParts t.text.toList).2.2
        (blankParts t.text.toList).2.1 t.loc) := by
  unfold blank at h
  dsimp only at h
  split at h
  · rename_i name hname
    cases h
    exact .inl ⟨name, hname, rfl⟩
  · rename_i hname
    refine .inr ⟨hname, ?_⟩
    split at h
    · cases h
    · cases h
      rfl

/-! ## Heads -/

/-- The head of a pattern is one of those that atoms make. -/
theorem mem_atomHeads_of_placeholder {name head : List Char} {marks : Nat} {loc : Location}
    {text : String} (h : (placeholder table name head marks loc).headName? = some text) :
    text ∈ atomHeads := by
  unfold placeholder namedPattern at h
  dsimp only at h
  by_cases hname : name.isEmpty = true
  · rw [if_pos hname] at h
    cases h
    exact blankHead_mem_atomHeads marks
  · rw [if_neg hname] at h
    cases h
    decide

/-- The nodes that atoms stand for have heads of their own. -/
theorem mem_atomHeads_of_atom {text : String} (h : atom table t = .ok e)
    (hhead : e.headName? = some text) : text ∈ atomHeads := by
  unfold atom at h
  split at h
  · obtain ⟨arg, rfl, -⟩ := eq_of_slot h
    cases hhead
    decide
  · obtain ⟨arg, rfl, -⟩ := eq_of_slotSequence h
    cases hhead
    decide
  · obtain ⟨args, rfl, -⟩ := eq_of_out h
    cases hhead
    decide
  · rcases eq_of_blank h with ⟨name, -, rfl⟩ | ⟨-, rfl⟩
    · cases hhead
      decide
    · exact mem_atomHeads_of_placeholder hhead
  · -- a leaf is no node
    unfold leaf literal at h
    split at h
    · cases h
      cases hhead
    · split at h <;> cases h
      cases hhead
    · cases h
      cases hhead
    · cases h
      cases hhead
    · cases h

/-! ## Errors -/

/-- Whether tokens of the kind may hold a number. -/
def holdsNumber : TokenKind → Bool
  | .number | .slot | .slotSequence | .out => true
  | _ => false

/-- A literal is refused as an invalid number. -/
theorem error_of_literal {text : List Char} {loc : Location} {error : SyntaxError}
    (h : literal text loc = .error error) : error = .invalidNumber loc := by
  unfold literal at h
  split at h <;> cases h
  rfl

/-- What uses a literal fails as the literal does. -/
theorem error_of_literal_bind {text : List Char} {loc : Location} {error : SyntaxError}
    {f : Expr → Except SyntaxError Expr} (hf : ∀ arg, ∃ e, f arg = .ok e)
    (h : literal text loc >>= f = .error error) : error = .invalidNumber loc := by
  cases hliteral : literal text loc with
  | error found =>
    rw [hliteral] at h
    cases h
    exact error_of_literal hliteral
  | ok arg =>
    obtain ⟨e, he⟩ := hf arg
    rw [hliteral] at h
    cases he.symm.trans h

/-- So is a slot. -/
theorem error_of_slot {error : SyntaxError} (h : slot table t = .error error) :
    error = .invalidNumber t.loc := by
  simp only [slot] at h
  split at h
  · cases h
  split at h
  · exact error_of_literal_bind (fun arg => ⟨_, rfl⟩) h
  · cases h

/-- So is a sequence of slots. -/
theorem error_of_slotSequence {error : SyntaxError} (h : slotSequence table t = .error error) :
    error = .invalidNumber t.loc := by
  simp only [slotSequence] at h
  split at h
  · cases h
  · exact error_of_literal_bind (fun arg => ⟨_, rfl⟩) h

/-- So is a reference to an output. -/
theorem error_of_out {error : SyntaxError} (h : out table t = .error error) :
    error = .invalidNumber t.loc := by
  simp only [out] at h
  split at h
  · cases h
  split at h
  · cases h
  · cases hliteral : literal (textAfter 1 t) t.loc with
    | error found =>
      rw [hliteral] at h
      cases h
      exact error_of_literal hliteral
    | ok arg =>
      rw [hliteral] at h
      cases h

/-- A blank is refused as an unexpected token. -/
theorem error_of_blank {error : SyntaxError} (h : blank table t = .error error) :
    error = .unexpectedToken t.loc t.kind := by
  unfold blank at h
  dsimp only at h
  split at h
  · cases h
  · split at h <;> cases h
    rfl

/-- Whatever is wrong with an atom is wrong with its token. -/
theorem error_of_atom {error : SyntaxError} (h : atom table t = .error error) :
    error = .unexpectedToken t.loc t.kind ∨
      holdsNumber t.kind = true ∧ error = .invalidNumber t.loc := by
  unfold atom at h
  split at h
  · rename_i hkind
    exact .inr ⟨by rw [hkind]; rfl, error_of_slot h⟩
  · rename_i hkind
    exact .inr ⟨by rw [hkind]; rfl, error_of_slotSequence h⟩
  · rename_i hkind
    exact .inr ⟨by rw [hkind]; rfl, error_of_out h⟩
  · exact .inl (error_of_blank h)
  · -- of the plain atoms only a number can fail
    unfold leaf at h
    split at h
    · cases h
    · rename_i hkind
      exact .inr ⟨by rw [hkind]; rfl, error_of_literal h⟩
    · cases h
    · cases h
    · cases h
      exact .inl rfl

/-- An atom is refused with an error about its token. -/
theorem isAboutToken_of_atom {error : SyntaxError} (h : atom table t = .error error) :
    error.isAboutToken = true := by
  rcases error_of_atom h with rfl | ⟨-, rfl⟩ <;> rfl

end Expr

end Symbolic
