import Symbolic.Proofs.Layout.LaidOut
import Symbolic.Proofs.Likeness.Twins

/-!
# Laying out the same tokens in another way

What the tokens of a text take of it can be written down again with other trivia around each. As
long as there is some between any two of them, the text is scanned into the same tokens, and so the
same is read.

## Key results

- `layOut`: a text made of the sources of tokens and trivia around them
- `exists_tokensFrom_layOut`: it is scanned into the same tokens
- `exists_laidOut_and_sameInLayouts`: whatever a text is scanned into, and read as, does not depend
  on its layout
-/

namespace Symbolic.Scan

/-- The sources one after the other, each with a gap after it, and another gap before all. -/
def layOut (lead : List Char) (sources gaps : List (List Char)) : List Char :=
  lead ++ (List.zipWith (· ++ ·) sources gaps).flatten

/-- Gaps that keep tokens apart: one of trivia for each, where only the last may be empty. -/
structure KeepApart (sources gaps : List (List Char)) : Prop where
  length_eq : gaps.length = sources.length
  isTrivia : ∀ gap ∈ gaps, IsTrivia gap
  ne_nil : ∀ gap ∈ gaps.dropLast, gap ≠ []

/-- What of a token does not depend on where it is. -/
def lexical (t : Token) : TokenKind × String :=
  (t.kind, t.text)

theorem layOut_cons (lead source gap : List Char) (sources gaps : List (List Char)) :
    layOut lead (source :: sources) (gap :: gaps) =
      lead ++ (source ++ layOut gap sources gaps) := by
  simp [layOut]

namespace KeepApart

variable {source gap : List Char} {sources gaps : List (List Char)}

theorem exists_cons (h : KeepApart (source :: sources) gaps) :
    ∃ gap rest, gaps = gap :: rest ∧ IsTrivia gap ∧ KeepApart sources rest ∧
      AtBoundary (layOut gap sources rest) := by
  obtain ⟨hlength, htrivia, hne⟩ := h
  cases gaps with
  | nil => cases hlength
  | cons gap rest =>
    obtain ⟨hgap, hrest⟩ := List.forall_mem_cons.mp htrivia
    have hlength' : rest.length = sources.length := Nat.succ.inj hlength
    refine ⟨gap, rest, rfl, hgap, ⟨hlength', hrest, fun gap' hmem => ?_⟩, ?_⟩
    · cases rest with
      | nil => cases hmem
      | cons gap'' rest =>
        rw [List.dropLast_cons_cons] at hne
        exact hne gap' (List.mem_cons_of_mem _ hmem)
    · cases rest with
      | nil =>
        -- nothing stands after the last gap
        obtain rfl := List.length_eq_zero_iff.mp hlength'.symm
        by_cases hnil : gap = []
        · subst hnil
          exact atBoundary_nil
        · exact hgap.atBoundary hnil _
      | cons gap' rest =>
        rw [List.dropLast_cons_cons] at hne
        exact hgap.atBoundary (hne gap List.mem_cons_self) _

end KeepApart

/-- Before a lexeme nothing is skipped, where else it may stand. -/
theorem skip_source {c place : Cursor} {read : Cursor → Except ScanError Lexeme} {found : Lexeme}
    {source tail : List Char} (h : Trivia.skip c = .ok place)
    (hstable : Stable read place found source) (htail : AtBoundary tail) (offset : Nat) :
    Trivia.skip ⟨offset, source ++ tail⟩ = .ok ⟨offset, source ++ tail⟩ := by
  obtain ⟨d, source, rfl⟩ := List.exists_cons_of_ne_nil hstable.ne_nil
  obtain ⟨hblank, hopen⟩ := not_open_of_skipFrom h hstable.passes.1
  refine skip_of_not_open hblank (fun after hd heq => ?_) offset
  -- a comment that starts here would have started there as well, as no boundary is an asterisk
  cases source with
  | nil => exact htail.ne_cons (by decide) _ heq
  | cons e source =>
    rw [List.append_eq, List.cons_append] at heq
    rw [(List.cons.inj heq).1] at hopen
    exact hopen _ hd rfl

/-- The sources of scanned tokens are scanned into the same tokens in another layout. -/
theorem Scanned.exists_tokensFrom_layOut {expects : Bool} {c : Cursor} {sources : List (List Char)}
    {tokens : List Token} (h : Scanned expects c sources tokens) {lead : List Char}
    {gaps : List (List Char)} (hlead : IsTrivia lead) (hgaps : KeepApart sources gaps)
    (offset : Nat) : ∃ tokens', tokensFrom expects ⟨offset, layOut lead sources gaps⟩ =
      (tokens', none) ∧ tokens'.map lexical = tokens.map lexical := by
  -- what is skipped is now the gap before each token in place of the one in the text
  induction h generalizing lead gaps offset with
  | @stop expects c gap stop =>
    have hskip := skip_append hlead offset []
    rw [skip_nil] at hskip
    refine ⟨[.endOfInput (.ofOffsets (offset + Text.byteLength lead)
      (offset + Text.byteLength lead))], ?_, rfl⟩
    rw [layOut, List.zipWith_nil_left, List.flatten_nil, tokensFrom_of_skip hskip, lexeme_nil]
    rfl
  | @token expects c place gap source found sources tokens isGap passes skip stable _ ih =>
    obtain ⟨gap', rest, rfl, hgap', hrest, hboundary⟩ := hgaps.exists_cons
    obtain ⟨tokens', htokens', hlexical⟩ := ih hgap' hrest
      (offset + Text.byteLength lead + Text.byteLength source)
    have hskip := skip_append hlead offset (source ++ layOut gap' sources rest)
    rw [skip_source skip stable hboundary] at hskip
    rw [layOut_cons, tokensFrom_of_skip hskip, stable.again _ _ hboundary]
    simp only [List.append_eq_nil_iff, stable.ne_nil, false_and, if_false, htokens']
    exact ⟨_, rfl, congrArg₂ List.cons rfl hlexical⟩

theorem exists_tokenize_layOut {text : String} {tokens : List Token}
    {sources gaps : List (List Char)} {lead : List Char}
    (h : Scanned false (.ofText text) sources tokens) (hlead : IsTrivia lead)
    (hgaps : KeepApart sources gaps) :
    ∃ tokens', tokenize (.ofList (layOut lead sources gaps)) = .ok tokens' ∧
      tokens'.map lexical = tokens.map lexical := by
  obtain ⟨tokens', htokens', hlexical⟩ := h.exists_tokensFrom_layOut hlead hgaps 0
  refine ⟨tokens', tokenize_of_tokensFrom ?_, hlexical⟩
  rw [Cursor.ofText, String.toList_ofList]
  exact htokens'

/-! ## What is read -/

open Reader (SameShape eraseOutcome)

theorem sameShape_of_lexical {tokens tokens' : List Token}
    (h : tokens'.map lexical = tokens.map lexical) : List.Forall₂ SameShape tokens tokens' := by
  have hboth : List.Forall₂ (fun t t' => lexical t' = lexical t) tokens tokens' := by
    rw [← List.forall₂_eq_eq_eq, List.forall₂_map_left_iff, List.forall₂_map_right_iff] at h
    exact h.flip
  refine hboth.imp fun t t' hsame => ?_
  obtain ⟨hkind, htext⟩ := Prod.mk.inj hsame
  exact ⟨hkind, fun _ => htext, fun _ => by rw [htext]⟩

/-- Reading both sequences of tokens ends in the same way, locations apart. -/
def ReadAlike (settings : Settings) (tokens tokens' : List Token) : Prop :=
  eraseOutcome (readTokens settings tokens) = eraseOutcome (readTokens settings tokens')

/-- Reading the tokens takes no more room than there is. -/
def Roomy (settings : Settings) (tokens : List Token) : Prop :=
  ∀ loc, readTokens settings tokens ≠ .error (.recursionLimitExceeded loc)

/-- In each layout the tokens are scanned and read as they are in the text. Only beyond 2 ^ 32 bytes
    may they be read in another way, and only where one of the two readings runs out of room. -/
def SameInLayouts (text : String) (sources : List (List Char)) (tokens : List Token) : Prop :=
  ∀ lead gaps, IsTrivia lead → KeepApart sources gaps →
    ∃ tokens', tokenize (.ofList (layOut lead sources gaps)) = .ok tokens' ∧
      tokens'.map lexical = tokens.map lexical ∧
      ∀ settings, (text.utf8ByteSize < 4294967296 ∧
          (String.ofList (layOut lead sources gaps)).utf8ByteSize < 4294967296) ∨
        (Roomy settings tokens ∧ Roomy settings tokens') → ReadAlike settings tokens tokens'

/-- Texts of fewer than 2 ^ 32 bytes with the same tokens are read alike. -/
theorem readAlike_of_tokenize {text text' : String} {tokens tokens' : List Token}
    (h : tokenize text = .ok tokens) (h' : tokenize text' = .ok tokens')
    (hsize : text.utf8ByteSize < 4294967296) (hsize' : text'.utf8ByteSize < 4294967296)
    (hlexical : tokens'.map lexical = tokens.map lexical) (settings : Settings) :
    ReadAlike settings tokens tokens' := by
  obtain ⟨sources, hlaid⟩ := exists_laidOut_of_tokenize h
  obtain ⟨sources', hlaid'⟩ := exists_laidOut_of_tokenize h'
  rw [← Text.byteLength_toList, ← Nat.zero_add (Text.byteLength _)] at hsize hsize'
  exact Reader.eraseOutcome_eq_of_nodup (sameShape_of_lexical hlexical) hlaid.exists_endOfInput
    hlaid'.exists_endOfInput (hlaid.nodup hsize) (hlaid'.nodup hsize')

/-- What the tokens of a text take of it can be laid out in any other way, with blanks and comments
    between any two of them: it is scanned into the same tokens, and the same is read. -/
theorem exists_laidOut_and_sameInLayouts {text : String} {tokens : List Token}
    (h : tokenize text = .ok tokens) :
    ∃ sources, LaidOut 0 text.toList sources tokens ∧ SameInLayouts text sources tokens := by
  obtain ⟨sources, hscanned⟩ := exists_scanned (tokensFrom_of_tokenize h)
  refine ⟨sources, hscanned.laidOut, fun lead gaps hlead hgaps => ?_⟩
  obtain ⟨tokens', htokens', hlexical⟩ := exists_tokenize_layOut hscanned hlead hgaps
  refine ⟨tokens', htokens', hlexical, fun settings hsettings => ?_⟩
  rcases hsettings with ⟨hsize, hsize'⟩ | ⟨hroomy, hroomy'⟩
  · -- all tokens are at places of their own
    exact readAlike_of_tokenize h htokens' hsize hsize' hlexical settings
  · exact Reader.eraseOutcome_eq_of_like
      (Reader.like_readTokens_of_roomy (sameShape_of_lexical hlexical) hroomy hroomy')

/-- A point that belongs to a number as long as no other follows it, and a slash that starts an
    operator only before another slash. -/
theorem sameInLayouts_pointsAndSlashes : ∃ sources,
    LaidOut 0 "1..2/.5".toList sources
        [⟨.number, "1", ⟨0, 1⟩⟩, ⟨.repeated, "..", ⟨1, 3⟩⟩, ⟨.number, "2", ⟨3, 4⟩⟩,
          ⟨.divide, "/", ⟨4, 5⟩⟩, ⟨.number, ".5", ⟨5, 7⟩⟩, .endOfInput ⟨7, 7⟩] ∧
      SameInLayouts "1..2/.5" sources
        [⟨.number, "1", ⟨0, 1⟩⟩, ⟨.repeated, "..", ⟨1, 3⟩⟩, ⟨.number, "2", ⟨3, 4⟩⟩,
          ⟨.divide, "/", ⟨4, 5⟩⟩, ⟨.number, ".5", ⟨5, 7⟩⟩, .endOfInput ⟨7, 7⟩] :=
  exists_laidOut_and_sameInLayouts (by decide +kernel)

end Symbolic.Scan
