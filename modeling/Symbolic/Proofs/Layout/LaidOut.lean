import Symbolic.Proofs.Layout.Stable
import Symbolic.Proofs.Layout.Trivia

/-!
# How the tokens of a text are laid out

The tokens of a text stand in it one after the other, each at the bytes that it is located at. What
stands before, between and after them is trivia, and the end of the input is located at the end of
the text.

## Key results

- `Scanned`, `exists_scanned`: the lexemes that a text is scanned into, with what each takes of it
- `LaidOut`, `Scanned.laidOut`: tokens with trivia around them
- `covers_of_tokenize`: the tokens of a text cover all of it but trivia
-/

namespace Symbolic.Scan

open Text (byteLength byteLength_nil byteLength_cons byteLength_append)

/-! ## The lexemes of a text -/

/-- From `c` on, the lexemes that take `sources` are found, and they are the tokens. The flag says
    whether the name of a file may come first. -/
inductive Scanned : Bool → Cursor → List (List Char) → List Token → Prop
  | stop {expects : Bool} {c : Cursor} {gap : List Char} {offset : Nat} (isGap : IsTrivia gap)
      (passes : c.Passes gap ⟨offset, []⟩) :
      Scanned expects c [] [.endOfInput (.ofOffsets offset offset)]
  | token {expects : Bool} {c place : Cursor} {gap source : List Char} {found : Lexeme}
      {sources : List (List Char)} {tokens : List Token} (isGap : IsTrivia gap)
      (passes : c.Passes gap place) (skip : Trivia.skip c = .ok place)
      (stable : Stable (lexeme expects) place found source)
      (tail : Scanned found.kind.takesFilename found.next sources tokens) :
      Scanned expects c (source :: sources) (found.token place :: tokens)

/-- A text without a fault is scanned into lexemes up to its end. -/
theorem exists_scanned {expects : Bool} {c : Cursor} {tokens : List Token}
    (h : tokensFrom expects c = (tokens, none)) : ∃ sources, Scanned expects c sources tokens := by
  -- each lexeme takes a character, so the induction is on how many there are
  induction hn : c.rest.length using Nat.strongRecOn generalizing expects c tokens with
  | _ n ih =>
    subst hn
    cases hskip : Trivia.skip c with
    | error e =>
      rw [tokensFrom_of_skip_error hskip] at h
      cases h
    | ok place =>
      obtain ⟨gap, hpasses, hgap⟩ := exists_isTrivia_of_skip hskip
      rw [tokensFrom_of_skip hskip] at h
      split at h
      · cases h
      · rename_i found hfound
        split at h
        · -- the end of the input ends the tokens
          rename_i hrest
          obtain ⟨offset, rest⟩ := place
          obtain rfl : rest = [] := hrest
          obtain rfl := Except.ok.inj (hfound.symm.trans (lexeme_nil expects offset))
          cases h
          exact ⟨[], .stop hgap hpasses⟩
        · rename_i hrest
          obtain ⟨hsource, hfault⟩ := Prod.mk.inj h
          obtain ⟨source, hstable⟩ := exists_stable_lexeme hrest hfound
          have hlt := ((Trivia.reaches_of_skip hskip).trans_precedes
            (precedes_of_lexeme hrest hfound)).length_lt
          obtain ⟨sources, hsources⟩ := ih _ hlt (Prod.ext rfl hfault) rfl
          exact ⟨source :: sources, hsource ▸ .token hgap hpasses hskip hstable hsources⟩

/-! ## Tokens in a text -/

/-- From the offset on, the tokens stand in the text one after the other with trivia before each:
    each takes one of the sources and is located at its bytes. -/
inductive LaidOut : Nat → List Char → List (List Char) → List Token → Prop
  | stop {offset : Nat} {gap : List Char} (isGap : IsTrivia gap) :
      LaidOut offset gap []
        [.endOfInput (.ofOffsets (offset + byteLength gap) (offset + byteLength gap))]
  | token {offset : Nat} {gap source rest : List Char} {t : Token} {sources : List (List Char)}
      {tokens : List Token} (isGap : IsTrivia gap) (ne_nil : source ≠ [])
      (kind : t.kind ≠ .endOfInput)
      (loc : t.loc = .ofOffsets (offset + byteLength gap) (offset + byteLength (gap ++ source)))
      (tail : LaidOut (offset + byteLength (gap ++ source)) rest sources tokens) :
      LaidOut offset (gap ++ source ++ rest) (source :: sources) (t :: tokens)

/-- Scanned tokens are laid out in the text. -/
theorem Scanned.laidOut {expects : Bool} {c : Cursor} {sources : List (List Char)}
    {tokens : List Token} (h : Scanned expects c sources tokens) :
    LaidOut c.offset c.rest sources tokens := by
  induction h with
  | @stop expects c gap offset isGap passes =>
    obtain ⟨hrest, hoffset⟩ := passes
    dsimp only at hrest hoffset
    rw [hoffset, hrest, List.append_nil]
    exact .stop isGap
  | @token expects c place gap source found sources tokens isGap passes _ stable _ ih =>
    have hboth := passes.trans stable.passes
    rw [hboth.1]
    refine .token isGap stable.ne_nil stable.kind ?_ (hboth.2 ▸ ih)
    rw [Lexeme.token, hboth.2, passes.2]

/-- The tokens of a text are laid out in it. -/
theorem exists_laidOut_of_tokenize {text : String} {tokens : List Token}
    (h : tokenize text = .ok tokens) : ∃ sources, LaidOut 0 text.toList sources tokens := by
  obtain ⟨sources, hscanned⟩ := exists_scanned (tokensFrom_of_tokenize h)
  exact ⟨sources, hscanned.laidOut⟩

/-! ## What lies between tokens -/

/-- The stretches of a text that no token takes: from the given place to the first token, between
    neighbours, and before the end of the input. -/
def gaps (start : UInt32) (tokens : List Token) : List (UInt32 × UInt32) :=
  (start :: tokens.map (·.loc.stop)).zip (tokens.map (·.loc.start))

/-- The tokens take all of a text but trivia. -/
structure Covers (text : String) (tokens : List Token) : Prop where
  /-- The last token, and no other, is the end of the input, at the end of the text. All others take
      some of the text. -/
  stop : ∃ init stop, tokens = init ++ [.endOfInput (.empty stop)] ∧
    stop.toNat = text.utf8ByteSize ∧ ∀ t ∈ init, t.kind ≠ .endOfInput ∧ t.loc.start < t.loc.stop
  /-- No token starts before the end of any that comes before it. -/
  ordered : tokens.Pairwise fun t t' => t.loc.stop ≤ t'.loc.start
  /-- What no token takes is trivia. -/
  trivia : ∀ gap ∈ gaps 0 tokens, ∃ before between after,
    text.toList = before ++ between ++ after ∧ byteLength before = gap.1.toNat ∧
      byteLength (before ++ between) = gap.2.toNat ∧ IsTrivia between

theorem byteLength_pos {cs : List Char} (h : cs ≠ []) : 0 < byteLength cs := by
  obtain ⟨c, cs, rfl⟩ := List.exists_cons_of_ne_nil h
  have := c.utf8Size_pos
  rw [byteLength_cons]
  omega

namespace LaidOut

variable {offset : Nat} {cs : List Char} {sources : List (List Char)} {tokens : List Token}

theorem exists_stop (h : LaidOut offset cs sources tokens)
    (hsize : offset + byteLength cs < 4294967296) :
    ∃ init stop, tokens = init ++ [.endOfInput (.empty stop)] ∧
      stop.toNat = offset + byteLength cs ∧
      ∀ t ∈ init, t.kind ≠ .endOfInput ∧ t.loc.start < t.loc.stop := by
  induction h with
  | stop =>
    exact ⟨[], _, rfl, (Location.toNat_ends rfl (Nat.le_refl _) hsize).1, List.forall_mem_nil _⟩
  | @token offset gap source rest t sources tokens isGap ne_nil kind loc _ ih =>
    have hpos := byteLength_pos ne_nil
    simp only [byteLength_append, ← Nat.add_assoc] at hsize ih loc ⊢
    -- the text is small enough for its offsets to be exact
    obtain ⟨hstart, hstop⟩ := Location.toNat_ends loc (by omega) (by omega)
    obtain ⟨init, stop, rfl, hend, hinit⟩ := ih hsize
    refine ⟨t :: init, stop, rfl, hend, List.forall_mem_cons.mpr ⟨⟨kind, ?_⟩, hinit⟩⟩
    rw [UInt32.lt_iff_toNat_lt]
    omega

theorem exists_endOfInput (h : LaidOut offset cs sources tokens) :
    ∃ t ∈ tokens, t.kind = .endOfInput := by
  induction h with
  | stop => exact ⟨_, List.mem_singleton_self _, rfl⟩
  | token _ _ _ _ _ ih =>
    obtain ⟨t, ht, hkind⟩ := ih
    exact ⟨t, List.mem_cons_of_mem _ ht, hkind⟩

/-- The end of the input comes last, and nowhere else. -/
theorem exists_init (h : LaidOut offset cs sources tokens) :
    ∃ init stop, tokens = init ++ [.endOfInput stop] ∧ ∀ t ∈ init, t.kind ≠ .endOfInput := by
  induction h with
  | stop => exact ⟨[], _, rfl, List.forall_mem_nil _⟩
  | token _ _ kind _ _ ih =>
    obtain ⟨init, stop, rfl, hinit⟩ := ih
    exact ⟨_ :: init, stop, rfl, List.forall_mem_cons.mpr ⟨kind, hinit⟩⟩

theorem le_start (h : LaidOut offset cs sources tokens)
    (hsize : offset + byteLength cs < 4294967296) {t : Token} (ht : t ∈ tokens) :
    offset ≤ t.loc.start.toNat := by
  -- induction on the layout, from the first token on
  induction h with
  | stop =>
    obtain rfl := List.mem_singleton.mp ht
    have hstart := (Location.toNat_ends rfl (Nat.le_refl _) hsize).1
    exact Nat.le_trans (Nat.le_add_right ..) (Nat.le_of_eq hstart.symm)
  | @token offset gap source rest t' sources tokens isGap ne_nil kind loc _ ih =>
    simp only [byteLength_append, ← Nat.add_assoc] at hsize ih loc
    rcases List.mem_cons.mp ht with rfl | ht
    · have hends := Location.toNat_ends loc (by omega) (by omega)
      omega
    · have hrest := ih hsize ht
      omega

/-- Each token starts behind the start of those before it, and not before their ends. -/
theorem pairwise (h : LaidOut offset cs sources tokens)
    (hsize : offset + byteLength cs < 4294967296) :
    tokens.Pairwise fun t t' => t.loc.start < t'.loc.start ∧ t.loc.stop ≤ t'.loc.start := by
  induction h with
  | stop => exact List.pairwise_singleton _ _
  | @token offset gap source rest t sources tokens isGap ne_nil kind loc tail ih =>
    have hpos := byteLength_pos ne_nil
    simp only [byteLength_append, ← Nat.add_assoc] at hsize ih loc tail
    obtain ⟨hstart, hstop⟩ := Location.toNat_ends loc (by omega) (by omega)
    refine List.pairwise_cons.mpr ⟨fun t' ht' => ?_, ih hsize⟩
    have hrest := tail.le_start hsize ht'
    rw [UInt32.lt_iff_toNat_lt, UInt32.le_iff_toNat_le]
    omega

theorem ordered (h : LaidOut offset cs sources tokens)
    (hsize : offset + byteLength cs < 4294967296) :
    tokens.Pairwise fun t t' => t.loc.stop ≤ t'.loc.start :=
  (h.pairwise hsize).imp And.right

/-- No two tokens are at one place. -/
theorem nodup (h : LaidOut offset cs sources tokens)
    (hsize : offset + byteLength cs < 4294967296) : (tokens.map (·.loc)).Nodup := by
  refine List.pairwise_map.mpr ((h.pairwise hsize).imp fun hlt heq => ?_)
  rw [heq] at hlt
  exact UInt32.lt_irrefl _ hlt.1

theorem trivia (h : LaidOut offset cs sources tokens)
    (hsize : offset + byteLength cs < 4294967296) {gap : UInt32 × UInt32}
    (hgap : gap ∈ gaps (Location.clamp offset) tokens) :
    ∃ before between after, cs = before ++ between ++ after ∧
      offset + byteLength before = gap.1.toNat ∧
      offset + byteLength (before ++ between) = gap.2.toNat ∧ IsTrivia between := by
  induction h with
  | @stop offset gap' isGap =>
    obtain rfl : gap = _ := List.mem_singleton.mp hgap
    refine ⟨[], gap', [], by simp, ?_, ?_, isGap⟩ <;>
      simp only [Token.endOfInput, Location.ofOffsets, Location.toNat_clamp, byteLength_nil,
        List.nil_append] <;> omega
  | @token offset gap' source rest t sources tokens isGap ne_nil kind loc tail ih =>
    simp only [byteLength_append, ← Nat.add_assoc] at hsize ih loc
    rcases List.mem_cons.mp (show gap ∈ (Location.clamp offset, t.loc.start) ::
      gaps t.loc.stop tokens from hgap) with rfl | hgap
    · -- the gap before this token
      refine ⟨[], gap', source ++ rest, by simp, ?_, ?_, isGap⟩ <;>
        simp only [loc, Location.ofOffsets, Location.toNat_clamp, byteLength_nil,
          List.nil_append] <;> omega
    · -- a gap further on, which has this token before it as well
      rw [loc] at hgap
      obtain ⟨before, between, after, rfl, hbefore, hbetween, htrivia⟩ := ih hsize hgap
      refine ⟨gap' ++ source ++ before, between, after, by simp, ?_, ?_, htrivia⟩ <;>
        simp only [byteLength_append] at hbefore hbetween ⊢ <;> omega

end LaidOut

/-- A text of fewer than 2 ^ 32 bytes that scans without a fault is made of its tokens, which are in
    order and take some of it each, of the end of the input at its end, and of trivia around
    them. -/
theorem covers_of_tokenize {text : String} {tokens : List Token}
    (hsize : text.utf8ByteSize < 4294967296) (h : tokenize text = .ok tokens) :
    Covers text tokens := by
  obtain ⟨sources, hlaid⟩ := exists_laidOut_of_tokenize h
  have hlength := Text.byteLength_toList text
  have hsize' : 0 + byteLength text.toList < 4294967296 := by omega
  obtain ⟨init, stop, rfl, hstop, hinit⟩ := hlaid.exists_stop hsize'
  refine ⟨⟨init, stop, rfl, by omega, hinit⟩, hlaid.ordered hsize', fun gap hgap => ?_⟩
  obtain ⟨before, between, after, htext, hbefore, hbetween, htrivia⟩ := hlaid.trivia hsize' hgap
  exact ⟨before, between, after, htext, by omega, by omega, htrivia⟩

/-- The tokens of a sum with a nested comment in it. -/
theorem covers_commented : Covers "é (* a (* b *) *)+ 1 "
    [⟨.symbol, "é", ⟨0, 2⟩⟩, ⟨.plus, "+", ⟨18, 19⟩⟩, ⟨.number, "1", ⟨20, 21⟩⟩,
      .endOfInput ⟨22, 22⟩] :=
  covers_of_tokenize (by decide +kernel) (by decide +kernel)

end Symbolic.Scan
