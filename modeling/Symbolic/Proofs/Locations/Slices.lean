import Symbolic.Proofs.Layout.LaidOut
import Symbolic.Proofs.Locations.Reading
import Symbolic.Proofs.Locations.Scanning
import Symbolic.Proofs.Reader.Truthful

/-!
# Every location is a slice of the text

A text of fewer than 2 ^ 32 bytes can be cut at the ends of each location that scanning and reading
it comes up with: those of tokens, of faults of either stage, and of all parts of a tree. No part of
a tree is located before the first token or after the last one before the end of the input.

## Key results

- `Slices`: locations that a text can be cut at
- `Between`, `between_of_mem`: locations that are not outside of all tokens
- `wellPlaced`: what scanning and reading a text comes up with
-/

namespace Symbolic

open Reader

/-- The ends of the location are in order, in the text, and where characters start or the text
    ends. -/
structure Slices (text : String) (loc : Location) : Prop where
  ordered : loc.start ≤ loc.stop
  inside : loc.stop.toNat ≤ text.utf8ByteSize
  start : String.Pos.Raw.IsValid text ⟨loc.start.toNat⟩
  stop : String.Pos.Raw.IsValid text ⟨loc.stop.toNat⟩

/-- The location is neither before the first nor after the last of the tokens. -/
structure Between (tokens : List Token) (loc : Location) : Prop where
  first : ∃ t ∈ tokens.head?, t.loc.start ≤ loc.start
  last : ∃ t ∈ tokens.getLast?, loc.stop ≤ t.loc.stop

variable {text : String} {tokens : List Token} {a b loc : Location}

/-! ## Places in a text -/

/-- A cursor stands at a position of the text. -/
theorem isValid_of_reaches {c : Cursor} (h : (Cursor.ofText text).Reaches c) :
    String.Pos.Raw.IsValid text ⟨c.offset⟩ := by
  obtain ⟨taken, hrest, hoffset⟩ := h
  refine String.Pos.Raw.isValid_iff_exists_append.mpr ⟨.ofList taken, .ofList c.rest, ?_, ?_⟩
  · rw [← String.ofList_append, ← hrest, Cursor.ofText, String.ofList_toList]
  · rw [hoffset, Cursor.ofText, Nat.zero_add, String.rawEndPos, ← Text.byteLength_toList,
      String.toList_ofList]

/-- A stretch of characters is a slice of the text. -/
theorem slices_of_holds (hsize : text.utf8ByteSize < 4294967296)
    (h : (Cursor.ofText text).Holds loc) : Slices text loc := by
  obtain ⟨c, d, hc, hcd, rfl⟩ := h
  have hstart := isValid_of_reaches hc
  have hstop := isValid_of_reaches (hc.trans hcd)
  have hle : c.offset ≤ d.offset := by
    obtain ⟨taken, -, hoffset⟩ := hcd
    omega
  have hinside : d.offset ≤ text.utf8ByteSize := hstop.le_utf8ByteSize
  -- the text is short enough for its offsets not to be cut off
  obtain ⟨hc', hd'⟩ := Location.toNat_ends rfl hle (Nat.lt_of_le_of_lt hinside hsize)
  refine ⟨?_, ?_, ?_, ?_⟩
  · rwa [UInt32.le_iff_toNat_le, hc', hd']
  · rwa [hd']
  · rwa [hc']
  · rwa [hd']

/-! ## Uniting places -/

/-- The greater of two offsets is one of them. -/
theorem max_offset_cases (m n : UInt32) : (max m n = n ∧ m ≤ n) ∨ (max m n = m ∧ n ≤ m) := by
  by_cases h : m ≤ n
  · exact .inl ⟨if_pos h, h⟩
  · exact .inr ⟨if_neg h, UInt32.le_of_lt (UInt32.not_le.mp h)⟩

/-- A union ends no sooner than its first part. -/
theorem le_stop_union (a b : Location) : a.stop ≤ (a.union b).stop := by
  show a.stop ≤ max a.stop b.stop
  rcases max_offset_cases a.stop b.stop with ⟨heq, hle⟩ | ⟨heq, -⟩ <;> rw [heq]
  · exact hle
  · exact UInt32.le_refl _

/-- The union of two slices is a slice. -/
theorem Slices.union (h : Slices text a) (h' : Slices text b) : Slices text (a.union b) := by
  -- each end of a union is an end of one of the two
  have hstart : (a.union b).start = a.start ∨ (a.union b).start = b.start := Std.min_eq_or
  have hstop : (a.union b).stop = b.stop ∨ (a.union b).stop = a.stop :=
    (max_offset_cases a.stop b.stop).imp And.left And.left
  refine ⟨?_, ?_, ?_, ?_⟩
  · exact UInt32.le_trans Std.min_le_left (UInt32.le_trans h.ordered (le_stop_union a b))
  · rcases hstop with heq | heq <;> rw [heq]
    exacts [h'.inside, h.inside]
  · rcases hstart with heq | heq <;> rw [heq]
    exacts [h.start, h'.start]
  · rcases hstop with heq | heq <;> rw [heq]
    exacts [h'.stop, h.stop]

/-- The start of a slice is an empty one. -/
theorem Slices.empty_start (h : Slices text a) : Slices text (.empty a.start) :=
  ⟨UInt32.le_refl _, h.start.le_utf8ByteSize, h.start, h.start⟩

/-- The union of two places that start and end at tokens does so too. -/
theorem Between.union (h : Between tokens a) (h' : Between tokens b) :
    Between tokens (a.union b) := by
  obtain ⟨⟨first, hfirst, ha⟩, last, hlast, ha'⟩ := h
  obtain ⟨⟨_, hmem, hb⟩, _, hmem', hb'⟩ := h'
  obtain rfl := Option.mem_unique hfirst hmem
  obtain rfl := Option.mem_unique hlast hmem'
  refine ⟨⟨first, hfirst, Std.le_min_iff.mpr ⟨ha, hb⟩⟩, last, hlast, ?_⟩
  show max a.stop b.stop ≤ last.loc.stop
  rcases max_offset_cases a.stop b.stop with ⟨heq, -⟩ | ⟨heq, -⟩ <;> rw [heq]
  exacts [hb', ha']

/-- So does the start of a place. -/
theorem Between.empty_start (h : Between tokens a) (hle : a.start ≤ a.stop) :
    Between tokens (.empty a.start) := by
  obtain ⟨hfirst, last, hlast, ha⟩ := h
  exact ⟨hfirst, last, hlast, UInt32.le_trans hle ha⟩

/-- Where the tokens are in order, each is between the first and the last of them. -/
theorem between_of_mem (hordered : tokens.Pairwise fun t t' => t.loc.stop ≤ t'.loc.start)
    (hle : ∀ t ∈ tokens, t.loc.start ≤ t.loc.stop) {t : Token} (ht : t ∈ tokens) :
    Between tokens t.loc := by
  constructor
  · -- the first token starts no later
    obtain ⟨first, rest, rfl⟩ := List.exists_cons_of_ne_nil (List.ne_nil_of_mem ht)
    refine ⟨first, rfl, ?_⟩
    rcases List.mem_cons.mp ht with rfl | hmem
    · exact UInt32.le_refl _
    · exact UInt32.le_trans (hle first List.mem_cons_self)
        ((List.pairwise_cons.mp hordered).1 t hmem)
  · -- the last one stops no sooner
    obtain ⟨init, last, rfl⟩ :=
      (List.eq_nil_or_concat' tokens).resolve_left (List.ne_nil_of_mem ht)
    refine ⟨last, by simp, ?_⟩
    rcases List.mem_append.mp ht with hmem | hmem
    · exact UInt32.le_trans ((List.pairwise_append.mp hordered).2.2 t hmem last (by simp))
        (hle last (by simp))
    · rw [List.mem_singleton.mp hmem]
      exact UInt32.le_refl _

/-- The slices of a text that are between the tokens. -/
def sliceRegion (text : String) (tokens : List Token) : Region where
  holds loc := Slices text loc ∧ Between tokens loc
  union h h' := ⟨h.1.union h'.1, h.2.union h'.2⟩
  empty_start h := ⟨h.1.empty_start, h.2.empty_start h.1.ordered⟩

/-! ## Parts of trees -/

namespace Expr

mutual

/-- Where the tree and all its parts are, its head and the parts of that included. -/
def locations : Expr → List Location
  | .symbol _ loc | .number _ loc | .string _ loc => [loc]
  | .node head children _ loc => loc :: (locations head ++ allLocations children)

/-- Where the trees and all their parts are. -/
def allLocations : List Expr → List Location
  | [] => []
  | e :: es => locations e ++ allLocations es

end

mutual

/-- All locations of a tree of a region are in the region. -/
theorem holds_of_mem_locations {region : Region} :
    ∀ {e : Expr}, region.Has e → ∀ loc ∈ e.locations, region.holds loc
  | .symbol .., .symbol h, _, hmem => List.mem_singleton.mp hmem ▸ h
  | .number .., .number h, _, hmem => List.mem_singleton.mp hmem ▸ h
  | .string .., .string h, _, hmem => List.mem_singleton.mp hmem ▸ h
  | .node head children .., .node hhead hchildren h, _, hmem => by
    rcases List.mem_cons.mp hmem with rfl | hmem
    · exact h
    rcases List.mem_append.mp hmem with hmem | hmem
    · exact holds_of_mem_locations hhead _ hmem
    · exact holds_of_mem_allLocations hchildren _ hmem

/-- So are all locations of several such trees. -/
theorem holds_of_mem_allLocations {region : Region} :
    ∀ {es : List Expr}, region.Has es → ∀ loc ∈ allLocations es, region.holds loc
  | [], _, _, hmem => nomatch hmem
  | e :: es, .cons he hes, _, hmem => by
    rcases List.mem_append.mp hmem with hmem | hmem
    · exact holds_of_mem_locations he _ hmem
    · exact holds_of_mem_allLocations hes _ hmem

end

end Expr

/-! ## What comes of a text -/

/-- A token is a slice of its text. -/
theorem slices_of_tokenize (hsize : text.utf8ByteSize < 4294967296)
    (h : tokenize text = .ok tokens) : ∀ t ∈ tokens, Slices text t.loc := by
  intro t ht
  refine slices_of_holds hsize ((holds_of_tokensFrom false _).1 t ?_)
  rwa [Scan.tokensFrom_of_tokenize h]

/-- So is the fault of a text that is not scanned. -/
theorem slices_of_scanError (hsize : text.utf8ByteSize < 4294967296) {e : ScanError}
    (h : tokenize text = .error e) : Slices text e.loc := by
  unfold tokenize Scan.tokens at h
  split at h
  · cases h
  · rename_i heq
    cases h
    refine slices_of_holds hsize ((holds_of_tokensFrom false _).2 e ?_)
    rw [heq]
    rfl

/-- A syntax error is about one of the tokens. -/
theorem exists_mem_of_truthful {table : OperatorTable} {e : SyntaxError}
    (h : Truthful table tokens e) : ∃ t ∈ upToEnd tokens, t.loc = e.loc := by
  cases e with
  | unclosedBracket opening =>
    obtain ⟨t, ht, hloc, -⟩ := h
    exact ⟨t, List.mem_append_left _ ht, hloc⟩
  | recursionLimitExceeded loc => exact h
  | _ =>
    obtain ⟨t, ht, hloc, -⟩ := h
    exact ⟨t, ht, hloc⟩

/-- Among the tokens up to the end of the input there is none that is anywhere else. -/
theorem exists_mem_of_mem_upToEnd (hend : ∃ t ∈ tokens, t.kind = .endOfInput) {t : Token}
    (ht : t ∈ upToEnd tokens) : ∃ t' ∈ tokens, t'.loc = t.loc := by
  rcases List.mem_append.mp ht with ht | ht
  · exact ⟨t, (List.takeWhile_sublist _).subset ht, rfl⟩
  · rw [List.mem_singleton.mp ht]
    cases hfound : tokens.find? (·.kind == .endOfInput) with
    | some t' =>
      refine ⟨t', List.mem_of_find?_eq_some hfound, ?_⟩
      simp [State.ofTokens, hfound, Token.endOfInput]
    | none =>
      obtain ⟨t', ht', hkind⟩ := hend
      exact absurd (beq_iff_eq.mpr hkind) (List.find?_eq_none.mp hfound t' ht')

/-- The tokens of a text are in order, and the last of them is the end of the input. -/
theorem exists_init_of_tokenize (hsize : text.utf8ByteSize < 4294967296)
    (h : tokenize text = .ok tokens) :
    ∃ init stop, tokens = init ++ [.endOfInput stop] ∧ (∀ t ∈ init, t.kind ≠ .endOfInput) ∧
      init.Pairwise fun t t' => t.loc.stop ≤ t'.loc.start := by
  obtain ⟨sources, hlaid⟩ := Scan.exists_laidOut_of_tokenize h
  rw [← Text.byteLength_toList, ← Nat.zero_add (Text.byteLength _)] at hsize
  have hordered := hlaid.ordered hsize
  obtain ⟨init, stop, rfl, -, hinit⟩ := hlaid.exists_stop hsize
  exact ⟨init, _, rfl, fun t ht => (hinit t ht).1, (List.pairwise_append.mp hordered).1⟩

/-- So is the fault of a text that is not read. -/
theorem slices_of_syntaxError (hsize : text.utf8ByteSize < 4294967296) {settings : Settings}
    {e : SyntaxError} (h : tokenize text = .ok tokens)
    (he : readTokens settings tokens = .error e) : Slices text e.loc := by
  obtain ⟨sources, hlaid⟩ := Scan.exists_laidOut_of_tokenize h
  obtain ⟨t, ht, hloc⟩ := exists_mem_of_truthful (truthful_of_readTokens he)
  obtain ⟨t', ht', hloc'⟩ := exists_mem_of_mem_upToEnd hlaid.exists_endOfInput ht
  rw [← hloc, ← hloc']
  exact slices_of_tokenize hsize h t' ht'

/-- So is every location of a tree that is read. -/
theorem holds_of_mem_locations_of_read (hsize : text.utf8ByteSize < 4294967296)
    {settings : Settings} {e : Expr} (h : tokenize text = .ok tokens)
    (he : readTokens settings tokens = .ok (some e)) :
    ∀ loc ∈ e.locations, (sliceRegion text tokens.dropLast).holds loc := by
  have hslices := slices_of_tokenize hsize h
  obtain ⟨init, stop, rfl, hkind, hordered⟩ := exists_init_of_tokenize hsize h
  rw [List.dropLast_concat]
  have hinit : ∀ t ∈ init, Slices text t.loc := fun t ht => hslices t (List.mem_append_left _ ht)
  -- the reader has the tokens before the end of the input before it
  have hregion : ∀ t ∈ (State.ofTokens (init ++ [.endOfInput stop])).rest,
      (sliceRegion text init).holds t.loc := by
    rw [rest_ofTokens_append hkind Token.kind_of_mem_endOfInput]
    exact fun t ht => ⟨hinit t ht, between_of_mem hordered (fun t ht => (hinit t ht).ordered) ht⟩
  have hhas : (sliceRegion text init).Has (some e) := has_of_readTokens hregion he
  obtain ⟨hhas⟩ := hhas
  exact Expr.holds_of_mem_locations hhas

/-- What is located in the right way once a text is scanned and read. -/
structure WellPlaced (text : String) (settings : Settings) : Prop where
  scanError : ∀ e, tokenize text = .error e → Slices text e.loc
  tokens : ∀ tokens, tokenize text = .ok tokens → ∀ t ∈ tokens, Slices text t.loc
  syntaxError : ∀ tokens e, tokenize text = .ok tokens → readTokens settings tokens = .error e →
    Slices text e.loc
  /-- The last token is the end of the input. -/
  tree : ∀ tokens e, tokenize text = .ok tokens → readTokens settings tokens = .ok (some e) →
    ∀ loc ∈ e.locations, Slices text loc ∧ Between tokens.dropLast loc

/-- Each location that comes of scanning and reading a text of fewer than 2 ^ 32 bytes is a slice of
    the text, whatever the table and the limit, and those in a tree are between the first token and
    the last one before the end of the input. -/
theorem wellPlaced (hsize : text.utf8ByteSize < 4294967296) (settings : Settings) :
    WellPlaced text settings where
  scanError _ h := slices_of_scanError hsize h
  tokens _ h := slices_of_tokenize hsize h
  syntaxError _ _ h he := slices_of_syntaxError hsize h he
  tree _ _ h he := holds_of_mem_locations_of_read hsize h he

/-- A letter of two bytes, a sign that goes into a number, and an element that is left out. -/
theorem wellPlaced_call : WellPlaced "f[é, -2,] " {} :=
  wellPlaced (by decide +kernel) {}

end Symbolic
