import Symbolic.Proofs.Arithmetic.Grammar
import Symbolic.Proofs.Reader.Standard

/-!
# Reading arithmetic

The reader follows no such grammar as that of arithmetic. It takes a sign with the operand after
it, a division sign with the factor after it, and any other operator with all that binds more
tightly to its right; so divisions are built before the product that they stand in. What it builds
has the value of the sum all the same.

## Key results

- `exists_iterate_divisions`, `exists_iterate_links`: what the reader takes in within a product
- `Primary.readable`, `Factor.readable`, `Term.readable`, `Sum.exists_chain`: every form is read
- `exists_readTokens_sum`: a whole input is read as an expression with the value of the sum
-/

namespace Symbolic.Arithmetic

open Reader Filter

variable {σ : String → ℚ} {p : Precedence} {s s' : State} {tokens rest : List Token}
  {expr : Precedence → Parse Expr} {lhs rhs : Expr} {v : ℚ}

/-! ## Factors -/

/-- With enough room the factor is read, before any token that ends an operand of a sign. -/
def Readable (σ : String → ℚ) (factor : Factor) : Prop :=
  ∀ (s : State) (rest : List Token),
    OperatorTable.standard.Stops 480 (s.before rest).current.kind →
    ∃ e, e.value? σ = some (factor.value σ) ∧ ∀ᶠ room in atTop,
      leading .standard (Forgetful.expression .standard room) (s.before (factor.tokens ++ rest)) =
        .ok e (s.before rest)

/-- A factor is read as an expression of its value. -/
theorem Readable.exists_expression {factor : Factor} (h : Readable σ factor)
    (hp : p ≤ 480) (s : State) {rest : List Token}
    (hrest : OperatorTable.standard.Stops p (s.before rest).current.kind) :
    ∃ e, e.value? σ = some (factor.value σ) ∧ ∀ᶠ room in atTop,
      Forgetful.expression .standard room p (s.before (factor.tokens ++ rest)) =
        .ok e (s.before rest) := by
  obtain ⟨e, he, hread⟩ := h s rest (stops_of_le hrest hp)
  refine ⟨e, he, eventually_expression ?_⟩
  filter_upwards [hread] with room hread
  exact chain_ok hread (iterate_of_stops hrest)

/-- A factor without signs is read whatever follows it. -/
theorem readable_primary {primary : Primary}
    (h : ∀ (s : State) (rest : List Token), ∃ e, e.value? σ = some (primary.value σ) ∧
      ∀ᶠ room in atTop,
        leading .standard (Forgetful.expression .standard room)
          (s.before (primary.tokens ++ rest)) = .ok e (s.before rest)) :
    Readable σ (.primary primary) := by
  intro s rest _
  rw [Factor.value, Factor.tokens]
  exact h s rest

/-! ## What comes after a factor -/

/-- The kinds of token that a link can start with. -/
def linkStarts : List TokenKind :=
  .times :: .divide :: primaryStarts

/-- A primary starts with a symbol, a number or a parenthesis. -/
theorem Primary.tokens_eq_cons (primary : Primary) :
    ∃ t tokens, primary.tokens = t :: tokens ∧ t.kind ∈ primaryStarts := by
  cases primary with
  | number token n kind => exact ⟨token, [], by rw [Primary.tokens], by simp [primaryStarts, kind]⟩
  | symbol token kind => exact ⟨token, [], by rw [Primary.tokens], by simp [primaryStarts, kind]⟩
  | group opening sum closing openingKind =>
    exact ⟨opening, _, by rw [Primary.tokens], by simp [primaryStarts, openingKind]⟩

/-- What continues a product starts with a sign of multiplication or division, or with a factor. -/
theorem Link.tokens_eq_cons (link : Link) :
    ∃ t tokens, link.tokens = t :: tokens ∧ t.kind ∈ linkStarts ∧
      (link.isDivide = false → t.kind ≠ .divide) := by
  cases link with
  | times sign next kind =>
    exact ⟨sign, _, by rw [Link.tokens], by simp [linkStarts, kind], by simp [kind]⟩
  | divide sign next kind =>
    exact ⟨sign, _, by rw [Link.tokens], by simp [linkStarts, kind], by simp [isDivide]⟩
  | beside primary =>
    obtain ⟨t, tokens, htokens, ht⟩ := primary.tokens_eq_cons
    -- no primary starts with a division sign
    refine ⟨t, tokens, htokens, by simp [linkStarts, ht], fun _ hdivide => ?_⟩
    rw [hdivide] at ht
    simp [primaryStarts] at ht

/-- What continues a product ends a factor. -/
theorem stops_of_mem_linkStarts {kind : TokenKind} (h : kind ∈ linkStarts) :
    OperatorTable.standard.Stops 471 kind ∧
      (kind ≠ .divide → OperatorTable.standard.Stops 401 kind) := by
  simp only [linkStarts, primaryStarts, List.mem_cons, List.not_mem_nil, or_false] at h
  rcases h with rfl | rfl | rfl | rfl | rfl
  · exact ⟨by decide, fun _ => by decide⟩
  · -- a division sign does not end an operand of a product
    exact ⟨by decide, fun hne => absurd rfl hne⟩
  · exact ⟨by decide, fun _ => by decide⟩
  · exact ⟨by decide, fun _ => by decide⟩
  · exact ⟨by decide, fun _ => by decide⟩

/-- After a factor that is divided by, whatever comes next in the product ends it. -/
theorem stops_linkTokens (links : List Link)
    (hrest : OperatorTable.standard.Stops 401 (s.before rest).current.kind) :
    OperatorTable.standard.Stops 471 (s.before (linkTokens links ++ rest)).current.kind := by
  cases links with
  | nil => exact stops_of_le hrest (by decide)
  | cons link links =>
    obtain ⟨t, tokens, htokens, ht, -⟩ := link.tokens_eq_cons
    rw [linkTokens, List.flatMap_cons, htokens]
    exact (stops_of_mem_linkStarts ht).1

/-- After a factor with all that it is divided by, whatever comes next in the product ends it. -/
theorem stops_linkTokens_of_not_isDivide {links : List Link}
    (hlinks : ∀ link ∈ links.head?, link.isDivide = false)
    (hrest : OperatorTable.standard.Stops 401 (s.before rest).current.kind) :
    OperatorTable.standard.Stops 401 (s.before (linkTokens links ++ rest)).current.kind := by
  cases links with
  | nil => exact hrest
  | cons link links =>
    obtain ⟨t, tokens, htokens, ht, hdivide⟩ := link.tokens_eq_cons
    rw [linkTokens, List.flatMap_cons, htokens]
    exact (stops_of_mem_linkStarts ht).2 (hdivide (hlinks link rfl))

/-- One division within a product. -/
theorem exists_iterate_divide {sign : Token} {factor : Factor} {kind : sign.kind = .divide}
    (hfactor : Readable σ factor) (hlhs : lhs.value? σ = some v) (hp : p ≤ 470) (s : State)
    (hrest : OperatorTable.standard.Stops 471 (s.before rest).current.kind) :
    ∃ e, e.value? σ = some (Link.apply σ v (.divide sign factor kind)) ∧ ∀ᶠ room in atTop,
      Parse.iterate (trailing .standard (Forgetful.expression .standard room) p) lhs
          (s.before ((Link.divide sign factor kind).tokens ++ rest)) =
        Parse.iterate (trailing .standard (Forgetful.expression .standard room) p) e
          (s.before rest) := by
  obtain ⟨rhs, hrhs, hread⟩ := hfactor.exists_expression (by decide) s hrest
  refine ⟨_, Expr.value?_quotient hlhs hrhs sign.loc rhs.loc (lhs.loc.union rhs.loc), ?_⟩
  filter_upwards [hread] with room hread
  rw [Link.tokens, List.cons_append]
  exact iterate_again_before (trailing_divide kind hp hread)

/-- Above the level of products the reader takes in divisions only. -/
theorem exists_iterate_divisions {links : List Link}
    (hdivide : ∀ link ∈ links, link.isDivide = true)
    (hlinks : ∀ link ∈ links, Readable σ link.factor) (hlhs : lhs.value? σ = some v) (s : State)
    (hrest : OperatorTable.standard.Stops 401 (s.before rest).current.kind) :
    ∃ e, e.value? σ = some (links.foldl (Link.apply σ) v) ∧ ∀ᶠ room in atTop,
      Parse.iterate (trailing .standard (Forgetful.expression .standard room) 401) lhs
          (s.before (linkTokens links ++ rest)) = .ok e (s.before rest) := by
  induction links generalizing lhs v with
  | nil => exact ⟨lhs, hlhs, .of_forall fun room => iterate_of_stops hrest⟩
  | cons link links ih =>
    cases link with
    | divide sign factor kind =>
      -- a division binds more tightly than a product, so it is taken in at this level
      have hp : (401 : Precedence) ≤ 470 := by decide
      obtain ⟨e, he, hdivision⟩ := exists_iterate_divide (hlinks _ List.mem_cons_self) hlhs
        hp s (stops_linkTokens links hrest)
      obtain ⟨e', he', hdivisions⟩ := ih (fun link hlink => hdivide link (.tail _ hlink))
        (fun link hlink => hlinks link (.tail _ hlink)) he
      refine ⟨e', he', ?_⟩
      filter_upwards [hdivision, hdivisions] with room hdivision hdivisions
      rw [linkTokens, List.flatMap_cons, List.append_assoc]
      exact hdivision.trans hdivisions
    | _ => cases hdivide _ List.mem_cons_self

/-- A factor with all that it is divided by. -/
theorem exists_expression_divisions {factor : Factor} (hfactor : Readable σ factor)
    {links : List Link} (hdivide : ∀ link ∈ links, link.isDivide = true)
    (hlinks : ∀ link ∈ links, Readable σ link.factor) (s : State)
    (hrest : OperatorTable.standard.Stops 401 (s.before rest).current.kind) :
    ∃ e, e.value? σ = some (links.foldl (Link.apply σ) (factor.value σ)) ∧ ∀ᶠ room in atTop,
      Forgetful.expression .standard room 401
          (s.before (factor.tokens ++ (linkTokens links ++ rest))) = .ok e (s.before rest) := by
  have hnext : OperatorTable.standard.Stops 480
      (s.before (linkTokens links ++ rest)).current.kind :=
    stops_of_le (stops_linkTokens links hrest) (by decide)
  obtain ⟨e, he, hread⟩ := hfactor s (linkTokens links ++ rest) hnext
  obtain ⟨e', he', hdivisions⟩ := exists_iterate_divisions hdivide hlinks he s hrest
  refine ⟨e', he', eventually_expression ?_⟩
  filter_upwards [hread, hdivisions] with room hread hdivisions
  exact chain_ok hread hdivisions

/-- A link that does not divide takes its factor with all divisions after it. -/
theorem trailing_link {link : Link} (hlink : link.isDivide = false) (hp : p ≤ 400)
    (h : expr 401 (s.before (link.factor.tokens ++ tokens)) = .ok rhs s') :
    trailing .standard expr p lhs (s.before (link.tokens ++ tokens)) =
      .ok (.again (.make .standard "Times" [lhs, rhs] (lhs.loc.union rhs.loc))) s' := by
  cases link with
  | times sign factor kind => exact trailing_times kind hp h
  | divide => cases hlink
  | beside primary =>
    obtain ⟨t, after, htokens, ht⟩ := primary.tokens_eq_cons
    rw [Link.factor, Factor.tokens, htokens] at h
    rw [Link.tokens, htokens]
    exact trailing_beside ht hp h

/-- One link that does not divide, with the divisions after it. -/
theorem exists_iterate_link {link : Link} {links : List Link} (hlink : link.isDivide = false)
    (hfactor : Readable σ link.factor) (hlinks : ∀ link ∈ links, Readable σ link.factor)
    (hlhs : lhs.value? σ = some v) (hp : p ≤ 400) (s : State)
    (hrest : OperatorTable.standard.Stops 401 (s.before rest).current.kind) :
    ∃ e, e.value? σ = some ((links.takeWhile Link.isDivide).foldl (Link.apply σ)
          (Link.apply σ v link)) ∧ ∀ᶠ room in atTop,
      Parse.iterate (trailing .standard (Forgetful.expression .standard room) p) lhs
          (s.before (link.tokens ++ (linkTokens links ++ rest))) =
        Parse.iterate (trailing .standard (Forgetful.expression .standard room) p) e
          (s.before (linkTokens (links.dropWhile Link.isDivide) ++ rest)) := by
  -- the divisions that follow go into the factor, and what is left starts with no division
  have hnext : ∀ link ∈ (links.dropWhile Link.isDivide).head?, link.isDivide = false := by
    intro link hmem
    have hnot := List.head?_dropWhile_not Link.isDivide links
    rw [hmem] at hnot
    exact hnot
  have hdivisions : ∀ link ∈ links.takeWhile Link.isDivide, link.isDivide = true :=
    fun link hmem => List.mem_takeWhile_imp hmem
  obtain ⟨rhs, hrhs, hread⟩ := exists_expression_divisions hfactor hdivisions
    (fun link hmem => hlinks link ((List.takeWhile_prefix _).subset hmem)) s
    (stops_linkTokens_of_not_isDivide hnext hrest)
  -- multiplying by a factor that is divided is dividing the product
  have hvalue := Expr.value?_make_times hlhs hrhs (lhs.loc.union rhs.loc)
  rw [← foldl_apply_mul σ hdivisions] at hvalue
  have happly : Link.apply σ v link = v * link.factor.value σ := by
    cases link with
    | divide => cases hlink
    | _ => rfl
  refine ⟨_, happly ▸ hvalue, ?_⟩
  filter_upwards [hread] with room hread
  rw [← List.append_assoc (linkTokens _), linkTokens, linkTokens, ← List.flatMap_append,
    List.takeWhile_append_dropWhile] at hread
  refine iterate_again (trailing_link hlink hp hread) ?_
  obtain ⟨t, tokens, htokens, -⟩ := link.tokens_eq_cons
  have hshorter : (linkTokens (links.dropWhile Link.isDivide)).length ≤
      (linkTokens links).length := length_flatMap_dropWhile_le _ _ links
  simp only [State.rest_before, htokens, List.length_append, List.length_cons, linkTokens]
    at hshorter ⊢
  omega

/-- At the level of products the reader takes in all links. -/
theorem exists_iterate_links {links : List Link} (hlinks : ∀ link ∈ links, Readable σ link.factor)
    (hlhs : lhs.value? σ = some v) (hp : p ≤ 400) (s : State)
    (hrest : OperatorTable.standard.Stops 401 (s.before rest).current.kind) :
    ∃ e, e.value? σ = some (links.foldl (Link.apply σ) v) ∧ ∀ᶠ room in atTop,
      Parse.iterate (trailing .standard (Forgetful.expression .standard room) p) lhs
          (s.before (linkTokens links ++ rest)) =
        Parse.iterate (trailing .standard (Forgetful.expression .standard room) p) e
          (s.before rest) := by
  -- induction on the number of links, as a link that does not divide takes several
  induction hn : links.length using Nat.strongRecOn generalizing links lhs v with
  | _ n ih =>
    subst hn
    cases links with
    | nil => exact ⟨lhs, hlhs, .of_forall fun room => rfl⟩
    | cons link links =>
      have hlink := hlinks link List.mem_cons_self
      have hlinks' : ∀ link ∈ links, Readable σ link.factor :=
        fun link hmem => hlinks link (.tail _ hmem)
      rw [linkTokens, List.flatMap_cons, List.append_assoc, List.foldl_cons]
      by_cases hdivide : link.isDivide = true
      · cases link with
        | divide sign factor kind =>
          -- a division right after the first factor
          have hp' : p ≤ 470 := UInt16.le_trans hp (by decide)
          obtain ⟨e, he, hdivision⟩ := exists_iterate_divide hlink hlhs hp' s
            (stops_linkTokens links hrest)
          obtain ⟨e', he', hafter⟩ := ih links.length (Nat.lt_succ_self _) hlinks' he rfl
          refine ⟨e', he', ?_⟩
          filter_upwards [hdivision, hafter] with room hdivision hafter
          exact hdivision.trans hafter
        | _ => cases hdivide
      · obtain ⟨e, he, hlink⟩ := exists_iterate_link (by simpa using hdivide) hlink hlinks' hlhs
          hp s hrest
        obtain ⟨e', he', hafter⟩ := ih (links.dropWhile Link.isDivide).length
          (Nat.lt_succ_of_le (List.length_dropWhile_le _ _))
          (fun link hmem => hlinks' link ((List.dropWhile_suffix _).subset hmem)) he rfl
        -- what the link took and what came after it are all the links
        rw [← List.foldl_append, List.takeWhile_append_dropWhile] at he'
        refine ⟨e', he', ?_⟩
        filter_upwards [hlink, hafter] with room hlink hafter
        exact hlink.trans hafter

/-! ## Terms and sums -/

/-- A product is read as an expression of its value. -/
theorem exists_chain_term {term : Term} (hfirst : Readable σ term.first)
    (hlinks : ∀ link ∈ term.links, Readable σ link.factor) (hp : p ≤ 400) (s : State)
    (hrest : OperatorTable.standard.Stops 401 (s.before rest).current.kind) :
    ∃ e, e.value? σ = some (term.value σ) ∧ ∀ᶠ room in atTop,
      chain .standard (Forgetful.expression .standard room) p (s.before (term.tokens ++ rest)) =
        Parse.iterate (trailing .standard (Forgetful.expression .standard room) p) e
          (s.before rest) := by
  have hnext : OperatorTable.standard.Stops 480
      (s.before (linkTokens term.links ++ rest)).current.kind :=
    stops_of_le (stops_linkTokens term.links hrest) (by decide)
  obtain ⟨e, he, hread⟩ := hfirst s _ hnext
  obtain ⟨e', he', hafter⟩ := exists_iterate_links hlinks he hp s hrest
  rw [← term.value_eq] at he'
  refine ⟨e', he', ?_⟩
  filter_upwards [hread, hafter] with room hread hafter
  rw [term.tokens_eq, List.append_assoc, chain_of_leading hread, hafter]

/-- A term to the right of a sign is read up to the next sign. -/
theorem exists_expression_term {term : Term} (hfirst : Readable σ term.first)
    (hlinks : ∀ link ∈ term.links, Readable σ link.factor) (s : State)
    (hrest : OperatorTable.standard.Stops 311 (s.before rest).current.kind) :
    ∃ e, e.value? σ = some (term.value σ) ∧ ∀ᶠ room in atTop,
      Forgetful.expression .standard room 311 (s.before (term.tokens ++ rest)) =
        .ok e (s.before rest) := by
  have hp : (311 : Precedence) ≤ 400 := by decide
  obtain ⟨e, he, hread⟩ := exists_chain_term hfirst hlinks hp s (stops_of_le hrest (by decide))
  exact ⟨e, he, eventually_expression_of_chain hread hrest⟩

/-- Parentheses do not change a value. -/
theorem value?_grouped (e : Expr) (loc : Location) :
    (grouped loc e).value? σ = e.value? σ := by
  cases e with
  | node head => cases head <;> rfl
  | _ => rfl

/-- Every kind of sign ends a product. -/
theorem stops_sign {kind : TokenKind} (h : kind = .plus ∨ kind = .minus) :
    OperatorTable.standard.Stops 311 kind := by
  rcases h with rfl | rfl <;> decide

mutual

/-- A primary leads an expression of its value. -/
theorem Primary.exists_leading (σ : String → ℚ) : ∀ (primary : Primary) (s : State)
    (rest : List Token), ∃ e, e.value? σ = some (primary.value σ) ∧ ∀ᶠ room in atTop,
      leading .standard (Forgetful.expression .standard room) (s.before (primary.tokens ++ rest)) =
        .ok e (s.before rest)
  | .number token n kind value, s, rest => by
    rw [literalValue?, Option.bind_eq_some_iff] at value
    obtain ⟨number, hnumber, hn⟩ := value
    -- a number, which is read as its literal says
    refine ⟨.number number token.loc, ?_, .of_forall fun room => leading_atom ?_ ?_ ?_⟩
    · rw [Expr.value?, hn, Primary.value]
      rfl
    · rw [kind]
      rfl
    · rw [kind]
      rfl
    · rw [Number.ofLiteral?] at hnumber
      simp only [Expr.atom, Expr.leaf, kind, Expr.literal, hnumber]
  | .symbol token kind, s, rest => by
    -- a symbol, whose value is looked up under the name it stands for
    refine ⟨.symbol (Expr.canonicalName token.text) token.loc, ?_,
      .of_forall fun room => leading_atom ?_ ?_ ?_⟩
    · rw [Expr.value?, Primary.value]
    · rw [kind]
      rfl
    · rw [kind]
      rfl
    · simp only [Expr.atom, Expr.leaf, kind]
  | .group opening sum closing openingKind closingKind, s, rest => by
    have hclosing : OperatorTable.standard.Stops 0 closing.kind := by
      rw [closingKind]
      decide
    -- the sum within is read up to the closing bracket
    obtain ⟨e, he, hread⟩ := Sum.exists_chain σ sum (s.within opening.loc) (closing :: rest)
      (stops_of_le hclosing (by decide))
    have hinside := eventually_expression_of_chain hread hclosing
    refine ⟨grouped (opening.loc.union closing.loc) e, ?_, ?_⟩
    · rw [value?_grouped, he, Primary.value]
    · filter_upwards [hinside] with room hinside
      rw [Primary.tokens, List.cons_append, List.append_assoc]
      exact leading_group openingKind rfl hinside closingKind

/-- Every factor is read as its value. -/
theorem Factor.readable (σ : String → ℚ) : ∀ factor : Factor, Readable σ factor
  | .primary primary => readable_primary (primary.exists_leading σ)
  | .minus sign factor kind => by
    intro s rest hrest
    obtain ⟨e, he, hread⟩ := (factor.readable σ).exists_expression (UInt16.le_refl _) s hrest
    refine ⟨_, (Expr.value?_negate he sign.loc (sign.loc.union e.loc)).trans ?_, ?_⟩
    · rw [Factor.value]
    · filter_upwards [hread] with room hread
      exact leading_minus kind hread
  | .plus sign factor kind => by
    intro s rest hrest
    obtain ⟨e, he, hread⟩ := (factor.readable σ).exists_expression (UInt16.le_refl _) s hrest
    refine ⟨if e.isParenthesized then e else e.withLoc (sign.loc.union e.loc), ?_, ?_⟩
    · -- a plus sign changes no more than the location
      rw [Factor.value, ← he]
      split
      · rfl
      · exact Expr.value?_withLoc e _
    · filter_upwards [hread] with room hread
      exact leading_plus kind hread

/-- So is every factor of a product. -/
theorem Term.readable (σ : String → ℚ) : ∀ term : Term,
    Readable σ term.first ∧ ∀ link ∈ term.links, Readable σ link.factor
  | .factor first => ⟨first.readable σ, fun _ h => nomatch h⟩
  | .times term sign factor kind => by
    -- each link adds one more factor behind those of the shorter product
    obtain ⟨hfirst, hlinks⟩ := term.readable σ
    rw [Term.links, List.forall_mem_append, List.forall_mem_singleton]
    exact ⟨hfirst, hlinks, factor.readable σ⟩
  | .divide term sign factor kind => by
    obtain ⟨hfirst, hlinks⟩ := term.readable σ
    rw [Term.links, List.forall_mem_append, List.forall_mem_singleton]
    exact ⟨hfirst, hlinks, factor.readable σ⟩
  | .beside term primary => by
    obtain ⟨hfirst, hlinks⟩ := term.readable σ
    rw [Term.links, List.forall_mem_append, List.forall_mem_singleton]
    exact ⟨hfirst, hlinks, readable_primary (primary.exists_leading σ)⟩

/-- At the lowest level the reader takes in a whole sum. -/
theorem Sum.exists_chain (σ : String → ℚ) : ∀ (sum : Sum) (s : State) (rest : List Token),
    OperatorTable.standard.Stops 311 (s.before rest).current.kind →
    ∃ e, e.value? σ = some (sum.value σ) ∧ ∀ᶠ room in atTop,
      chain .standard (Forgetful.expression .standard room) 0 (s.before (sum.tokens ++ rest)) =
        Parse.iterate (trailing .standard (Forgetful.expression .standard room) 0) e
          (s.before rest)
  | .term term, s, rest, hrest => by
    obtain ⟨hfirst, hlinks⟩ := term.readable σ
    rw [Sum.value, Sum.tokens]
    exact exists_chain_term hfirst hlinks (by decide) s (stops_of_le hrest (by decide))
  | .add sum sign term kind, s, rest, hrest => by
    obtain ⟨hfirst, hlinks⟩ := term.readable σ
    -- the sum so far ends at the sign, which then extends it
    obtain ⟨lhs, hlhs, hsum⟩ := sum.exists_chain σ s (sign :: (term.tokens ++ rest))
      (stops_sign (.inl kind))
    obtain ⟨rhs, hrhs, hterm⟩ := exists_expression_term hfirst hlinks s hrest
    refine ⟨_, (Expr.value?_make_plus hlhs hrhs (lhs.loc.union rhs.loc)).trans ?_, ?_⟩
    · rw [Sum.value]
    · filter_upwards [hsum, hterm] with room hsum hterm
      rw [Sum.tokens, List.append_assoc, List.cons_append, hsum]
      exact iterate_again_before (trailing_plus kind (by decide) hterm)
  | .subtract sum sign term kind, s, rest, hrest => by
    -- as for a sum, but what is added is the negated term
    obtain ⟨hfirst, hlinks⟩ := term.readable σ
    obtain ⟨lhs, hlhs, hsum⟩ := sum.exists_chain σ s (sign :: (term.tokens ++ rest))
      (stops_sign (.inr kind))
    obtain ⟨rhs, hrhs, hterm⟩ := exists_expression_term hfirst hlinks s hrest
    refine ⟨_, (Expr.value?_difference hlhs hrhs sign.loc (sign.loc.union rhs.loc)
      (lhs.loc.union (sign.loc.union rhs.loc))).trans ?_, ?_⟩
    · rw [Sum.value]
    · filter_upwards [hsum, hterm] with room hsum hterm
      rw [Sum.tokens, List.append_assoc, List.cons_append, hsum]
      exact iterate_again_before (trailing_minus kind (by decide) hterm)

end

/-! ## Whole inputs -/

/-- A sum is read as an expression of its value. -/
theorem exists_readTokens_value (σ : String → ℚ) (sum : Sum) {ending : List Token}
    (hending : ∀ t ∈ ending.head?, t.kind = .endOfInput) :
    ∃ e, e.value? σ = some (sum.value σ) ∧ ∀ᶠ limit in atTop,
      readTokens ⟨.standard, limit⟩ (sum.tokens ++ ending) = .ok (some e) := by
  let s := State.ofTokens (sum.tokens ++ ending)
  have hstop : OperatorTable.standard.Stops 0 (s.before []).current.kind := by
    rw [State.kind_current_before_nil]
    decide
  obtain ⟨e, he, hread⟩ := sum.exists_chain σ s [] (stops_of_le hstop (by decide))
  have hexpr := eventually_expression_of_chain hread hstop
  rw [List.append_nil] at hexpr
  exact ⟨e, he, eventually_readTokens sum.kind_ne_endOfInput sum.tokens_ne_nil hending hexpr⟩

/-- With enough room for nesting, a sum is read as one expression, which has the value of the sum
    whatever values the symbols have. -/
theorem exists_readTokens_sum (sum : Sum) {ending : List Token}
    (hending : ∀ t ∈ ending.head?, t.kind = .endOfInput) :
    ∃ e, (∀ᶠ limit in atTop,
        readTokens ⟨.standard, limit⟩ (sum.tokens ++ ending) = .ok (some e)) ∧
      ∀ σ : String → ℚ, e.value? σ = some (sum.value σ) := by
  obtain ⟨e, -, hread⟩ := exists_readTokens_value (fun _ => 0) sum hending
  refine ⟨e, hread, fun σ => ?_⟩
  -- for other values of the symbols it is the same expression that is read
  obtain ⟨e', he', hread'⟩ := exists_readTokens_value σ sum hending
  obtain ⟨limit, h, h'⟩ := (hread.and hread').exists
  obtain rfl : e = e' := Option.some.inj (Except.ok.inj (h.symm.trans h'))
  exact he'

/-- The sum `a - -5 b / (c + 2)`. -/
def mixedSum : Sum :=
  let symbol name : Primary := .symbol (.unplaced .symbol name) (Token.kind_unplaced ..)
  let number text n h : Primary :=
    .number (.unplaced .number text) n (Token.kind_unplaced ..) h
  let a : Sum := .term (.factor (.primary (symbol "a")))
  let c : Sum := .term (.factor (.primary (symbol "c")))
  let divisor : Sum := .add c (.unplaced .plus "+")
    (.factor (.primary (number "2" 2 (by decide)))) (Token.kind_unplaced ..)
  let product : Term := .beside
    (.factor (.minus (.unplaced .minus "-") (.primary (number "5" 5 (by decide)))
      (Token.kind_unplaced ..))) (symbol "b")
  .subtract a (.unplaced .minus "-")
    (.divide product (.unplaced .divide "/")
      (.primary (.group (.unplaced .leftParen "(") divisor (.unplaced .rightParen ")")
        (Token.kind_unplaced ..) (Token.kind_unplaced ..))) (Token.kind_unplaced ..))
    (Token.kind_unplaced ..)

/-- The value of `a - -5 b / (c + 2)`. -/
theorem exists_readTokens_mixedSum :
    (∀ t ∈ [Token.endOfInput .zero].head?, t.kind = .endOfInput) ∧
      ∃ e, (∀ᶠ limit in atTop,
          readTokens ⟨.standard, limit⟩ (mixedSum.tokens ++ [.endOfInput .zero]) = .ok (some e)) ∧
        ∀ σ : String → ℚ, e.value? σ = some (σ "a" - -5 * σ "b" / (σ "c" + 2)) := by
  exact ⟨Token.kind_of_mem_endOfInput,
    exists_readTokens_sum mixedSum Token.kind_of_mem_endOfInput⟩

end Symbolic.Arithmetic
