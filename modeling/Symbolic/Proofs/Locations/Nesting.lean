import Symbolic.Proofs.Layout.LaidOut
import Symbolic.Proofs.Locations.Onward
import Symbolic.Proofs.Locations.Reading

/-!
# Locations nest

Each rule of the grammar locates the node that it makes from the first to the last of the tokens
that it has passed over, whatever is spliced into the node and whatever it puts in at its signs. So
every node of a tree is located around its head and its children. Only the reciprocal that `a / b`
makes of `b` is located at `b` alone, although its exponent stands at the sign.

## Key results

- `reads_leading`, `reads_trailing`: the forms that start and that extend an expression
- `reads_expression`: an expression
- `fits_of_readTokens`: a whole input
- `surrounds_of_read`: the tree of a text
-/

namespace Symbolic

open Location Symbolic.Expr

/-! ## Atoms -/

mutual

/-- What holds of all locations in a tree holds of those in any part of it. -/
theorem Expr.like_of_mem_parts {r : Location → Location → Prop} {part : Expr} :
    ∀ {e : Expr}, Like r e e → part ∈ e.parts → Like r part part
  | .symbol .., h, hpart | .number .., h, hpart | .string .., h, hpart =>
    List.mem_singleton.mp hpart ▸ h
  | .node head children .., h, hpart => by
    rw [parts, List.mem_cons, List.mem_append] at hpart
    cases h with
    | node hhead hchildren hloc =>
    rcases hpart with rfl | hpart | hpart
    · exact .node hhead hchildren hloc
    · exact like_of_mem_parts hhead hpart
    · exact like_of_mem_allParts hchildren hpart

/-- So it is with the parts of several trees. -/
theorem Expr.like_of_mem_allParts {r : Location → Location → Prop} {part : Expr} :
    ∀ {es : List Expr}, List.Forall₂ (Like r) es es → part ∈ allParts es → Like r part part
  | [], _, hpart => nomatch hpart
  | _ :: _, .cons he hes, hpart => by
    rcases List.mem_append.mp hpart with hpart | hpart
    · exact like_of_mem_parts he hpart
    · exact like_of_mem_allParts hes hpart

end

namespace Reader

open Parse

variable {isSign : Location → Prop} {table : OperatorTable} {expr : Precedence → Parse Expr}
  {s s' : State} {lhs : Expr} {op : Operator} {lo m hi : Nat}

/-- All of an atom is where its token is. -/
theorem fits_of_atom {t : Token} {e : Expr} (ht : t.loc.Within lo hi)
    (h : Expr.atom table t = .ok e) : e.Fits isSign lo hi := by
  -- all locations in an atom are that of its token, since its tree is made from that alone
  let r : Location → Location → Prop := fun loc _ => loc = t.loc
  have hresult : LikeResult r (Expr.atom table t) (Expr.atom table t) := like_atom t.kind t.text rfl
  rw [h] at hresult
  obtain ⟨hlike⟩ := hresult
  have hloc : ∀ {part : Expr}, Like r part part → part.loc = t.loc := Expr.loc_like
  -- so each node in it is located just where its parts are
  have hsurrounds : ∀ {part : Expr}, Like r part part → part.Surrounds := by
    intro part hpart inner hinner
    have hlike' : Like r inner inner := by
      cases hpart with
      | node hhead hchildren _ =>
        rcases List.mem_cons.mp hinner with rfl | hmem
        · exact hhead
        · exact List.forall₂_same.mp hchildren inner hmem
      | _ => cases hinner
    rw [hloc hpart, hloc hlike']
    exact .refl _
  exact ⟨fun part hpart => .inl (hsurrounds (like_of_mem_parts hlike hpart)), hsurrounds hlike,
    hloc hlike ▸ ht⟩

/-- From the second offset on, the step reads a tree that starts at the first one at the
    earliest. -/
abbrev ReadsTree (isSign : Location → Prop) (lo m : Nat) (s : State) (step : Parse Expr) : Prop :=
  Reads isSign m s step fun hi _ e => e.Fits isSign lo hi

/-- The turn extends or ends a tree of this kind. -/
abbrev ExtendsTree (isSign : Location → Prop) (lo m : Nat) (s : State)
    (step : Parse (Turn Expr Expr)) : Prop :=
  Reads isSign m s step (TurnHolds (fun hi _ e => e.Fits isSign lo hi)
    fun hi _ e => e.Fits isSign lo hi)

/-- A tree that fits is one to go on extending. -/
theorem ReadsTree.again {step : Parse Expr} (h : ReadsTree isSign lo m s step) :
    ExtendsTree isSign lo m s (.again <$> step) :=
  .map h

/-- An operand that nothing extends still fits. -/
theorem extendsTree_done (hlhs : lhs.Fits isSign lo m) :
    ExtendsTree isSign lo m s (pure (.done lhs)) :=
  .pure hlhs

/-! ## Elements between commas -/

/-- Trees between two offsets. -/
structure FitAll (isSign : Location → Prop) (lo hi : Nat) (es : List Expr) : Prop where
  le : lo ≤ hi
  fits : ∀ e ∈ es, e.Fits isSign lo hi

/-- Elements before a closing bracket, where the last one may be missing. -/
structure Bracketed (isSign : Location → Prop) (lo hi : Nat) (s : State) (es : List Expr) :
    Prop where
  le : lo ≤ hi
  fits : ∀ e ∈ es, e.Fits isSign lo hi ∨ e = .symbol "Null" s.current.loc

/-- Trees that fit one behind the other, and then more of them, all fit together. -/
theorem FitAll.append {es es' : List Expr} (h : FitAll isSign lo m es)
    (h' : FitAll isSign m hi es') : FitAll isSign lo hi (es ++ es') where
  le := Nat.le_trans h.le h'.le
  fits := List.forall_mem_append.mpr
    ⟨fun e he => (h.fits e he).mono (Nat.le_refl _) h'.le,
      fun e he => (h'.fits e he).mono h.le (Nat.le_refl _)⟩

/-- Trees that fit still do where there is more space behind them. -/
theorem FitAll.mono {es : List Expr} (h : FitAll isSign lo m es) (hle : m ≤ hi) :
    FitAll isSign lo hi es :=
  ⟨Nat.le_trans h.le hle, fun e he => (h.fits e he).mono (Nat.le_refl _) hle⟩

namespace Bracketed

variable {es : List Expr} {loc closing : Location} {n : Nat}

/-- Once the closing bracket has been passed, everything between the brackets fits before it, also a
    last element that was left out. -/
theorem fits_of_passed (h : Bracketed isSign lo hi s es)
    (hclosing : Reads.Passed isSign hi s.current n s' closing) : FitAll isSign lo n es := by
  obtain ⟨rfl, hwithin, -⟩ := hclosing
  refine ⟨Nat.le_trans h.le hwithin.le, fun e he => ?_⟩
  rcases h.fits e he with hfits | rfl
  · exact hfits.mono (Nat.le_refl _) hwithin.le
  · exact fits_of_inner_eq_nil rfl (hwithin.mono h.le (Nat.le_refl _))

/-- Elements are within a location that ends with the closing bracket. -/
theorem inside (h : Bracketed isSign lo hi s es) (hloc : loc.Within m lo)
    (hclosing : Reads.Passed isSign hi s.current n s' closing) :
    ∀ e ∈ es, e.Inside isSign (loc.union closing) := by
  obtain ⟨rfl, hwithin, -⟩ := hclosing
  intro e he
  rcases h.fits e he with hfits | rfl
  · exact hfits.inside (hfits.within.encloses_union hloc hwithin)
  · exact inside_symbol _ (encloses_union_right ..)

end Bracketed

/-! ## Marks and tags -/

/-- Marks of a derivative, the first of which is at `first`. Either none of them has been passed
    over, or all of them up to the last one. -/
def Marked (op : Operator) (first : Location) (lo hi : Nat) (s : State) (marks : Nat × Location) :
    Prop :=
  (hi = lo ∧ s.current.kind = op.kind ∧ s.current.loc = first) ∨
    (first.Within lo hi ∧ marks.2.Within lo hi ∧ first.stop ≤ marks.2.stop)

/-- The tree of one more mark of a derivative fits where its tokens stand, and so do all of its
    parts. -/
theorem reads_derivativeTurn {first : Location} (hop : op.kind ≠ .endOfInput)
    {marks : Nat × Location} (hmarks : Marked op first lo m s marks) :
    Reads isSign m s (derivativeTurn op marks) (TurnHolds (Marked op first lo)
      fun hi _ marks => first.Within lo hi ∧ marks.2.Within lo hi ∧
        first.stop ≤ marks.2.stop) := by
  unfold derivativeTurn
  refine .bind_peek ?_
  split
  · rename_i hmark
    refine (Reads.advance (hmark ▸ hop)).bind fun loc hi s₁ hloc => .pure (.inr ?_)
    obtain ⟨rfl, hwithin, -⟩ := hloc
    rcases hmarks with ⟨rfl, -, rfl⟩ | ⟨hfirst, hlast, -⟩
    · -- the first mark is the last one so far
      exact ⟨hwithin, hwithin, UInt32.le_refl _⟩
    · -- this mark stands behind the first one
      refine ⟨hfirst.mono (Nat.le_refl _) hwithin.le, hwithin.mono hfirst.le (Nat.le_refl _), ?_⟩
      exact UInt32.le_iff_toNat_le.mpr
        (Nat.le_trans hfirst.stop (Nat.le_trans hwithin.start hwithin.ordered))
  · rename_i hother
    rcases hmarks with ⟨-, hmark, -⟩ | hmarks
    · -- there is a mark at least, since the operator is one
      exact absurd hmark hother
    · exact .pure hmarks

/-- A message and its tags so far, and where they are. -/
def Tagged (isSign : Location → Prop) (lo hi : Nat) (_ : State) (message : List Expr × Location) :
    Prop :=
  message.2.Within lo hi ∧ ∀ e ∈ message.1, e.Inside isSign message.2

/-- The tree of one more tag of a message fits where its tokens stand, and so do all of its
    parts. -/
theorem reads_messageTurn (hop : op.kind ≠ .endOfInput) {message : List Expr × Location}
    (hmessage : Tagged isSign lo m s message) : Reads isSign m s (messageTurn op message)
      (TurnHolds (Tagged isSign lo) (Tagged isSign lo)) := by
  obtain ⟨hwithin, hall⟩ := hmessage
  unfold messageTurn
  refine .bind_peek ?_
  split
  · rename_i hmark
    refine (Reads.advance (hmark ▸ hop)).bind fun _ m₁ s₁ hsign => .bind_peek ?_
    split
    · rename_i htag
      have hkind : s₁.current.kind ≠ .endOfInput := by
        rcases htag with htag | htag <;> simp [htag]
      refine (Reads.advance hkind).bind fun loc hi _ hloc => .pure ?_
      -- the message ends behind the tag, around the tags before it
      obtain ⟨rfl, hloc, -⟩ := hloc
      refine ⟨(hwithin.mono (Nat.le_refl _) hsign.2.1.le).append hloc,
        List.forall_mem_append.mpr ⟨fun e he => (hall e he).mono (encloses_union_left ..),
          List.forall_mem_singleton.mpr ?_⟩⟩
      exact ⟨nests_of_inner_eq_nil rfl, encloses_union_right ..⟩
    · exact .unexpected
  · exact .pure ⟨hwithin, hall⟩

section Rules

variable (hpower : table.isFlat "Power" = false)
  (h : ∀ p lo s, ReadsTree isSign lo lo s (expr p))
include h

section Elements

/-- The tree of one more expression in an element fits where its tokens stand, and so do all of its
    parts. -/
theorem reads_elementTurn (closer : TokenKind) {factors : List Expr}
    (hfactors : InOrder isSign lo m factors) :
    Reads isSign m s (elementTurn expr closer factors)
      (TurnHolds (fun hi _ factors => InOrder isSign lo hi factors)
        fun hi _ es => FitAll isSign lo hi es) := by
  unfold elementTurn
  refine .bind_peek ?_
  split
  · -- the element ends: its factors are multiplied
    refine .pure ⟨hfactors.le, fun e he => ?_⟩
    exact fits_of_juxtaposed? hfactors (Option.mem_toList.mp he)
  split
  · exact .unexpected
  split
  · exact .throw _
  · -- one more factor stands behind the others
    exact (h 0 m s).bind fun e hi s₁ he => .pure (hfactors.concat he)

/-- The tree of an element fits where its tokens stand, and so do all of its parts. -/
theorem reads_element (closer : TokenKind) :
    Reads isSign lo s (element expr closer) fun hi _ es => FitAll isSign lo hi es := by
  unfold element
  exact (h 0 lo s).bind fun e m s₁ he =>
    .iterate (I := fun hi _ factors => InOrder isSign lo hi factors)
      (fun _ _ _ hfactors => (reads_elementTurn h closer hfactors).turn)
      (.cons he (.nil (Nat.le_refl _)))

variable {closer : TokenKind} (hcloser : closer ≠ .endOfInput)

/-- The tree of one more element fits where its tokens stand, and so do all of its parts. -/
theorem reads_sequenceTurn {items : List Expr} (hitems : FitAll isSign lo m items) :
    Reads isSign m s (sequenceTurn expr closer items)
      (TurnHolds (fun hi _ items => FitAll isSign lo hi items)
        fun hi s' items => Bracketed isSign lo hi s' items) := by
  unfold sequenceTurn
  refine .bind_peek ?_
  split
  · rename_i hcomma
    refine (Reads.advance (by simp [hcomma])).bind fun loc hi s₁ hloc => .pure ?_
    -- an element that is left out stands where its comma does
    have hnull : FitAll isSign m hi [.symbol "Null" loc] :=
      ⟨hloc.2.1.le, List.forall_mem_singleton.mpr (fits_of_inner_eq_nil rfl hloc.2.1)⟩
    exact hitems.append hnull
  split
  · -- the closing bracket is next: a last element may be left out before it
    refine .pure ⟨hitems.le, ?_⟩
    split
    · exact List.forall_mem_nil _
    · exact List.forall_mem_append.mpr ⟨fun e he => .inl (hitems.fits e he),
        List.forall_mem_singleton.mpr (.inr rfl)⟩
  split
  · exact .unexpected
  · -- an element that is there stands behind the others
    refine (reads_element h closer).bind fun es hi s₁ hes => .bind_peek ?_
    have hall := hitems.append hes
    split
    · rename_i hcomma
      exact (Reads.advance (by simp [hcomma])).bind fun loc _ s₂ hloc =>
        .pure (hall.mono hloc.2.1.le)
    · exact .pure ⟨hall.le, fun e he => .inl (hall.fits e he)⟩

/-- The tree of the elements up to a closing bracket fits where its tokens stand, and so do all of
    its parts. -/
theorem reads_sequence : Reads isSign lo s (sequence expr closer)
    fun hi s' items => Bracketed isSign lo hi s' items :=
  .iterate (I := fun hi _ items => FitAll isSign lo hi items)
    (fun _ _ _ hitems => (reads_sequenceTurn h hitems).turn)
    ⟨Nat.le_refl _, List.forall_mem_nil _⟩

include hpower hcloser in
/-- The tree of a node over the elements between brackets fits where its tokens stand, and so do all
    of its parts. -/
theorem reads_bracketed (hkind : s.current.kind ≠ .endOfInput) (head : String) :
    ReadsTree isSign lo lo s (bracketed table expr head closer) := by
  unfold bracketed
  refine (Reads.openBracket hkind).bind fun opening m₁ s₁ hopening =>
    (reads_sequence h).bind fun items m₂ s₂ hitems =>
      (Reads.closeBracket hcloser).bind fun closing hi s₃ hclosing => .pure ?_
  have hloc := hopening.2.1.append (hclosing.2.1.mono hitems.le (Nat.le_refl _))
  exact fits_make hpower hloc (hitems.inside hopening.2.1 hclosing)

end Elements

/-! ## Leading forms -/

section Leading

variable (hkind : s.current.kind ≠ .endOfInput)
include hkind

/-- The tree of `(e)` fits where its tokens stand, and so do all of its parts. -/
theorem reads_group : ReadsTree isSign lo lo s (group expr) := by
  unfold group
  refine (Reads.openBracket hkind).bind fun opening m₁ s₁ hopening =>
    (h 0 m₁ s₁).bind fun e m₂ s₂ he =>
      (Reads.closeBracket (by decide)).bind fun closing hi s₃ hclosing => ?_
  split
  · -- brackets give the tree a location that takes them in
    have hloc := hopening.2.1.append (hclosing.2.1.mono he.le (Nat.le_refl _))
    exact .pure (he.withLoc hloc
      (he.within.encloses_union hopening.2.1 hclosing.2.1)).parenthesize
  · -- an atom keeps the location that it has
    exact .pure (he.mono hopening.2.1.le hclosing.2.1.le)

/-- An operator with one operand after it, and a tree made of both. -/
theorem reads_operand {p : Precedence} {tree : Location → Expr → Expr}
    (htree : ∀ {m' hi sign e}, Reads.Passed isSign m s.current m' s sign → e.Fits isSign m' hi →
      (tree sign e).Fits isSign lo hi) :
    ReadsTree isSign lo m s (do
      let sign ← advance
      let e ← expr p
      return tree sign e) :=
  (Reads.advance hkind).bind fun _ m' s₁ hsign => (h p m' s₁).bind fun _ _ _ he =>
    .pure (htree hsign he)

/-- The tree of `+x` fits where its tokens stand, and so do all of its parts. -/
theorem reads_plus : ReadsTree isSign lo lo s (plus expr op) := by
  unfold plus
  refine (Reads.advance hkind).bind fun sign m s₁ hsign => (h _ m s₁).bind fun e hi s₂ he => ?_
  split
  · exact .pure (he.mono hsign.2.1.le (Nat.le_refl _))
  · exact .pure (he.withLoc (hsign.2.1.append he.within) (encloses_union_right ..))

include hpower

/-- The tree of `-x` fits where its tokens stand, and so do all of its parts. -/
theorem reads_minus : ReadsTree isSign lo lo s (minus table expr op) :=
  reads_operand h hkind fun hsign he => fits_negate hpower hsign.2.1 he

/-- The tree of `?x` fits where its tokens stand, and so do all of its parts. -/
theorem reads_information : ReadsTree isSign lo lo s (information table expr op) := by
  unfold information
  refine (Reads.advance hkind).bind fun sign m s₁ hsign => .bind_peek ?_
  refine (h _ m s₁).bind fun e hi s₂ he => ?_
  dsimp only
  split
  · exact .throw_bind _
  · -- the option is where the sign is
    refine .pure (fits_make hpower (hsign.2.1.append he.within) (inside_pair
      (he.inside (encloses_union_right ..)) ?_))
    exact (fits_make hpower hsign.2.1 (inside_pair (inside_symbol _ (.refl _))
      (inside_symbol _ (.refl _)))).inside (encloses_union_left ..)

/-- The tree of `!!x` fits where its tokens stand, and so do all of its parts. -/
theorem reads_doubleNegation : ReadsTree isSign lo lo s (doubleNegation table expr op) := by
  refine reads_operand h hkind fun hsign he => ?_
  have hloc := hsign.2.1.append he.within
  exact fits_make hpower hloc (List.forall_mem_singleton.mpr ((fits_make hpower hloc
    (List.forall_mem_singleton.mpr (he.inside (encloses_union_right ..)))).inside (.refl _)))

/-- The tree of `∫ f ⅆ x` fits where its tokens stand, and so do all of its parts. -/
theorem reads_integral : ReadsTree isSign lo lo s (integral table expr op) := by
  unfold integral
  refine (Reads.advance hkind).bind fun sign m₁ s₁ hsign =>
    (h _ m₁ s₁).bind fun e m₂ s₂ he => (Reads.expect (by decide)).bind fun d m₃ s₃ hd =>
      (h _ m₃ s₃).bind fun x hi s₄ hx => .pure ?_
  have hx' := hx.mono hd.2.1.le (Nat.le_refl _)
  exact fits_make hpower (hsign.2.1.append (hx'.mono he.le (Nat.le_refl _)).within)
    (inside_pair (he.inside (he.within.encloses_union hsign.2.1 hx'.within))
      (hx.inside (encloses_union_right ..)))

/-- The tree of the node of any other prefix operator fits where its tokens stand, and so do all of
    its parts. -/
theorem reads_prefixedNode : ReadsTree isSign lo lo s (prefixedNode table expr op) :=
  reads_operand h hkind fun hsign he => fits_make hpower (hsign.2.1.append he.within)
    (List.forall_mem_singleton.mpr (he.inside (encloses_union_right ..)))

/-! ## Spans -/

omit hpower hkind in
/-- The end of a span is at its sign if it is missing. -/
theorem reads_spanEnd {sign : Location} (hsign : sign.Within lo m) :
    Reads isSign m s (spanEnd expr op sign) fun hi _ stop =>
      m ≤ hi ∧ stop.Fits isSign lo hi := by
  -- an end that is missing stands where the sign does
  have hall : (symbol "All" sign).Fits isSign lo m := fits_of_inner_eq_nil rfl hsign
  unfold spanEnd
  refine .bind_peek ?_
  split
  · exact .pure ⟨Nat.le_refl _, hall⟩
  · -- an attempt that fails leaves the reader where it is
    refine (h _ m s).attempt.bind fun stop? hi s₁ hstop => .pure ?_
    cases stop? with
    | none =>
      obtain rfl : hi = m := hstop
      exact ⟨Nat.le_refl _, hall⟩
    | some stop =>
      have hstop : stop.Fits isSign m hi := hstop
      exact ⟨hstop.le, hstop.mono hsign.le (Nat.le_refl _)⟩

omit hpower hkind in
/-- The tree of the step of a span fits where its tokens stand, and so do all of its parts. -/
theorem reads_spanStep? : Reads isSign lo s (spanStep? expr op)
    fun hi _ step? => step?.elim (hi = lo) fun step => step.Fits isSign lo hi := by
  unfold spanStep?
  refine .bind_peek ?_
  split
  · rename_i hspan
    exact .attempt ((Reads.advance (by simp [hspan])).bind fun sign m s₁ hsign =>
      (h _ m s₁).weaken fun he => he.mono hsign.2.1.le (Nat.le_refl _))
  · exact .pure rfl

/-- The tree of a span from its first mark on fits where its tokens stand, and so do all of its
    parts. -/
theorem reads_spanFrom (hlhs : lhs.Fits isSign lo m) :
    ReadsTree isSign lo m s (spanFrom table expr lhs op) := by
  unfold spanFrom
  refine (Reads.advance hkind).bind fun sign m₁ s₁ hsign => .bind_atFinalEnd fun isEnd => ?_
  obtain ⟨-, hsign, -⟩ := hsign
  split
  · -- the input ends behind the sign
    exact .pure (fits_make hpower (hlhs.within.append hsign) (inside_pair
      (hlhs.inside (encloses_union_left ..)) (inside_symbol _ (encloses_union_right ..))))
  refine (reads_spanEnd h hsign).bind fun stop m₂ s₂ hstop =>
    (reads_spanStep? h).bind fun step? hi s₃ hstep => ?_
  obtain ⟨hle, hstop⟩ := hstop
  cases step? with
  | none =>
    -- without a step the span reaches to its end, which can be where the sign is
    obtain rfl : hi = m₂ := hstep
    have hloc := (hlhs.within.append hstop.within).union (hsign.mono hlhs.le hle)
    exact .pure (fits_make hpower hloc (inside_pair
      (hlhs.inside ((encloses_union_left ..).trans (encloses_union_left ..)))
      (hstop.inside ((encloses_union_left ..).trans (encloses_union_right ..)))))
  | some step =>
    -- with a step it reaches to that
    have hstep : step.Fits isSign m₂ hi := hstep
    exact .pure (fits_make hpower
      (hlhs.within.append (hstep.mono hstop.le (Nat.le_refl _)).within)
      (List.forall_mem_cons.mpr ⟨hlhs.inside (encloses_union_left ..), inside_pair
        (hstop.inside (hstop.within.encloses_union hlhs.within hstep.within))
        (hstep.inside (encloses_union_right ..))⟩))

/-- The tree of a span without a start fits where its tokens stand, and so do all of its parts. -/
theorem reads_leadingSpan : ReadsTree isSign lo lo s (leadingSpan table expr op) := by
  unfold leadingSpan
  refine .bind_peek (.at_current hkind fun hle => ?_)
  -- the start that is put in takes up nothing before the sign
  have hstart : (integer 1 (.empty s.current.loc.start)).Fits isSign lo
      s.current.loc.start.toNat :=
    fits_of_inner_eq_nil rfl ⟨hle, Nat.le_refl _, Nat.le_refl _⟩
  exact reads_spanFrom hpower h hkind hstart

/-! ## All leading forms -/

/-- The tree of a prefix operator with its operands fits where its tokens stand, and so do all of
    its parts. -/
theorem reads_prefixed : ReadsTree isSign lo lo s (prefixed table expr op) := by
  unfold prefixed
  split
  · exact reads_minus hpower h hkind
  · exact reads_plus h hkind
  · exact reads_information hpower h hkind
  · exact reads_information hpower h hkind
  · exact reads_doubleNegation hpower h hkind
  · exact reads_integral hpower h hkind
  · exact reads_leadingSpan hpower h hkind
  · exact reads_prefixedNode hpower h hkind

omit h hpower in
/-- The tree of an atom fits where its tokens stand, and so do all of its parts. -/
theorem reads_atom : ReadsTree isSign lo lo s (atom table) := by
  unfold atom
  refine .bind_peek (.bind_ofResult fun e he => (Reads.advance hkind).bind fun loc hi s₁ hloc =>
    .pure ?_)
  obtain ⟨rfl, hwithin, -⟩ := hloc
  exact fits_of_atom hwithin he

/-- The tree of a leading form fits where its tokens stand, and so do all of its parts. -/
theorem reads_leading : ReadsTree isSign lo lo s (leading table expr) := by
  unfold leading
  refine .bind_peek ?_
  split
  · exact reads_prefixed hpower h hkind
  split
  · exact reads_group h hkind
  · exact reads_bracketed hpower h (by decide) hkind _
  · exact reads_bracketed hpower h (by decide) hkind _
  split
  · exact reads_atom hkind
  · exact .unexpected

end Leading

/-! ## Trailing forms -/

section Trailing

include hpower

variable (hlhs : lhs.Fits isSign lo m)
include hlhs

/-- The tree of expressions side by side fits where its tokens stand, and so do all of its parts. -/
theorem reads_juxtaposition (p : Precedence) :
    ExtendsTree isSign lo m s (juxtaposition table expr lhs p) := by
  unfold juxtaposition
  refine .bind_peek ?_
  split
  · exact extendsTree_done hlhs
  split
  · exact extendsTree_done hlhs
  · exact (h _ m s).bind fun _ _ _ hrhs => .pure (fits_make_pair hpower hlhs hrhs)

variable (hkind : s.current.kind ≠ .endOfInput)
include hkind

/-- The tree of the node of an infix operator fits where its tokens stand, and so do all of its
    parts. -/
theorem reads_infixedNode : ReadsTree isSign lo m s (infixedNode table expr lhs op) := by
  unfold infixedNode
  split
  · exact .bind_peek (.throw_bind _)
  · exact reads_operand h hkind fun hsign hrhs =>
      fits_make_pair hpower hlhs (hrhs.mono hsign.2.1.le (Nat.le_refl _))

omit h in
/-- The tree of the node of a postfix operator fits where its tokens stand, and so do all of its
    parts. -/
theorem reads_postfixedNode : ReadsTree isSign lo m s (postfixedNode table lhs op) := by
  unfold postfixedNode
  exact (Reads.advance hkind).bind fun _ _ _ hsign =>
    .pure (fits_make hpower (hlhs.within.append hsign.2.1)
      (List.forall_mem_singleton.mpr (hlhs.inside (encloses_union_left ..))))

/-- The tree of `a - b` fits where its tokens stand, and so do all of its parts. -/
theorem reads_difference : ReadsTree isSign lo m s (difference table expr lhs op) :=
  reads_operand h hkind fun {_ hi sign rhs} hsign hrhs => by
    have hnegative : (negate table "Times" rhs sign (sign.union rhs.loc)).Fits isSign m hi :=
      fits_negate hpower hsign.2.1 hrhs
    have hloc := hsign.2.1.append hrhs.within
    exact fits_make hpower (hlhs.within.append hloc) (inside_pair
      (hlhs.inside (encloses_union_left ..))
      ⟨hnegative.nests, (loc_negate _).symm ▸ encloses_union_right ..⟩)

/-- The sign of division is before the reciprocal that it makes. -/
theorem reads_quotient (hdivide : s.current.kind = .divide) :
    ReadsTree isSign lo m s (quotient table expr lhs op) :=
  reads_operand h hkind fun {m' hi sign rhs} hsign hrhs => by
    obtain ⟨-, hwithin, hsign⟩ := hsign
    have hrhs' := hrhs.mono hwithin.le (Nat.le_refl _)
    have hle : sign.stop ≤ rhs.loc.start :=
      UInt32.le_iff_toNat_le.mpr (Nat.le_trans hwithin.stop hrhs.within.start)
    -- the reciprocal is the one node that need not surround its parts: it is where the operand is,
    -- and the exponent is where the sign is
    have hmake : make table "Power" [rhs, integer (-1) sign] rhs.loc = reciprocal rhs sign := by
      simp [make, arguments, hpower, reciprocal]
    rw [hmake]
    exact fits_make hpower (hlhs.within.append hrhs'.within) (inside_pair
      (hlhs.inside (encloses_union_left ..))
      ⟨nests_reciprocal hrhs.nests (hsign hdivide) hle, encloses_union_right ..⟩)

/-- The tree of a comparison fits where its tokens stand, and so do all of its parts. -/
theorem reads_comparison : ReadsTree isSign lo m s (comparison table expr lhs op) :=
  reads_operand h hkind fun hsign hrhs => fits_compare hpower hlhs hsign.2.1 hrhs

omit hpower in
/-- The tree of `f @ x` fits where its tokens stand, and so do all of its parts. -/
theorem reads_prefixApplication : ReadsTree isSign lo m s (prefixApplication expr lhs op) :=
  reads_operand h hkind fun hsign hrhs =>
    have hrhs' := hrhs.mono hsign.2.1.le (Nat.le_refl _)
    fits_node (hlhs.within.append hrhs'.within) (hlhs.inside (encloses_union_left ..))
      (List.forall_mem_singleton.mpr (hrhs.inside (encloses_union_right ..)))

omit hpower in
/-- The tree of `x // f` fits where its tokens stand, and so do all of its parts. -/
theorem reads_postfixApplication : ReadsTree isSign lo m s (postfixApplication expr lhs op) :=
  reads_operand h hkind fun hsign hrhs =>
    have hrhs' := hrhs.mono hsign.2.1.le (Nat.le_refl _)
    fits_node (hlhs.within.append hrhs'.within) (hrhs.inside (encloses_union_right ..))
      (List.forall_mem_singleton.mpr (hlhs.inside (encloses_union_left ..)))

/-- The tree of `f @@@ x` fits where its tokens stand, and so do all of its parts. -/
theorem reads_levelApplication : ReadsTree isSign lo m s (levelApplication table expr lhs op) :=
  reads_operand h hkind fun {m' hi sign rhs} hsign hrhs => by
    have hrhs' := hrhs.mono hsign.2.1.le (Nat.le_refl _)
    have hlevel : (make table "List" [integer 1 sign] sign).Fits isSign m m' :=
      fits_make hpower hsign.2.1 (List.forall_mem_singleton.mpr (inside_integer _ (.refl _)))
    exact fits_make hpower (hlhs.within.append hrhs'.within) (List.forall_mem_cons.mpr
      ⟨hlhs.inside (encloses_union_left ..), inside_pair
        (hrhs.inside (encloses_union_right ..))
        (hlevel.inside (hsign.2.1.encloses_union hlhs.within hrhs.within))⟩)

omit hpower in
/-- The tree of `a ~ f ~ b` fits where its tokens stand, and so do all of its parts. -/
theorem reads_infixApplication (hop : op.kind ≠ .endOfInput) :
    ReadsTree isSign lo m s (infixApplication expr lhs op) := by
  unfold infixApplication
  refine (Reads.advance hkind).bind fun _ m₁ s₁ hsign => (h _ m₁ s₁).bind fun f m₂ s₂ hf =>
    (Reads.expect hop).bind fun _ m₃ s₃ hsecond => (h _ m₃ s₃).bind fun rhs hi _ hrhs => .pure ?_
  have hf' := hf.mono hsign.2.1.le (Nat.le_refl _)
  have hrhs' := hrhs.mono hsecond.2.1.le (Nat.le_refl _)
  exact fits_node (hlhs.within.append (hrhs'.mono hf'.le (Nat.le_refl _)).within)
    (hf.inside (hf'.within.encloses_union hlhs.within hrhs'.within))
    (inside_pair (hlhs.inside (encloses_union_left ..)) (hrhs.inside (encloses_union_right ..)))

/-- The tree of a pure function fits where its tokens stand, and so do all of its parts. -/
theorem reads_pureFunction : ReadsTree isSign lo m s (pureFunction table expr lhs op) := by
  unfold pureFunction
  refine .bind_peek ((Reads.advance hkind).bind fun sign m₁ s₁ hsign => ?_)
  split
  · exact .pure (fits_make hpower (hlhs.within.append hsign.2.1)
      (List.forall_mem_singleton.mpr (hlhs.inside (encloses_union_left ..))))
  · exact (h _ m₁ s₁).bind fun _ _ _ hbody => .pure
      (fits_make_pair hpower hlhs (hbody.mono hsign.2.1.le (Nat.le_refl _)))

/-- The tree of a call or a part fits where its tokens stand, and so do all of its parts. -/
theorem reads_callOrPart : ReadsTree isSign lo m s (callOrPart table expr lhs op) := by
  unfold callOrPart
  refine (Reads.openBracket hkind).bind fun _ m₁ s₁ hopening => .bind_peek ?_
  have hlhs' := hlhs.within.mono (Nat.le_refl _) hopening.2.1.le
  split
  · -- a second bracket: the indices of a part
    rename_i hsecond
    unfold part
    refine (Reads.advance (by simp [hsecond])).bind fun _ m₂ s₂ hinner =>
      (reads_sequence h).bind fun indices m₃ s₃ hindices =>
        (Reads.expect (by decide)).bind fun _ m₄ s₄ hfirst =>
          (Reads.closeBracket (by decide)).bind fun closing hi _ hclosing => .pure ?_
    have hall := hindices.fits_of_passed hfirst
    have hlhs'' := hlhs'.mono (Nat.le_refl _) hinner.2.1.le
    exact fits_make hpower (hlhs''.append (hclosing.2.1.mono hall.le (Nat.le_refl _)))
      (List.forall_mem_cons.mpr ⟨hlhs.inside (encloses_union_left ..), fun e he =>
        (hall.fits e he).inside
          ((hall.fits e he).within.encloses_union hlhs'' hclosing.2.1)⟩)
  · -- the arguments of a call
    unfold call
    refine (reads_sequence h).bind fun args m₂ s₂ hargs =>
      (Reads.closeBracket (by decide)).bind fun closing hi _ hclosing => .pure ?_
    refine Fits.parenthesize (fits_node
      (hlhs'.append (hclosing.2.1.mono hargs.le (Nat.le_refl _)))
      (hlhs.inside (encloses_union_left ..)) (hargs.inside hlhs' hclosing))

omit h in
/-- The tree of `f''` fits where its tokens stand, and so do all of its parts. -/
theorem reads_derivative (hop : op.kind = s.current.kind) :
    ReadsTree isSign lo m s (derivative table lhs op) := by
  unfold derivative
  refine .bind_peek ?_
  refine (Reads.iterate (I := Marked op s.current.loc m)
    (fun _ _ _ hmarks => (reads_derivativeTurn (hop ▸ hkind) hmarks).turn)
    (.inl ⟨rfl, hop.symm, rfl⟩)).bind fun marks hi s₁ hmarks => ?_
  obtain ⟨hfirst, hlast, hle⟩ := hmarks
  have hloc := hfirst.union hlast
  -- the head holds the number of marks, and is located at the marks alone
  have hhead : (make table op.head [integer marks.1 _] _).Fits isSign m hi :=
    fits_make hpower hloc (List.forall_mem_singleton.mpr (inside_integer marks.1 (.refl _)))
  have hencloses := (hfirst.encloses_union_of_le hlhs.within hle).union
    (encloses_union_right lhs.loc marks.2)
  exact .pure (fits_node (hlhs.within.append hlast) (hhead.inside hencloses)
    (List.forall_mem_singleton.mpr (hlhs.inside (encloses_union_left ..))))

omit h hkind in
/-- The tree of `a::b` fits where its tokens stand, and so do all of its parts. -/
theorem reads_messageName (hop : op.kind ≠ .endOfInput) :
    ReadsTree isSign lo m s (messageName table lhs op) := by
  have hfirst : Tagged isSign lo m s ([lhs], lhs.loc) :=
    ⟨hlhs.within, List.forall_mem_singleton.mpr (hlhs.inside (.refl _))⟩
  unfold messageName
  exact (Reads.iterate (I := Tagged isSign lo)
    (fun _ _ _ hmessage => (reads_messageTurn hop hmessage).turn) hfirst).bind
    fun _ _ _ hmessage => .pure (fits_make hpower hmessage.1 hmessage.2)

/-! ## Patterns and statements -/

/-- The tree of `x:p` or `p:v` fits where its tokens stand, and so do all of its parts. -/
theorem reads_colon (p : Precedence) : ExtendsTree isSign lo m s (colon table expr lhs op p) := by
  unfold colon
  split
  · exact extendsTree_done hlhs
  split
  · exact extendsTree_done hlhs
  · exact (Reads.advance hkind).bind fun _ m₁ s₁ hsign => (h _ m₁ s₁).bind fun _ _ _ hrhs =>
      .pure (fits_make_pair hpower hlhs (hrhs.mono hsign.2.1.le (Nat.le_refl _)))

/-- The tree of `a; b` fits where its tokens stand, and so do all of its parts. -/
theorem reads_compound : ReadsTree isSign lo m s (compound table expr lhs op) := by
  unfold compound
  refine (Reads.advance hkind).bind fun sign m₁ s₁ hsign => .bind_atFinalEnd fun isEnd => ?_
  -- a statement that is missing is where the sign is
  have hnull : (symbol "Null" sign).Fits isSign m m₁ := fits_of_inner_eq_nil rfl hsign.2.1
  dsimp only
  split
  · exact .pure (fits_make_pair hpower hlhs hnull)
  · refine (h _ m₁ s₁).attempt.bind fun rhs? hi _ hrhs => .pure (fits_make_pair hpower hlhs ?_)
    cases rhs? with
    | none =>
      obtain rfl : hi = m₁ := hrhs
      exact hnull
    | some rhs =>
      have hrhs : rhs.Fits isSign m₁ hi := hrhs
      exact hrhs.mono hsign.2.1.le (Nat.le_refl _)

/-- The tree of `f /: p = v` fits where its tokens stand, and so do all of its parts. -/
theorem reads_tagSet : ReadsTree isSign lo m s (tagSet table expr lhs op) := by
  unfold tagSet
  refine (Reads.advance hkind).bind fun _ m₁ s₁ hfirst =>
    (h _ m₁ s₁).bind fun pattern m₂ s₂ hpattern => .bind_peek ?_
  have hpattern' := hpattern.mono hfirst.2.1.le (Nat.le_refl _)
  split
  · exact .missing _
  rename_i head hhead
  -- the second operator is no end of the input, since that is no assignment
  have hset : s₂.current.kind ≠ .endOfInput := by
    intro hend
    rw [hend] at hhead
    cases hhead
  refine (Reads.advance hset).bind fun sign m₃ s₃ hsign => ?_
  split
  · -- nothing is assigned: the tree ends at the sign
    have hsign' := hsign.2.1.mono hpattern'.le (Nat.le_refl _)
    exact .pure (fits_make hpower (hlhs.within.append hsign') (inside_pair
      (hlhs.inside (encloses_union_left ..))
      (hpattern.inside (hpattern'.within.encloses_union hlhs.within hsign.2.1))))
  · -- the value stands behind the sign
    refine (h _ m₃ s₃).bind fun value hi _ hvalue => .pure ?_
    have hvalue' := hvalue.mono hsign.2.1.le (Nat.le_refl _)
    exact fits_make hpower
      (hlhs.within.append (hvalue'.mono hpattern'.le (Nat.le_refl _)).within)
      (List.forall_mem_cons.mpr ⟨hlhs.inside (encloses_union_left ..), inside_pair
        (hpattern.inside (hpattern'.within.encloses_union hlhs.within hvalue'.within))
        (hvalue.inside (encloses_union_right ..))⟩)

/-- The tree of a span behind its start fits where its tokens stand, and so do all of its parts. -/
theorem reads_trailingSpan : ExtendsTree isSign lo m s (trailingSpan table expr lhs op) := by
  unfold trailingSpan
  split
  · exact extendsTree_done hlhs
  · exact (reads_spanFrom hpower h hkind hlhs).bind fun _ _ _ he => .pure he

/-! ## All trailing forms -/

/-- The tree of any form that extends an operand fits where its tokens stand, and so do all of its
    parts. -/
theorem reads_extended (hop : op.kind = s.current.kind) :
    ExtendsTree isSign lo m s (extended table expr lhs op s.current.kind) := by
  -- the operator has been found, so there is a token left
  have hend : op.kind ≠ .endOfInput := hop ▸ hkind
  unfold extended
  split
  · exact (reads_messageName hpower hlhs hend).again
  · exact (reads_callOrPart hpower h hlhs hkind).again
  · exact (reads_derivative hpower hlhs hkind hop).again
  · exact (reads_difference hpower h hlhs hkind).again
  · rename_i hdivide
    exact (reads_quotient hpower h hlhs hkind hdivide).again
  -- the six comparisons share one rule
  iterate 6 exact (reads_comparison hpower h hlhs hkind).again
  · exact (reads_prefixApplication h hlhs hkind).again
  · exact (reads_postfixApplication h hlhs hkind).again
  · exact (reads_infixApplication h hlhs hkind hend).again
  · exact (reads_levelApplication hpower h hlhs hkind).again
  · exact (reads_pureFunction hpower h hlhs hkind).again
  · exact (reads_compound hpower h hlhs hkind).again
  · exact reads_trailingSpan hpower h hlhs hkind
  · exact (reads_tagSet hpower h hlhs hkind).again
  split
  · exact (reads_infixedNode hpower h hlhs hkind).again
  · exact (reads_postfixedNode hpower hlhs hkind).again
  · exact extendsTree_done hlhs
  · exact extendsTree_done hlhs

/-- The tree of what extends an operand or ends it fits where its tokens stand, and so do all of its
    parts. -/
theorem reads_trailing (p : Precedence) :
    ExtendsTree isSign lo m s (trailing table expr p lhs) := by
  unfold trailing
  refine .bind_peek ?_
  split
  · exact reads_juxtaposition hpower h hlhs p
  rename_i op hfound
  -- the operator is that of the current token, whose place is known
  obtain ⟨-, hop, -⟩ := OperatorTable.mem_of_trailing? hfound
  split
  · exact reads_colon hpower h hlhs hkind p
  split
  · exact extendsTree_done hlhs
  · exact reads_extended hpower h hlhs hkind hop

omit hkind in
/-- A turn of the loop over what extends an operand keeps the tree where its tokens stand. -/
theorem readsTurn_trailing (p : Precedence) : ReadsTurn isSign m s (trailing table expr p lhs)
    (fun hi _ e => e.Fits isSign lo hi) fun hi _ e => e.Fits isSign lo hi := by
  by_cases hkind : s.current.kind = .endOfInput
  · refine ⟨fun hs e s' hdone => ?_, fun hs e s' _ hlt => ?_⟩
    · obtain ⟨rfl, rfl⟩ := eq_of_trailing_done hkind hdone
      exact ⟨m, hs, hlhs⟩
    · -- no token is left that could have been passed over
      rw [rest_eq_nil_of_onward hs hkind] at hlt
      exact absurd hlt (Nat.not_lt_zero _)
  · exact (reads_trailing hpower h hlhs hkind p).turn

end Trailing

/-! ## Expressions and inputs -/

include hpower

/-- The tree of a leading form with all that extends it fits where its tokens stand, and so do all
    of its parts. -/
theorem reads_chain (hkind : s.current.kind ≠ .endOfInput) (p : Precedence) :
    ReadsTree isSign lo lo s (chain table expr p) := by
  unfold chain
  exact (reads_leading hpower h hkind).bind fun _ _ _ hlhs =>
    .iterate (I := fun hi _ e => e.Fits isSign lo hi)
      (fun _ _ _ he => readsTurn_trailing hpower h he p) hlhs

omit hpower in
/-- The tree of one more expression of an input fits where its tokens stand, and so do all of its
    parts. -/
theorem reads_programTurn {exprs : List Expr} (hexprs : InOrder isSign lo m exprs) :
    Reads isSign m s (programTurn expr exprs)
      (TurnHolds (fun hi _ exprs => InOrder isSign lo hi exprs)
        fun hi _ e? => ∀ e ∈ e?, e.Fits isSign lo hi) := by
  unfold programTurn
  refine .bind_peek ?_
  split
  · exact .pure fun _ he => fits_of_juxtaposed? hexprs he
  · exact (h 0 m s).bind fun _ _ _ he => .pure (hexprs.concat he)

end Rules

section Expressions

variable (hpower : table.isFlat "Power" = false)
include hpower

/-- The tree of an expression fits where its tokens stand, and so do all of its parts. -/
theorem reads_expression (room : Nat) (p : Precedence) (lo : Nat) (s : State) :
    ReadsTree isSign lo lo s (expression table room p) := by
  -- induction on the room, which is less for the parts of an expression
  induction room generalizing p lo s with
  | zero => exact ⟨fun _ _ _ h => nomatch h⟩
  | succ room ih =>
    by_cases hkind : s.current.kind = .endOfInput
    · -- an expression takes up a token, and there is none
      refine ⟨fun hs e s' hexpr => ?_⟩
      have hlt := lt_of_expression_ok hexpr
      rw [rest_eq_nil_of_onward hs hkind] at hlt
      exact absurd hlt (Nat.not_lt_zero _)
    · exact .remember (reads_chain hpower ih hkind p)

/-- The tree of tokens one behind the other nests, and is located around its own parts. -/
theorem fits_of_readTokens {limit : Nat} {tokens : List Token} {e : Expr}
    (htokens : Onward isSign lo (tokens.takeWhile (·.kind != .endOfInput)))
    (hread : readTokens ⟨table, limit⟩ tokens = .ok (some e)) :
    ∃ hi, e.Fits isSign lo hi := by
  obtain ⟨s', hprogram⟩ := exists_program_ok hread
  have hreads : Reads isSign lo (.ofTokens tokens) (program ⟨table, limit⟩)
      fun hi _ e? => ∀ e ∈ e?, e.Fits isSign lo hi :=
    .iterate (I := fun hi _ exprs => InOrder isSign lo hi exprs)
      (fun _ _ _ hexprs => (reads_programTurn (reads_expression hpower limit) hexprs).turn)
      (.nil (Nat.le_refl _))
  obtain ⟨hi, -, he⟩ := hreads.ok htokens hprogram
  exact ⟨hi, he e rfl⟩

end Expressions

end Reader

/-! ## Texts -/

/-- The tokens of a text come one behind the other. -/
theorem Scan.LaidOut.onward {isSign : Location → Prop} {offset : Nat} {cs : List Char}
    {sources : List (List Char)} {tokens : List Token} (h : LaidOut offset cs sources tokens)
    (hsize : offset + Text.byteLength cs < 4294967296)
    (hsign : ∀ t ∈ tokens, t.kind = .divide → isSign t.loc) :
    Onward isSign offset (tokens.takeWhile (·.kind != .endOfInput)) := by
  induction h with
  | stop => exact .nil
  | @token offset gap source rest t sources tokens isGap ne_nil kind loc _ ih =>
    -- no offset in the text is so large that a location could not hold it
    simp only [Text.byteLength_append, ← Nat.add_assoc] at hsize ih loc
    obtain ⟨hstart, hstop⟩ := Location.toNat_ends loc (by omega) (by omega)
    obtain ⟨ht, hrest⟩ := List.forall_mem_cons.mp hsign
    have hkind : (t.kind != .endOfInput) = true := bne_iff_ne.mpr kind
    rw [List.takeWhile_cons_of_pos (by exact hkind)]
    refine .cons kind ⟨by omega, by omega, Nat.le_refl _⟩ ht ?_
    rw [hstop]
    exact ih hsize hrest

/-- In the tree of a text of fewer than 2 ^ 32 bytes every node is located around its head and its
    children, except for the reciprocals that signs of division make: those are located at their
    base, behind the sign that their exponent stands at. -/
theorem surrounds_of_read {text : String} {limit : Nat} {e : Expr}
    (hsize : text.utf8ByteSize < 4294967296)
    (hread : read ⟨.standard, limit⟩ text = .ok (some e)) :
    ∃ tokens, tokenize text = .ok tokens ∧ ∀ part ∈ e.parts, part.Surrounds ∨
      ∃ base, ∃ sign ∈ tokens, sign.kind = .divide ∧ sign.loc.stop ≤ base.loc.start ∧
        part = reciprocal base sign.loc := by
  unfold read at hread
  split at hread
  · cases hread
  rename_i tokens htokens
  split at hread
  · cases hread
  rename_i result htree
  cases hread
  -- the tokens stand one behind the other, as the lexemes that they were read from do
  obtain ⟨sources, hlaid⟩ := Scan.exists_laidOut_of_tokenize htokens
  have hlength : 0 + Text.byteLength text.toList < 4294967296 := by
    have := Text.byteLength_toList text
    omega
  -- signs of division are tokens of the text, and only those excuse a node
  let isSign (loc : Location) : Prop := ∃ t ∈ tokens, t.kind = .divide ∧ t.loc = loc
  have honward : Onward isSign 0 _ :=
    hlaid.onward hlength fun t ht hkind => ⟨t, ht, hkind, rfl⟩
  obtain ⟨hi, hfits⟩ := Reader.fits_of_readTokens (by decide) honward htree
  refine ⟨tokens, htokens, fun part hpart => ?_⟩
  rcases hfits.nests part hpart with hsurrounds | ⟨base, loc, ⟨t, ht, hkind, rfl⟩, hle, hpart⟩
  · exact .inl hsurrounds
  · exact .inr ⟨base, t, ht, hkind, hle, hpart⟩

/-- In `a - b/c` only the reciprocal is not located around its parts. -/
theorem surrounds_dividedDifference :
    let symbol (name : String) (start stop : UInt32) : Expr := .symbol name ⟨start, stop⟩
    let node (head : Expr) (es : List Expr) (loc : Location) : Expr := .node head es false loc
    let quotient := node (symbol "Times" 2 7)
      [.integer (-1) ⟨2, 3⟩, symbol "b" 4 5, reciprocal (symbol "c" 6 7) ⟨5, 6⟩] ⟨2, 7⟩
    let difference := node (symbol "Plus" 0 7) [symbol "a" 0 1, quotient] ⟨0, 7⟩
    "a - b/c".utf8ByteSize < 4294967296 ∧
      read ⟨.standard, 128⟩ "a - b/c" = .ok (some difference) ∧
      ∃ tokens, tokenize "a - b/c" = .ok tokens ∧ ∀ part ∈ difference.parts, part.Surrounds ∨
        ∃ base, ∃ sign ∈ tokens, sign.kind = .divide ∧ sign.loc.stop ≤ base.loc.start ∧
          part = reciprocal base sign.loc := by
  intro symbol node quotient difference
  have hsize : "a - b/c".utf8ByteSize < 4294967296 := by decide
  have hread : read ⟨.standard, 128⟩ "a - b/c" = .ok (some difference) := by decide +kernel
  exact ⟨hsize, hread, surrounds_of_read hsize hread⟩

/-- The node for `1 / b` in `a/b` is not located around the exponent that it is given. -/
theorem exists_not_surrounds_quotient : ∃ e, read {} "a/b" = .ok (some e) ∧
    ∃ part ∈ e.parts, ¬ part.Surrounds := by
  let quotient : Expr := .node (.symbol "Times" ⟨0, 3⟩)
    [.symbol "a" ⟨0, 1⟩, reciprocal (.symbol "b" ⟨2, 3⟩) ⟨1, 2⟩] false ⟨0, 3⟩
  exact ⟨quotient, by decide +kernel, reciprocal (.symbol "b" ⟨2, 3⟩) ⟨1, 2⟩, by decide, by decide⟩

end Symbolic
