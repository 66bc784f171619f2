import Symbolic.Proofs.Lockstep.Expression
import Symbolic.Proofs.Nesting.Reading
import Symbolic.Proofs.Reader.Standard

/-!
# Elements are read as whole inputs are

An element of a sequence is read as its tokens are by themselves, although it ends at a comma or at
a closing bracket and they at the end of the input, and although expressions side by side are
gathered by another loop.

## Key results

- `eventually_element`: what is accepted by itself is accepted as an element
- `Listed.exists_sequence`: elements between commas, some of them left out
- `exists_readTokens_enclosed`: lists, associations, calls and parts
-/

namespace Symbolic.Reader

open Parse Filter

variable {course : Course} {s s' t : State} {room limit : Nat} {tokens inside rest : List Token}
  {next closing : Token} {closer : TokenKind} {e x : Expr} {exprs items xs : List Expr}
  {e? : Option Expr}

/-! ## The course of an element -/

/-- Accepted tokens have as many closing brackets as opening ones. -/
theorem excess_of_readTokens (endFree : ∀ t ∈ tokens, t.kind ≠ .endOfInput)
    (h : readTokens ⟨.standard, limit⟩ tokens = .ok e?) : excess tokens = 0 := by
  have hnested := nested_of_readTokens h
  rw [List.takeWhile_eq_self_iff.mpr (by simpa using endFree)] at hnested
  exact hnested.excess_eq_zero

/-- The first reader reads the tokens by themselves, the second one as an element before the next
    token. -/
def Course.element (tokens : List Token) (next : Token) (rest : List Token) (s : State)
    (endFree : ∀ t ∈ tokens, t.kind ≠ .endOfInput) (ends : next.kind ∈ elementEnds) : Course where
  tokens := tokens
  after := next :: rest
  stop := (State.ofTokens tokens).stop
  stop' := s.stop
  around := s.brackets
  ending := .stopped
  endFree := endFree
  closed h := nomatch h
  stopped _ := ⟨next, rfl, ends⟩

/-- A reader of the tokens alone and one before them in a sequence start in step. -/
theorem sync_element (endFree : ∀ t ∈ tokens, t.kind ≠ .endOfInput)
    (ends : next.kind ∈ elementEnds) (h : readTokens ⟨.standard, limit⟩ tokens = .ok e?)
    (hforgetful : s.failures = []) :
    Sync (.element tokens next rest s endFree ends) .empty .zero (.ofTokens tokens)
      (s.before (tokens ++ next :: rest)) where
  suffix := (congrArg (· <:+ tokens) (rest_ofTokens endFree)).mpr (List.suffix_refl _)
  rest := congrArg (· ++ next :: rest) (rest_ofTokens endFree).symm
  stop' := rfl
  brackets' := rfl
  forgetful := hforgetful
  stop := rfl
  outer := List.suffix_refl _
  known := known_nil
  length := rfl
  -- an element that is accepted opens and closes equally many brackets
  balanced _ := by
    rw [rest_ofTokens endFree, excess_of_readTokens endFree h]
    rfl
  live h := nomatch h

/-- An element ends at a comma and at the closing bracket. -/
theorem mem_elementEnds (hcloser : closer ∈ sequenceClosers)
    (hnext : next.kind = .comma ∨ next.kind = closer) : next.kind ∈ elementEnds := by
  rcases hnext with hkind | hkind
  · rw [hkind]
    decide
  · rw [hkind]
    revert hcloser
    cases closer <;> decide

/-! ## Expressions side by side -/

/-- Where the second reader ends. -/
def Course.finish (course : Course) : State :=
  ⟨course.after, course.stop', course.around, []⟩

/-- When the first reader has no tokens left, the second stands at the end of the element. -/
theorem Sync.eq_finish (h : Sync course .empty .zero s t) (hnil : s.rest = []) :
    t = course.finish := by
  have hrest : t.rest = course.after := by rw [h.rest, hnil, List.nil_append]
  have hbrackets : t.brackets = course.around := by
    rw [h.brackets', h.brackets_eq]
    rfl
  rw [Course.finish, ← hrest, ← h.stop', ← hbrackets, ← h.forgetful]

/-- Before the end of the input comes another expression. -/
theorem exists_again_of_program (hne : s.current.kind ≠ .endOfInput)
    (hs : iterate (programTurn (expression .standard room)) exprs s = .ok e? s') :
    ∃ v s₁, expression .standard room 0 s = .ok v s₁ ∧
      iterate (programTurn (expression .standard room)) (exprs ++ [v]) s₁ = .ok e? s' ∧
      s₁.rest.length < s.rest.length := by
  -- there is a token left, so one more expression is read
  have hturn : programTurn (expression .standard room) exprs s =
      (expression .standard room 0 >>= fun e => pure (.again (exprs ++ [e]))) s := by
    unfold programTurn
    rw [peek_bind, if_neg hne]
  rw [iterate, hturn] at hs
  split at hs
  · cases hs
  · rename_i hdone
    obtain ⟨v, s₁, -, hdone⟩ := exists_of_bind_ok hdone
    cases hdone
  · rename_i hagain
    obtain ⟨v, s₁, hv, hagain⟩ := exists_of_bind_ok hagain
    cases hagain
    split at hs
    · rename_i hlt
      exact ⟨v, _, hv, hs, hlt⟩
    · cases hs

/-- Both readers read the next expression, if the first one goes on to accept. -/
theorem exists_expression_of_program (hending : course.ending = .stopped)
    (h : Sync course .empty .zero s t) (hne : s.rest ≠ [])
    (hs : iterate (programTurn (expression .standard room)) exprs s = .ok e? s') :
    ∃ v s₁ t₁, expression .standard room 0 s = .ok v s₁ ∧
      iterate (programTurn (expression .standard room)) (exprs ++ [v]) s₁ = .ok e? s' ∧
      Sync course .empty .zero s₁ t₁ ∧ s₁.rest.length < s.rest.length ∧
      t.current.kind.endsOperand = false ∧
      ∀ᶠ room' in atTop, Forgetful.expression .standard room' 0 t = .ok v t₁ := by
  obtain ⟨v, s₁, hv, hs, hlt⟩ :=
    exists_again_of_program (fun hend => hne (eq_nil_of_current h.suffix hend)) hs
  have hstart : t.current.kind.endsOperand = false := by
    rw [h.toSited.current_eq hne]
    exact not_endsOperand_of_expression hv
  have houtcome := (companions course room).outcome 0 h
  rw [hv] at houtcome
  -- what follows an element is known, so the first reader cannot get ahead of the second
  cases houtcome with
  | ok sync ht => exact ⟨v, _, _, hv, hs, sync, hlt, hstart, ht⟩
  | dead hloose => cases hending.symm.trans hloose
  | ended hended => cases hending.symm.trans hended.loose
  | failedOk hloose => cases hending.symm.trans hloose

/-- The two loops over expressions side by side come to the same. -/
theorem eventually_elementTurns (hending : course.ending = .stopped)
    (hcloser : closer ∈ sequenceClosers)
    (hnext : course.finish.current.kind = .comma ∨ course.finish.current.kind = closer)
    (h : Sync course .empty .zero s t)
    (hs : iterate (programTurn (expression .standard room)) exprs s = .ok (some e) s') :
    ∀ᶠ room' in atTop, iterate (elementTurn (Forgetful.expression .standard room') closer) exprs t =
      .ok [e] course.finish := by
  -- induction on what remains of the element, which every expression but the last makes shorter
  induction hn : s.rest.length using Nat.strongRecOn generalizing exprs s t with
  | _ n ih =>
    subst hn
    by_cases hnil : s.rest = []
    · -- the end of the input for the one reader is the end of the element for the other
      have hdone : programTurn (expression .standard room) exprs s =
          .ok (.done (Expr.juxtaposed? exprs)) s := by
        unfold programTurn
        rw [peek_bind, if_pos (current_of_nil hnil)]
        rfl
      rw [iterate_done hdone] at hs
      have hproduct : Expr.juxtaposed? exprs = some e := (EStateM.Result.ok.inj hs).1
      rw [h.eq_finish hnil]
      refine .of_forall fun room' => iterate_done ?_
      unfold elementTurn
      rw [peek_bind, if_pos hnext, hproduct]
      rfl
    · obtain ⟨v, s₁, t₁, -, hs, hsync, hlt, hstart, ht⟩ :=
        exists_expression_of_program hending h hnil hs
      have hlt' : t₁.rest.length < t.rest.length := by
        rw [hsync.rest, h.rest, List.length_append, List.length_append]
        omega
      filter_upwards [ht, ih _ hlt hsync hs rfl] with room' ht hrest
      rw [iterate_again (elementTurn_again hcloser hstart ht) hlt', hrest]

/-- What is accepted by itself is accepted as an element, before a comma or the closing bracket. -/
theorem eventually_element (endFree : ∀ t ∈ tokens, t.kind ≠ .endOfInput)
    (h : readTokens ⟨.standard, limit⟩ tokens = .ok (some e)) (hforgetful : s.failures = [])
    (hcloser : closer ∈ sequenceClosers) (hnext : next.kind = .comma ∨ next.kind = closer) :
    (s.before (tokens ++ next :: rest)).current.kind.endsOperand = false ∧
      ∀ᶠ room in atTop, element (Forgetful.expression .standard room) closer
        (s.before (tokens ++ next :: rest)) = .ok [e] (s.before (next :: rest)) := by
  have ends := mem_elementEnds hcloser hnext
  -- without tokens nothing is accepted
  have hne : (State.ofTokens tokens).rest ≠ [] := by
    rw [rest_ofTokens endFree]
    rintro rfl
    rw [readTokens_nil] at h
    cases h
  have hfinish : (Course.element tokens next rest s endFree ends).finish =
      s.before (next :: rest) := by
    rw [Course.finish, State.before, hforgetful]
    rfl
  obtain ⟨s', t', hs, -, -⟩ := exists_sync_of_readTokens h
  obtain ⟨v, s₁, t₁, -, hs, hsync, -, hstart, ht⟩ :=
    exists_expression_of_program rfl (sync_element endFree ends h hforgetful) hne hs
  refine ⟨hstart, ?_⟩
  filter_upwards [ht, eventually_elementTurns rfl hcloser (by rwa [hfinish]) hsync hs]
    with room ht hturns
  unfold element
  rw [bind_ok _ ht, ← hfinish]
  exact hturns

/-! ## Sequences -/

/-- What an element stands for, up to locations: for what its tokens are read as by themselves. -/
inductive IsElement : List Token → Expr → Prop where
  | omitted : IsElement [] (.symbol "Null" .zero)
  | accepted {tokens : List Token} {limit : Nat} {e : Expr}
      (endFree : ∀ t ∈ tokens, t.kind ≠ .endOfInput)
      (h : readTokens ⟨.standard, limit⟩ tokens = .ok (some e)) : IsElement tokens e.eraseLocations

/-- Elements with commas between them. -/
inductive Listed : List Expr → List Token → Prop where
  | last {x : Expr} {tokens : List Token} (element : IsElement tokens x) : Listed [x] tokens
  | cons {x : Expr} {xs : List Expr} {comma : Token} {tokens rest : List Token}
      (element : IsElement tokens x) (kind : comma.kind = .comma) (after : Listed xs rest) :
      Listed (x :: xs) (tokens ++ comma :: rest)

/-- The elements that there are between brackets: where there is nothing, there are none. -/
def elementsOf (inside : List Token) (xs : List Expr) : List Expr :=
  if inside.isEmpty then [] else xs

/-- An element before a comma is read as its tokens are alone. -/
theorem IsElement.exists_comma (h : IsElement tokens x) (hcloser : closer ∈ sequenceClosers)
    (hcomma : next.kind = .comma) (hforgetful : s.failures = []) (items : List Expr)
    (rest : List Token) :
    ∃ e : Expr, e.eraseLocations = x ∧ ∀ᶠ room in atTop,
      sequenceTurn (Forgetful.expression .standard room) closer items
        (s.before (tokens ++ next :: rest)) = .ok (.again (items ++ [e])) (s.before rest) := by
  cases h with
  | omitted =>
    exact ⟨.symbol "Null" next.loc, rfl, .of_forall fun room => sequenceTurn_omitted hcomma⟩
  | accepted endFree h =>
    obtain ⟨hstart, helement⟩ := eventually_element endFree h hforgetful hcloser (.inl hcomma)
    refine ⟨_, rfl, ?_⟩
    filter_upwards [helement] with room helement
    exact sequenceTurn_comma hcloser hstart helement hcomma

/-- So is the last element, which may be missing. -/
theorem IsElement.exists_last (h : IsElement tokens x) (hcloser : closer ∈ sequenceClosers)
    (hclosing : closing.kind = closer) (hforgetful : s.failures = []) (items : List Expr)
    (rest : List Token) :
    ∃ es : List Expr,
      es.map Expr.eraseLocations = (if items.isEmpty && tokens.isEmpty then [] else [x]) ∧
      ∀ᶠ room in atTop, sequenceTurn (Forgetful.expression .standard room) closer items
        (s.before (tokens ++ closing :: rest)) =
          .ok (.done (items ++ es)) (s.before (closing :: rest)) := by
  cases h with
  | omitted =>
    -- after a comma there is an element, even before the closing bracket
    refine ⟨if items.isEmpty then [] else [.symbol "Null" closing.loc], ?_,
      .of_forall fun room => (sequenceTurn_done hclosing hcloser).trans ?_⟩
    · cases items <;> rfl
    · cases items <;> rfl
  | @accepted _ _ e endFree h =>
    obtain ⟨hstart, helement⟩ := eventually_element endFree h hforgetful hcloser (.inr hclosing)
    have hne : tokens.isEmpty = false := by
      cases tokens with
      | nil => cases (readTokens_nil _).symm.trans h
      | cons t rest => rfl
    refine ⟨[e], by simp [hne], ?_⟩
    filter_upwards [helement] with room helement
    exact sequenceTurn_last hcloser hstart helement hclosing

/-- Elements after those that have been read already. -/
theorem Listed.exists_iterate (h : Listed xs inside) (hcloser : closer ∈ sequenceClosers)
    (hclosing : closing.kind = closer) (hforgetful : s.failures = []) (items : List Expr)
    (rest : List Token) :
    ∃ es : List Expr,
      es.map Expr.eraseLocations = (if items.isEmpty && inside.isEmpty then [] else xs) ∧
      ∀ᶠ room in atTop, iterate (sequenceTurn (Forgetful.expression .standard room) closer) items
        (s.before (inside ++ closing :: rest)) =
          .ok (items ++ es) (s.before (closing :: rest)) := by
  induction h generalizing items with
  | last element =>
    obtain ⟨es, hes, hturn⟩ := element.exists_last hcloser hclosing hforgetful items rest
    exact ⟨es, hes, hturn.mono fun room hturn => iterate_done hturn⟩
  | @cons x xs comma tokens inside element kind after ih =>
    obtain ⟨e, he, hturn⟩ := element.exists_comma hcloser kind hforgetful items
      (inside ++ closing :: rest)
    obtain ⟨es, hes, hrest⟩ := ih (items ++ [e])
    refine ⟨e :: es, ?_, ?_⟩
    · -- once there is an element, no other can be missing
      have hes : es.map Expr.eraseLocations = xs := by simpa using hes
      simp [he, hes]
    · filter_upwards [hturn, hrest] with room hturn hrest
      have hlt : (inside ++ closing :: rest).length <
          (tokens ++ comma :: (inside ++ closing :: rest)).length := by
        simp only [List.length_append, List.length_cons]
        omega
      rw [List.append_assoc, List.cons_append, iterate_again hturn hlt, hrest, List.append_assoc]
      rfl

/-- A sequence is read as its elements are by themselves. -/
theorem Listed.exists_sequence (h : Listed xs inside) (hcloser : closer ∈ sequenceClosers)
    (hclosing : closing.kind = closer) (hforgetful : s.failures = []) (rest : List Token) :
    ∃ es : List Expr, es.map Expr.eraseLocations = elementsOf inside xs ∧
      ∀ᶠ room in atTop, sequence (Forgetful.expression .standard room) closer
        (s.before (inside ++ closing :: rest)) = .ok es (s.before (closing :: rest)) :=
  h.exists_iterate hcloser hclosing hforgetful [] rest

/-- Elements between commas hold no end of the input. -/
theorem Listed.endFree (h : Listed xs inside) : ∀ t ∈ inside, t.kind ≠ .endOfInput := by
  have helement : ∀ {tokens x}, IsElement tokens x → ∀ t ∈ tokens, t.kind ≠ .endOfInput := by
    intro tokens x h
    cases h with
    | omitted => exact List.forall_mem_nil _
    | accepted endFree _ => exact endFree
  induction h with
  | last element => exact helement element
  | cons element kind after ih =>
    rw [List.forall_mem_append, List.forall_mem_cons]
    exact ⟨helement element, by simp [kind], ih⟩

/-! ## Lists, associations, calls and parts -/

/-- What holds a sequence, with the tree for its elements, up to locations. The head of a call and
    what a part is taken of are atoms. -/
inductive Enclosed (inside : List Token) (args : List Expr) : List Token → Expr → Prop where
  | list {opening closing : Token} (kind : opening.kind = .leftBrace)
      (kind' : closing.kind = .rightBrace) :
      Enclosed inside args (opening :: (inside ++ [closing]))
        (.node (.symbol "List" .zero) args false .zero)
  | association {opening closing : Token} (kind : opening.kind = .leftAssociation)
      (kind' : closing.kind = .rightAssociation) :
      Enclosed inside args (opening :: (inside ++ [closing]))
        (.node (.symbol "Association" .zero) args false .zero)
  | call {t opening closing : Token} {f : Expr} (isAtom : t.kind.isAtom = true)
      (atom : Expr.atom .standard t = .ok f) (kind : opening.kind = .leftBracket)
      (kind' : closing.kind = .rightBracket) :
      Enclosed inside args (t :: opening :: (inside ++ [closing]))
        (.node f.eraseLocations args true .zero)
  | part {t opening inner closing closing' : Token} {a : Expr} (isAtom : t.kind.isAtom = true)
      (atom : Expr.atom .standard t = .ok a) (kind : opening.kind = .leftBracket)
      (innerKind : inner.kind = .leftBracket) (kind' : closing.kind = .rightBracket)
      (kind'' : closing'.kind = .rightBracket) :
      Enclosed inside args (t :: opening :: inner :: (inside ++ [closing, closing']))
        (.node (.symbol "Part" .zero) (a.eraseLocations :: args) false .zero)

/-- The node of a head that is not flat has the arguments as its children. -/
theorem eraseLocations_make {head : String} (hflat : OperatorTable.standard.isFlat head = false)
    (args : List Expr) (loc : Location) :
    (Expr.make .standard head args loc).eraseLocations =
      .node (.symbol head .zero) (args.map Expr.eraseLocations) false .zero := by
  simp only [Expr.make, Expr.arguments, hflat, Bool.false_eq_true, if_false, Expr.eraseLocations,
    Expr.eraseAllLocations_eq_map]

/-- An atom leads an expression. -/
theorem leading_standard_atom {expr : Precedence → Parse Expr} {t : Token}
    (isAtom : t.kind.isAtom = true) (atom : Expr.atom .standard t = .ok e) :
    leading .standard expr (s.before (t :: tokens)) = .ok e (s.before tokens) := by
  refine leading_atom ?_ isAtom atom
  revert isAtom
  cases t.kind <;> decide

/-- An atom is not the end of the input. -/
theorem ne_endOfInput_of_isAtom {kind : TokenKind} (isAtom : kind.isAtom = true) :
    kind ≠ .endOfInput := by
  rintro rfl
  cases isAtom

/-- A sequence does not start with a bracket that would make a part of a call. -/
theorem ne_leftBracket_of_sequence (hcloser : closer ∈ sequenceClosers)
    (h : sequence (Forgetful.expression .standard room) closer s = .ok xs s') :
    s.current.kind ≠ .leftBracket := by
  intro hkind
  -- no expression starts with an opening bracket of a call
  obtain ⟨error, herror⟩ : ∃ error, Forgetful.expression .standard room 0 s = .error error s := by
    cases room with
    | zero => exact ⟨_, rfl⟩
    | succ room =>
      refine ⟨s.unexpected, bind_error ?_⟩
      unfold leading
      rw [peek_bind, hkind]
      rfl
  have hstart : s.current.kind.endsOperand = false := by simp [hkind, TokenKind.endsOperand]
  rw [sequence_error hcloser hstart herror] at h
  cases h

/-- Elements in brackets hold no end of the input. -/
theorem Enclosed.endFree {args : List Expr} {tree : Expr} (h : Enclosed inside args tokens tree)
    (hinside : ∀ t ∈ inside, t.kind ≠ .endOfInput) : ∀ t ∈ tokens, t.kind ≠ .endOfInput := by
  cases h with
  | list kind kind' => simpa [or_imp, forall_and, kind, kind'] using hinside
  | association kind kind' => simpa [or_imp, forall_and, kind, kind'] using hinside
  | call isAtom atom kind kind' =>
    simpa [or_imp, forall_and, ne_endOfInput_of_isAtom isAtom, kind, kind'] using hinside
  | part isAtom atom kind innerKind kind' kind'' =>
    simpa [or_imp, forall_and, ne_endOfInput_of_isAtom isAtom, kind, innerKind, kind', kind'']
      using hinside

/-- What holds a sequence starts an expression, with what the sequence is read as. -/
theorem Enclosed.exists_chain {tree : Expr} (h : Enclosed inside (elementsOf inside xs) tokens tree)
    (hlisted : Listed xs inside) (hforgetful : s.failures = []) :
    ∃ e : Expr, e.eraseLocations = tree ∧ ∀ᶠ room in atTop,
      chain .standard (Forgetful.expression .standard room) 0 (s.before tokens) =
        iterate (trailing .standard (Forgetful.expression .standard room) 0) e (s.before []) := by
  cases h with
  | @list opening closing kind kind' =>
    obtain ⟨es, hes, hread⟩ := hlisted.exists_sequence (s := s.within opening.loc)
      (by decide) kind' hforgetful []
    refine ⟨.make .standard "List" es (opening.loc.union closing.loc), ?_, ?_⟩
    · -- the node of a list has the elements as they are
      rw [eraseLocations_make (by decide), hes]
    · filter_upwards [hread] with room hread
      exact chain_of_leading (leading_list kind hread kind')
  | @association opening closing kind kind' =>
    obtain ⟨es, hes, hread⟩ := hlisted.exists_sequence (s := s.within opening.loc)
      (by decide) kind' hforgetful []
    refine ⟨.make .standard "Association" es (opening.loc.union closing.loc), ?_, ?_⟩
    · rw [eraseLocations_make (by decide), hes]
    · filter_upwards [hread] with room hread
      exact chain_of_leading (leading_association kind hread kind')
  | @call t opening closing f isAtom atom kind kind' =>
    obtain ⟨es, hes, hread⟩ := hlisted.exists_sequence (s := s.within opening.loc)
      (by decide) kind' hforgetful []
    refine ⟨(Expr.apply f es (f.loc.union closing.loc)).parenthesize, ?_, ?_⟩
    · simp only [Expr.apply, Expr.parenthesize, Expr.eraseLocations,
        Expr.eraseAllLocations_eq_map, hes]
    · filter_upwards [hread] with room hread
      rw [chain_of_leading (leading_standard_atom isAtom atom)]
      -- no part, as the elements do not start with a bracket
      refine iterate_again (trailing_call kind (ne_leftBracket_of_sequence (by decide) hread) hread
        kind' (by decide)) ?_
      simp only [State.rest_before, List.length_cons, List.length_nil]
      omega
  | @part t opening inner closing closing' a isAtom atom kind innerKind kind' kind'' =>
    obtain ⟨es, hes, hread⟩ := hlisted.exists_sequence (s := s.within opening.loc)
      (by decide) kind' hforgetful [closing']
    refine ⟨.make .standard "Part" (a :: es) (a.loc.union closing'.loc), ?_, ?_⟩
    · rw [eraseLocations_make (by decide), List.map_cons, hes]
    · filter_upwards [hread] with room hread
      rw [chain_of_leading (leading_standard_atom isAtom atom)]
      refine iterate_again (trailing_part kind innerKind hread kind' kind'' (by decide)) ?_
      simp only [State.rest_before, List.length_cons, List.length_nil]
      omega

/-- What holds a sequence is read as an input of its own. -/
theorem Enclosed.exists_readTokens {tree : Expr} {ending : List Token}
    (h : Enclosed inside (elementsOf inside xs) tokens tree) (hlisted : Listed xs inside)
    (hending : ∀ t ∈ ending.head?, t.kind = .endOfInput) :
    ∃ e : Expr, e.eraseLocations = tree ∧
      ∀ᶠ limit in atTop, readTokens ⟨.standard, limit⟩ (tokens ++ ending) = .ok (some e) := by
  have hne : tokens ≠ [] := by
    rintro rfl
    cases h
  obtain ⟨e, he, hchain⟩ := h.exists_chain hlisted (s := .ofTokens (tokens ++ ending)) rfl
  exact ⟨e, he, eventually_readTokens (h.endFree hlisted.endFree) hne hending
    (eventually_expression_of_chain hchain (stops_endOfInput 0))⟩

/-- With enough room for nesting, elements between commas are read as each of them is by itself, one
    that is left out as `Null`, in a list, an association, a call and a part. -/
theorem exists_readTokens_enclosed {tree : Expr} (hlisted : Listed xs inside)
    (henclosed : Enclosed inside (elementsOf inside xs) tokens tree) :
    ∃ e : Expr, e.eraseLocations = tree ∧
      ∀ᶠ limit in atTop, readTokens ⟨.standard, limit⟩ tokens = .ok (some e) := by
  have hending : ∀ t ∈ ([] : List Token).head?, t.kind = .endOfInput := fun _ h => nomatch h
  have hne : tokens ≠ [] := by
    rintro rfl
    cases henclosed
  obtain ⟨e, he, hread⟩ :=
    henclosed.exists_chain hlisted (s := .ofTokens (tokens ++ [])) rfl
  have hread := eventually_expression_of_chain hread (stops_endOfInput 0)
  refine ⟨e, he, ?_⟩
  filter_upwards [eventually_readTokens (henclosed.endFree hlisted.endFree) hne hending hread]
    with limit hlimit
  rwa [List.append_nil] at hlimit

/-- The tokens of `a;,,;;`: a statement, an element that is left out, and a span. -/
def mixedElements : List Token :=
  [⟨.symbol, "a", .ofOffsets 2 3⟩, ⟨.semicolon, ";", .ofOffsets 3 4⟩] ++
    ⟨.comma, ",", .ofOffsets 4 5⟩ :: ([] ++
      ⟨.comma, ",", .ofOffsets 5 6⟩ :: [⟨.span, ";;", .ofOffsets 6 8⟩])

/-- What the elements of `a;,,;;` stand for, up to locations. -/
def mixedTrees : List Expr :=
  [.node (.symbol "CompoundExpression" .zero) [.symbol "a" .zero, .symbol "Null" .zero] false .zero,
    .symbol "Null" .zero,
    .node (.symbol "Span" .zero) [.integer 1 .zero, .symbol "All" .zero] false .zero]

/-- The tokens of `f[a;,,;;]`. -/
def mixedCall : List Token :=
  ⟨.symbol, "f", .ofOffsets 0 1⟩ :: ⟨.leftBracket, "[", .ofOffsets 1 2⟩ ::
    (mixedElements ++ [⟨.rightBracket, "]", .ofOffsets 8 9⟩])

theorem exists_readTokens_mixedCall :
    Listed mixedTrees mixedElements ∧
      Enclosed mixedElements (elementsOf mixedElements mixedTrees) mixedCall
        (.node (.symbol "f" .zero) mixedTrees true .zero) ∧
      ∃ e : Expr, e.eraseLocations = .node (.symbol "f" .zero) mixedTrees true .zero ∧
        ∀ᶠ limit in atTop, readTokens ⟨.standard, limit⟩ mixedCall = .ok (some e) := by
  have hstatement : readTokens ⟨.standard, 128⟩
      [⟨.symbol, "a", .ofOffsets 2 3⟩, ⟨.semicolon, ";", .ofOffsets 3 4⟩] =
      .ok (some (.node (.symbol "CompoundExpression" (.ofOffsets 2 4))
        [.symbol "a" (.ofOffsets 2 3), .symbol "Null" (.ofOffsets 3 4)] false
        (.ofOffsets 2 4))) := by
    decide +kernel
  have hspan : readTokens ⟨.standard, 128⟩ [⟨.span, ";;", .ofOffsets 6 8⟩] =
      .ok (some (.node (.symbol "Span" (.ofOffsets 6 8))
        [.integer 1 (.ofOffsets 6 6), .symbol "All" (.ofOffsets 6 8)] false (.ofOffsets 6 8))) := by
    decide +kernel
  -- a statement, an element that is left out, and a span
  have hlisted : Listed mixedTrees mixedElements :=
    .cons (.accepted (by decide) hstatement) rfl
      (.cons .omitted rfl (.last (.accepted (by decide) hspan)))
  have henclosed : Enclosed mixedElements (elementsOf mixedElements mixedTrees) mixedCall
      (.node (.symbol "f" .zero) mixedTrees true .zero) := by
    have hatom : Expr.atom .standard ⟨.symbol, "f", .ofOffsets 0 1⟩ =
        .ok (.symbol "f" (.ofOffsets 0 1)) := rfl
    exact .call rfl hatom rfl rfl
  exact ⟨hlisted, henclosed, exists_readTokens_enclosed hlisted henclosed⟩

end Symbolic.Reader
