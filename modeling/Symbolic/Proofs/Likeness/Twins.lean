import Symbolic.Proofs.Likeness.Reading

/-!
# Readers that remember alike

A reader knows the brackets around it by where they stand, and takes up a failure that it remembers
wherever the innermost of them is the same. Where no two tokens stand at one place, neither here
nor there, two readers over tokens of the same shape therefore take up failures on the same
occasions. They stay abreast with their memories, and so they even run out of the same room
together.

## Key results

- `SamePlace`, `biUnique_samePlace`: places that correspond one to one
- `keepsUp_expression`: with memory, and in the same room, two readers keep up with each other
- `like_readTokens_of_nodup`: outcomes are alike in any room
-/

namespace Symbolic.Reader

open Parse

variable {table : OperatorTable} {tokens tokens' : List Token} {stop stop' : Location}
  {r : Location → Location → Prop}

/-! ## Occasions that correspond -/

/-- Occasions that are the same but for the innermost bracket, which stands at corresponding
    places. -/
structure Occasion.Like (r : Location → Location → Prop) (o o' : Occasion) : Prop where
  remaining : o'.remaining = o.remaining
  precedence : o'.precedence = o.precedence
  depth : o'.depth = o.depth
  innermost : Option.Rel r o.innermost o'.innermost

theorem option_eq_iff_of_rel (hr : Relator.BiUnique r) {a a' b b' : Option Location}
    (ha : Option.Rel r a a') (hb : Option.Rel r b b') : a = b ↔ a' = b' := by
  cases ha with
  | none => cases hb <;> simp
  | some h =>
    cases hb with
    | none => simp
    | some h' => simpa using Relator.rel_eq hr h h'

/-- Where places correspond one to one, occasions do. -/
theorem Occasion.eq_iff_of_like (hr : Relator.BiUnique r) {o o' q q' : Occasion}
    (ho : o.Like r o') (hq : q.Like r q') : o = q ↔ o' = q' := by
  have hinnermost := option_eq_iff_of_rel hr ho.innermost hq.innermost
  obtain ⟨hremaining, hprecedence, hdepth, -⟩ := ho
  obtain ⟨hremaining', hprecedence', hdepth', -⟩ := hq
  cases o
  cases o'
  cases q
  cases q'
  simp_all

/-- Failures that are remembered of corresponding occasions, and the same but for locations. -/
def RememberedAlike (r : Location → Location → Prop)
    (failures failures' : List (Occasion × SyntaxError)) : Prop :=
  List.Forall₂ (fun f f' => f.1.Like r f'.1 ∧ f.2.Like (fun _ _ => True) f'.2) failures failures'

/-- Both readers remember a failure of an occasion, or none does. -/
theorem RememberedAlike.lookup (hr : Relator.BiUnique r)
    {failures failures' : List (Occasion × SyntaxError)} (h : RememberedAlike r failures failures')
    {o o' : Occasion} (ho : o.Like r o') :
    Option.Rel (SyntaxError.Like fun _ _ => True) (failures.lookup o) (failures'.lookup o') := by
  induction h with
  | nil => exact .none
  | @cons f f' _ _ hf _ ih =>
    have hsame : (o == f.1) = (o' == f'.1) := by
      rw [Bool.eq_iff_iff, beq_iff_eq, beq_iff_eq]
      exact Occasion.eq_iff_of_like hr ho hf.1
    rw [List.lookup_cons, List.lookup_cons, hsame]
    split
    · exact .some hf.2
    · exact ih

/-! ## Readers with corresponding memories -/

/-- Any two locations are the same, and tokens are if they have the same shape and stand at
    corresponding places. -/
def Likeness.placed (r : Location → Location → Prop) : Likeness where
  location _ _ := True
  token t t' := SameShape t t' ∧ r t.loc t'.loc
  union _ _ := trivial
  empty_start _ := trivial
  loc _ := trivial
  kind_eq h := h.1.kind_eq
  text_eq h := h.1.text_eq
  ampersand h := h.1.ampersand

/-- The two readers are at the same place within brackets at corresponding places, and remember
    corresponding failures. -/
def twinStage (r : Location → Location → Prop) (tokens : List Token) {stop stop' : Location}
    (hstop : r stop stop') : Stage where
  like := .placed r
  bracket := r
  tokens := tokens
  stop := stop
  stop' := stop'
  around := List.Forall₂ r
  known := RememberedAlike r
  stops := ⟨⟨rfl, fun h => (nomatch h), fun h => (nomatch h)⟩, hstop⟩
  head?_like h := by
    cases h with
    | nil => exact .none
    | cons => exact .some trivial
  opens h := h.2
  cons := .cons

variable {hstop : r stop stop'}

theorem Abreast.occasion_like {depth : Nat} {outer outer' : List Location} {s t : State}
    (h : Abreast (twinStage r tokens hstop) depth outer outer' s t)
    (haround : List.Forall₂ r outer outer') (p : Precedence) :
    (s.occasion p).Like r (t.occasion p) := by
  have hbrackets : List.Forall₂ r s.brackets t.brackets := h.around haround
  refine ⟨h.rest.length_eq.symm, rfl, hbrackets.length_eq.symm, ?_⟩
  show Option.Rel r s.brackets.head? t.brackets.head?
  revert hbrackets
  generalize s.brackets = brackets, t.brackets = brackets'
  intro hbrackets
  cases hbrackets with
  | nil => exact .none
  | cons hloc _ => exact .some hloc

/-- Both readers look into their memories, or both read and remember. -/
theorem keepsUp_remember_both (hr : Relator.BiUnique r) {p : Precedence} {step step' : Parse Expr}
    (h : KeepsUp (twinStage r tokens hstop) step fun _ => step') :
    KeepsUp (twinStage r tokens hstop) (remember p step) fun _ => remember p step' := by
  refine ⟨fun {outer outer' s t} haround habreast => ?_⟩
  have hoccasion := habreast.occasion_like haround p
  have hlookup := RememberedAlike.lookup hr habreast.known hoccasion
  unfold remember
  revert hlookup
  generalize s.failures.lookup (s.occasion p) = failure?,
    t.failures.lookup (t.occasion p) = failure?'
  rintro (he | _)
  · -- the failures that are remembered
    exact .fail habreast he
  have hstep := h.agrees haround habreast
  revert hstep
  generalize step s = result, step' t = result'
  rintro (⟨value, abreast, eventually⟩ |
    @⟨e, e', s', failures', _, error, hstop, brackets, known, eventually⟩ | hfinal)
  · rw [Filter.eventually_const.mp eventually]
    exact .ok value abreast (.of_forall fun _ => rfl)
  · -- like errors can both be recovered from, or neither can
    obtain ⟨t', rfl, hstop', hbrackets', rfl⟩ := Filter.eventually_const.mp eventually
    simp only [SyntaxError.isRecoverable_eq_of_like error]
    split
    · -- both failures are put on record
      have hrecord : RememberedAlike r ((s.occasion p, e) :: s'.failures)
          ((t.occasion p, e') :: t'.failures) :=
        .cons ⟨hoccasion, error⟩ known
      exact .error error hstop brackets hrecord
        (.of_forall fun _ => ⟨_, rfl, hstop', hbrackets', rfl⟩)
    · exact .error error hstop brackets known
        (.of_forall fun _ => ⟨_, rfl, hstop', hbrackets', rfl⟩)
  · simp only [hfinal, Bool.false_eq_true, if_false]
    exact .final hfinal

theorem keepsUp_expression (hr : Relator.BiUnique r) (room : Nat) (p : Precedence) :
    KeepsUp (twinStage r tokens hstop) (expression table room p)
      fun _ => expression table room p := by
  induction room generalizing p with
  | zero => exact ⟨fun _ _ => .final rfl⟩
  | succ room ih => exact keepsUp_remember_both hr (keepsUp_chain ih p)

/-! ## Whole inputs -/

/-- The two stand at the same place of their lists. -/
def SamePlace {α : Type} (as as' : List α) (a a' : α) : Prop :=
  ∃ i : Nat, as[i]? = some a ∧ as'[i]? = some a'

theorem biUnique_samePlace {α : Type} {as as' : List α} (h : as.Nodup) (h' : as'.Nodup) :
    Relator.BiUnique (SamePlace as as') := by
  have hunique : ∀ {as : List α} {i j : Nat} {a : α}, as.Nodup → as[i]? = some a →
      as[j]? = some a → i = j := fun h hi hj =>
    (List.getElem?_inj (List.getElem?_eq_some_iff.mp hi).1 h).mp (hi.trans hj.symm)
  constructor
  · rintro a b c ⟨i, hi, hi'⟩ ⟨j, hj, hj'⟩
    obtain rfl := hunique h' hi' hj'
    exact Option.some.inj (hi.symm.trans hj)
  · rintro a b c ⟨i, hi, hi'⟩ ⟨j, hj, hj'⟩
    obtain rfl := hunique h hi hj
    exact Option.some.inj (hi'.symm.trans hj')

theorem SamePlace.cons {α : Type} {as as' : List α} {a a' b b' : α} (h : SamePlace as as' b b') :
    SamePlace (a :: as) (a' :: as') b b' := by
  obtain ⟨i, hi, hi'⟩ := h
  exact ⟨i + 1, hi, hi'⟩

/-- Corresponding tokens stand at the same place. -/
theorem forall₂_samePlace (h : List.Forall₂ SameShape tokens tokens') :
    List.Forall₂ (fun t t' => SameShape t t' ∧
      SamePlace (tokens.map (·.loc)) (tokens'.map (·.loc)) t.loc t'.loc) tokens tokens' := by
  induction h with
  | nil => exact .nil
  | cons ht _ ih => exact .cons ⟨ht, 0, rfl, rfl⟩ (ih.imp fun _ _ h => ⟨h.1, h.2.cons⟩)

/-- Inputs whose tokens correspond end at corresponding places. -/
theorem rel_stop_ofTokens {R : Token → Token → Prop}
    (hkind : ∀ {t t' : Token}, R t t' → t'.kind = t.kind)
    (hloc : ∀ {t t' : Token}, R t t' → r t.loc t'.loc) (h : List.Forall₂ R tokens tokens')
    (hend : ∃ t ∈ tokens, t.kind = .endOfInput) :
    r (State.ofTokens tokens).stop (State.ofTokens tokens').stop := by
  have hfind : Option.Rel R (tokens.find? (·.kind == .endOfInput))
      (tokens'.find? (·.kind == .endOfInput)) := by
    clear hend
    induction h with
    | nil => exact .none
    | cons ht _ ih =>
      rw [List.find?_cons, List.find?_cons, hkind ht]
      split
      · exact .some ht
      · exact ih
  unfold State.ofTokens
  revert hfind
  generalize hfound : tokens.find? (·.kind == .endOfInput) = found?,
    tokens'.find? (·.kind == .endOfInput) = found?'
  rintro (ht | _)
  · exact hloc ht
  · -- an input without an end would end at its last token
    obtain ⟨t, ht, hkind⟩ := hend
    exact absurd (beq_iff_eq.mpr hkind) (List.find?_eq_none.mp hfound t ht)

/-- Where no two tokens stand at one place, outcomes are alike, unless the first reader runs out of
    room. -/
theorem like_readTokens_of_nodup {settings : Settings} (h : List.Forall₂ SameShape tokens tokens')
    (hend : ∃ t ∈ tokens, t.kind = .endOfInput) (hnodup : (tokens.map (·.loc)).Nodup)
    (hnodup' : (tokens'.map (·.loc)).Nodup)
    (hresult : ∀ e, readTokens settings tokens = .error e → e.isRecoverable = true) :
    LikeResult (fun _ _ => True) (readTokens settings tokens) (readTokens settings tokens') := by
  have hplaced := forall₂_samePlace h
  have hstop : SamePlace (tokens.map (·.loc)) (tokens'.map (·.loc)) (State.ofTokens tokens).stop
      (State.ofTokens tokens').stop :=
    rel_stop_ofTokens (fun h => h.1.kind_eq) And.right hplaced hend
  -- both start before tokens in corresponding places, with nothing open
  have habreast : Abreast (twinStage _ (State.ofTokens tokens).rest hstop) 0 [] []
      (.ofTokens tokens) (.ofTokens tokens') :=
    { rest := forall₂_takeWhile (fun h => h.1.kind_eq) hplaced
      suffix := List.suffix_refl _
      stop := rfl
      stop' := rfl
      opened := ⟨[], [], .nil, rfl, rfl, rfl⟩
      known := .nil }
  rw [readTokens_eq_outcome] at hresult ⊢
  rw [readTokens_eq_outcome]
  exact (keepsUp_program fun p => keepsUp_expression (biUnique_samePlace hnodup hnodup')
    settings.limit p).like_outcome .nil habreast hresult

theorem exists_loc_of_not_roomy {result : Except SyntaxError (Option Expr)}
    (h : ¬∀ e, result = .error e → e.isRecoverable = true) :
    ∃ loc, result = .error (.recursionLimitExceeded loc) := by
  by_contra hnone
  exact h (isRecoverable_of_roomy fun loc hloc => hnone ⟨loc, hloc⟩)

theorem SameShape.symm {t t' : Token} (h : SameShape t t') : SameShape t' t where
  kind_eq := h.kind_eq.symm
  text_eq hatom := (h.text_eq (h.kind_eq ▸ hatom)).symm
  ampersand hkind := (h.ampersand (h.kind_eq ▸ hkind)).symm

/-- Where no two tokens stand at one place, it does not matter where each of them stands: tokens of
    the same shape are read as trees that differ in nothing but locations, or fail with errors that
    do, in as much or as little room as there is. -/
theorem eraseOutcome_eq_of_nodup {settings : Settings} (h : List.Forall₂ SameShape tokens tokens')
    (hend : ∃ t ∈ tokens, t.kind = .endOfInput) (hend' : ∃ t ∈ tokens', t.kind = .endOfInput)
    (hnodup : (tokens.map (·.loc)).Nodup) (hnodup' : (tokens'.map (·.loc)).Nodup) :
    eraseOutcome (readTokens settings tokens) = eraseOutcome (readTokens settings tokens') := by
  by_cases hresult : ∀ e, readTokens settings tokens = .error e → e.isRecoverable = true
  · exact eraseOutcome_eq_of_like (like_readTokens_of_nodup h hend hnodup hnodup' hresult)
  have h' : List.Forall₂ SameShape tokens' tokens := h.flip.imp fun _ _ ht => ht.symm
  by_cases hresult' : ∀ e, readTokens settings tokens' = .error e → e.isRecoverable = true
  · exact (eraseOutcome_eq_of_like (like_readTokens_of_nodup h' hend' hnodup' hnodup hresult')).symm
  · -- both run out of room
    obtain ⟨loc, hloc⟩ := exists_loc_of_not_roomy hresult
    obtain ⟨loc', hloc'⟩ := exists_loc_of_not_roomy hresult'
    rw [hloc, hloc']
    rfl

end Symbolic.Reader
