import Symbolic.Proofs.Likeness.Data
import Symbolic.Reader.Program

/-!
# Reading within a region

Rules make places out of the places of tokens: they unite two, and take the start of one. A set of
places that is closed under this is a region. If the tokens before a reader are in a region, so is
all that a step makes of them, and so are the tokens that it leaves.

The end of the input is in no region. It can be passed over like a token, so what a step makes of
it is not in the region. But a repetition that goes on in this way comes to nothing, so nothing is
asked of a turn that goes on without having passed over a token.

## Key results

- `Region`, `Region.Has`: values with all their locations in a region
- `Stays`, `StaysTurn`: steps and turns that make values of this kind
- `Stays.bind`, `Stays.attempt`, `Stays.iterate`: how they are put together
-/

namespace Symbolic

/-- A set of places that is closed under what rules do with places. -/
structure Region where
  holds : Location → Prop
  union : ∀ {a b : Location}, holds a → holds b → holds (a.union b)
  empty_start : ∀ {a : Location}, holds a → holds (.empty a.start)

namespace Region

/-- Relates places in the region, so that a value is like itself if all its locations are. -/
def rel (region : Region) (a _ : Location) : Prop :=
  region.holds a

/-- All locations in the value are in the region. -/
abbrev Has (region : Region) {α : Type} [Located α] (a : α) : Prop :=
  Located.Like region.rel a a

/-- A region holds the union of two of its places. -/
theorem rel_union (region : Region) {a a' b b' : Location} (h : region.rel a a')
    (h' : region.rel b b') : region.rel (a.union b) (a'.union b') :=
  region.union h h'

/-- The tokens before the reader are in the region. None of them is the end of the input. -/
def Ahead (region : Region) (s : Reader.State) : Prop :=
  ∀ t ∈ s.rest, t.kind ≠ .endOfInput ∧ region.holds t.loc

end Region

namespace Reader

open Parse

variable {region : Region} {s s' : State} {α β : Type} [Located α] [Located β]

/-- The current token is one of those ahead, unless it is the end of the input. -/
theorem current_mem_rest (h : s.current.kind ≠ .endOfInput) : s.current ∈ s.rest := by
  unfold State.current at h ⊢
  cases hrest : s.rest with
  | nil =>
    rw [hrest] at h
    exact absurd rfl h
  | cons t rest => exact List.mem_cons_self

/-- A reader stands before the end of the input only when nothing is left. -/
theorem rest_eq_nil_of_ahead (hs : region.Ahead s) (hkind : s.current.kind = .endOfInput) :
    s.rest = [] := by
  unfold State.current at hkind
  cases hrest : s.rest with
  | nil => rfl
  | cons t rest =>
    rw [hrest] at hkind
    exact absurd hkind (hs t (by simp [hrest])).1

/-- If the step succeeds before tokens in the region, its value and the tokens that it leaves are
    in the region. -/
structure Stays (region : Region) (s : State) (m : Parse α) : Prop where
  ok : region.Ahead s → ∀ {a : α} {s' : State}, m s = .ok a s' → region.Has a ∧ region.Ahead s'

/-- If the turn ends the repetition, or goes on and has passed over a token, its value and the
    tokens that it leaves are in the region. -/
structure StaysTurn (region : Region) (s : State) (m : Parse (Turn α β)) : Prop where
  done : region.Ahead s → ∀ {b : β} {s' : State}, m s = .ok (.done b) s' →
    region.Has b ∧ region.Ahead s'
  again : region.Ahead s → ∀ {a : α} {s' : State}, m s = .ok (.again a) s' →
    s'.rest.length < s.rest.length → region.Has a ∧ region.Ahead s'

/-- A step that stays in a region makes a turn that does. -/
theorem Stays.turn {m : Parse (Turn α β)} (h : Stays region s m) : StaysTurn region s m where
  done hs _ _ hm := by
    obtain ⟨hb | hb, hs'⟩ := h.ok hs hm
    exact ⟨‹_›, hs'⟩
  again hs _ _ hm _ := by
    obtain ⟨ha | ha, hs'⟩ := h.ok hs hm
    exact ⟨‹_›, hs'⟩

namespace Stays

variable {m : Parse α} {f : α → Parse β}

/-! ## Steps put together -/

/-- A value at hand. -/
theorem pure {a : α} (ha : region.Has a) : Stays region s (pure a) where
  ok hs _ _ hm := by
    cases hm
    exact ⟨ha, hs⟩

/-- A step goes on with a value of the region. -/
theorem bind (hm : Stays region s m) (hf : ∀ a s', region.Has a → Stays region s' (f a)) :
    Stays region s (m >>= f) where
  ok hs _ _ h := by
    obtain ⟨a, s₁, hfirst, hsecond⟩ := exists_of_bind_ok h
    obtain ⟨ha, hs₁⟩ := hm.ok hs hfirst
    exact (hf a s₁ ha).ok hs₁ hsecond

/-- A form that extends an expression is one more turn. -/
theorem again {m : Parse α} (hm : Stays region s m) :
    Stays region s (Turn.again <$> m : Parse (Turn α β)) where
  ok hs _ _ h := by
    obtain ⟨a, hfirst, rfl⟩ := exists_of_map_ok h
    obtain ⟨ha, hs'⟩ := hm.ok hs hfirst
    exact ⟨.again ha, hs'⟩

/-! ## Single steps -/

omit [Located α] in
/-- Looking at the next token moves nothing. -/
theorem bind_peek {f : Token → Parse β}
    (hf : (s.current.kind ≠ .endOfInput → region.holds s.current.loc) →
      Stays region s (f s.current)) : Stays region s (peek >>= f) where
  ok hs _ _ h := (hf fun hkind => (hs _ (current_mem_rest hkind)).2).ok hs h

/-- A step that fails. -/
theorem throw (e : SyntaxError) : Stays region s (throw e : Parse α) :=
  ⟨fun _ _ _ h => nomatch h⟩

omit [Located α] in
/-- What would come after an error does not matter. -/
theorem throw_bind {f : α → Parse β} (e : SyntaxError) :
    Stays region s (MonadExcept.throw e >>= f) :=
  ⟨fun _ _ _ h => nomatch h⟩

/-- A step that reports the next token. -/
theorem unexpected : Stays region s (unexpected : Parse α) :=
  ⟨fun _ _ _ h => nomatch h⟩

/-- A step that reports the next token in place of another. -/
theorem missing (kind : TokenKind) : Stays region s (missing kind : Parse α) :=
  ⟨fun _ _ _ h => nomatch h⟩

/-- The place of a token is one of the region. -/
theorem advance (hkind : s.current.kind ≠ .endOfInput) : Stays region s advance where
  ok hs _ _ h := by
    cases h
    exact ⟨(hs _ (current_mem_rest hkind)).2, fun t ht => hs t (List.mem_of_mem_tail ht)⟩

/-- So is the place of an opening bracket. -/
theorem openBracket (hkind : s.current.kind ≠ .endOfInput) : Stays region s openBracket where
  ok hs _ _ h := by
    cases h
    exact ⟨(hs _ (current_mem_rest hkind)).2, fun t ht => hs t (List.mem_of_mem_tail ht)⟩

/-- So is that of a token that is expected. -/
theorem expect {kind : TokenKind} (hkind : kind ≠ .endOfInput) :
    Stays region s (Parse.expect kind) := by
  refine .bind_peek fun _ => ?_
  split
  · rename_i hcurrent
    exact advance (hcurrent ▸ hkind)
  · exact .missing kind

/-- So is that of a closing bracket. -/
theorem closeBracket {closer : TokenKind} (hkind : closer ≠ .endOfInput) :
    Stays region s (Parse.closeBracket closer) := by
  refine (expect hkind).bind fun loc s₁ hloc => ⟨fun hs _ _ h => ?_⟩
  cases h
  exact ⟨hloc, hs⟩

/-- Whether the input ends here may be asked. -/
theorem bind_atFinalEnd {f : Bool → Parse β} (hf : ∀ isEnd, Stays region s (f isEnd)) :
    Stays region s (atFinalEnd >>= f) :=
  ⟨fun hs _ _ h => (hf _).ok hs h⟩

/-- A step goes on after a result that does not depend on the state. -/
theorem bind_ofResult {x : Except SyntaxError α} (hx : LikeResult region.rel x x)
    (hf : ∀ a, region.Has a → Stays region s (f a)) : Stays region s (ofResult x >>= f) where
  ok hs _ _ h := by
    cases hx with
    | ok ha => exact (hf _ ha).ok hs h
    | error => cases h

/-! ## Alternatives and repetition -/

/-- After a failed attempt the reader is back where it began. -/
theorem attempt (hm : Stays region s m) : Stays region s m.attempt where
  ok hs _ _ h := by
    unfold Parse.attempt at h
    split at h
    · rename_i hfirst
      cases h
      obtain ⟨ha, hs'⟩ := hm.ok hs hfirst
      exact ⟨.some ha, hs'⟩
    · split at h
      · cases h
        -- an attempt that failed gives the tokens back
        exact ⟨.none, hs⟩
      · cases h

/-- A step with a memory of failures. -/
theorem remember {p : Precedence} (hm : Stays region s m) : Stays region s (m.remember p) where
  ok hs _ _ h := by
    unfold Parse.remember at h
    split at h
    · cases h
    · split at h
      · rename_i hstep
        cases h
        exact hm.ok hs hstep
      · split at h <;> cases h

/-- Turns that stay in a region do so together. -/
theorem iterate {turn : α → Parse (Turn α β)}
    (hturn : ∀ a s, region.Has a → StaysTurn region s (turn a)) {a : α} (ha : region.Has a) :
    Stays region s (iterate turn a) := by
  refine ⟨fun hs {b s'} h => ?_⟩
  -- induction on what remains of the input, which every turn but the last makes shorter
  induction hn : s.rest.length using Nat.strongRecOn generalizing a s with
  | _ n ih =>
    subst hn
    rw [Parse.iterate] at h
    split at h
    · cases h
    · rename_i hdone
      cases h
      exact (hturn a s ha).done hs hdone
    · rename_i a' s₁ hagain
      split at h
      · rename_i hlt
        obtain ⟨ha', hs₁⟩ := (hturn a s ha).again hs hagain hlt
        exact ih _ hlt ha' hs₁ h rfl
      · cases h

end Stays

end Reader

end Symbolic
