import Symbolic.Proofs.Reader.Forgetful

/-!
# One reading step following another

A step follows another if, started at the same place, it ends with the same value or error at
the same place. The two may start with different brackets around them, as long as the
innermost of these is the same: no step looks further out. What the first step does once it has
run out of room does not count.

## Key results

- `Scene`, `Alike`: what two readers have in common
- `Follows`: a step that ends as another asks for
- `Follows.ok_of_ok`, `Follows.error_of_error`: the two outcomes agree
-/

namespace Symbolic.Reader

open Parse

/-- What two readers have in common: the tokens and the end of their input, the brackets around
    them as far as these have to agree, and what has to hold of the failures that they remember. -/
structure Scene where
  tokens : List Token
  stop : Location
  around : List Location → List Location → Prop
  known : List (Occasion × SyntaxError) → List (Occasion × SyntaxError) → Prop
  head?_eq : ∀ {outer outer' : List Location}, around outer outer' → outer.head? = outer'.head?
  cons : ∀ {outer outer' : List Location} (loc : Location), around outer outer' →
    around (loc :: outer) (loc :: outer')

namespace Scene

/-- The two readers agree in the innermost bracket around them, and something is known of what the
    second one remembers. -/
def innermost (tokens : List Token) (stop : Location)
    (known : List (Occasion × SyntaxError) → Prop) : Scene where
  tokens := tokens
  stop := stop
  around outer outer' := outer.head? = outer'.head?
  known _ failures := known failures
  head?_eq := id
  cons _ _ := rfl

end Scene

variable {scene : Scene} {α β : Type}

/-! ## States and outcomes -/

/-- Two states at the same place of the input. Within brackets that may differ, `outer` and
    `outer'`, both have the open brackets `inner`. -/
structure Alike (scene : Scene) (inner outer outer' : List Location) (s t : State) : Prop where
  rest : t.rest = s.rest
  suffix : s.rest <:+ scene.tokens
  stop : s.stop = scene.stop
  stop' : t.stop = scene.stop
  brackets : s.brackets = inner ++ outer
  brackets' : t.brackets = inner ++ outer'
  known : scene.known s.failures t.failures

/-- The second outcome is the one that the first asks for. After a success `depth` brackets are
    open within those around; after an error any number are. -/
inductive Meets (scene : Scene) (outer outer' : List Location) (depth : Nat) :
    EStateM.Result SyntaxError State α → EStateM.Result SyntaxError State α → Prop where
  | ok {a s t} {inner : List Location} (alike : Alike scene inner outer outer' s t)
      (length : inner.length = depth) : Meets scene outer outer' depth (.ok a s) (.ok a t)
  | error {e s t} {inner inner' : List Location} (stop : s.stop = scene.stop)
      (stop' : t.stop = scene.stop) (brackets : s.brackets = inner ++ outer)
      (brackets' : t.brackets = inner' ++ outer')
      (known : scene.known s.failures t.failures) :
      Meets scene outer outer' depth (.error e s) (.error e t)
  | final {e s r} (h : e.isRecoverable = false) : Meets scene outer outer' depth (.error e s) r

/-- `m'` follows `m` from wherever `before` brackets are open within those around, and a success
    leaves `after` of them open. -/
structure Follows (scene : Scene) (before after : Nat) (m m' : Parse α) : Prop where
  meets : ∀ {inner outer outer' : List Location} {s t : State}, inner.length = before →
    scene.around outer outer' → Alike scene inner outer outer' s t →
    Meets scene outer outer' after (m s) (m' t)

namespace Alike

variable {inner outer outer' : List Location} {s t : State}

theorem current_eq (h : Alike scene inner outer outer' s t) : t.current = s.current := by
  simp only [State.current, h.rest, h.stop, h.stop']

/-- A state that is like another is like itself. -/
theorem right (h : Alike scene inner outer outer' s t)
    (hknown : scene.known t.failures t.failures) : Alike scene inner outer' outer' t t :=
  { h with
    rest := rfl
    suffix := h.rest ▸ h.suffix
    stop := h.stop'
    brackets := h.brackets'
    known := hknown }

/-- An error of two steps that stay where they are. -/
theorem meets_error (h : Alike scene inner outer outer' s t) (e : SyntaxError) {depth : Nat} :
    Meets (α := α) scene outer outer' depth (.error e s) (.error e t) :=
  .error h.stop h.stop' h.brackets h.brackets' h.known

end Alike

namespace Follows

/-! ## What a followed step says about the step after it -/

section Outcomes

variable {m m' : Parse α} {inner outer outer' : List Location} {s s' t : State}

theorem ok_of_ok (hm : Follows scene 0 0 m m') (haround : scene.around outer outer')
    (h : Alike scene [] outer outer' s t) {a : α} (hs : m s = .ok a s') :
    ∃ t', m' t = .ok a t' ∧ Alike scene [] outer outer' s' t' := by
  have hmeets := hm.meets rfl haround h
  rw [hs] at hmeets
  revert hmeets
  generalize m' t = r
  rintro (⟨alike, length⟩ | _ | _)
  obtain rfl := List.length_eq_zero_iff.mp length
  exact ⟨_, rfl, alike⟩

theorem error_of_error (hm : Follows scene 0 0 m m') (haround : scene.around outer outer')
    (h : Alike scene [] outer outer' s t) {e : SyntaxError} (he : e.isRecoverable = true)
    (hs : m s = .error e s') : ∃ t', m' t = .error e t' := by
  have hmeets := hm.meets rfl haround h
  rw [hs] at hmeets
  revert hmeets
  generalize m' t = r
  rintro (_ | _ | hfinal)
  · exact ⟨_, rfl⟩
  · simp [hfinal] at he

end Outcomes

end Follows

end Symbolic.Reader
