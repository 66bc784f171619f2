import Symbolic.Proofs.Likeness.Abreast
import Symbolic.Proofs.Reader.Follows

/-!
# Every rule follows itself

If two ways of reading an expression follow each other at every precedence, so does what the
grammar makes of them: over the same tokens, two readers that keep up with each other on a stage
follow each other in a scene.

## Key results

- `keepsUp_iff_follows`: following, on the stage of a scene
- `follows_leading`: the forms that start an expression
- `follows_chain`: an expression whose parts are read by steps that follow each other
- `follows_program`: a whole input
-/

namespace Symbolic.Reader

open Parse Filter

variable {scene : Scene} {α : Type} [Located α] {m m' : Parse α}

namespace Scene

/-- The stage of two readers over the same tokens. -/
def stage (scene : Scene) : Stage where
  like := .only fun _ => True
  bracket := Eq
  tokens := scene.tokens
  stop := scene.stop
  stop' := scene.stop
  around := scene.around
  known := scene.known
  stops := ⟨rfl, trivial⟩
  head?_like h := by
    rw [scene.head?_eq h]
    exact Located.like_self (fun _ => rfl) _
  opens := @Likeness.loc_eq_of_only
  cons := by
    rintro _ _ loc _ rfl
    exact scene.cons loc

end Scene

theorem abreast_iff_alike {outer outer' : List Location} {s t : State} :
    Abreast scene.stage 0 outer outer' s t ↔ Alike scene [] outer outer' s t := by
  constructor
  · rintro ⟨rest, suffix, stop, stop', ⟨inner, inner', hinner, hlength, brackets, brackets'⟩, known⟩
    -- no bracket is open but those around
    obtain rfl := List.length_eq_zero_iff.mp hlength
    obtain rfl := List.forall₂_nil_left_iff.mp hinner
    have hrest : s.rest = t.rest := List.forall₂_eq_eq_eq ▸ rest.imp fun _ _ h => h.1
    exact ⟨hrest.symm, suffix, stop, stop', brackets, brackets', known⟩
  · rintro ⟨rest, suffix, stop, stop', brackets, brackets', known⟩
    refine ⟨rest ▸ List.forall₂_same.mpr fun _ _ => ⟨rfl, trivial⟩, suffix, stop, stop',
      ⟨[], [], .nil, rfl, brackets, brackets'⟩, known⟩

theorem keepsUp_iff_follows : KeepsUp scene.stage m (fun _ => m') ↔ Follows scene 0 0 m m' := by
  constructor
  · refine fun h => ⟨fun {inner outer outer' s t} hinner haround halike => ?_⟩
    obtain rfl := List.length_eq_zero_iff.mp hinner
    -- the second reader does not depend on the room, so enough of it is any
    have hagrees := h.agrees haround (abreast_iff_alike.mpr halike)
    revert hagrees
    generalize m s = r, m' t = r'
    rintro (⟨value, abreast, eventually⟩ | ⟨error, stop, ⟨inner, hbrackets⟩, known, eventually⟩ |
      hfinal)
    · rw [eventually_const.mp eventually, Located.eq_of_like value]
      exact .ok (abreast_iff_alike.mp abreast) rfl
    · obtain ⟨t', rfl, hstop', ⟨inner', hbrackets'⟩, rfl⟩ := eventually_const.mp eventually
      rw [SyntaxError.eq_of_like error]
      exact .error stop hstop' hbrackets.symm hbrackets'.symm known
    · exact .final hfinal
  · refine fun h => ⟨fun {outer outer' s t} haround habreast => ?_⟩
    have hmeets := h.meets rfl haround (abreast_iff_alike.mp habreast)
    revert hmeets
    generalize m s = r, m' t = r'
    rintro (@⟨a, s', t', inner, alike, length⟩ |
      @⟨e, s', t', inner, inner', stop, stop', brackets, brackets', known⟩ | hfinal)
    · obtain rfl := List.length_eq_zero_iff.mp length
      exact .ok (Located.like_self (fun _ => rfl) a) (abreast_iff_alike.mpr alike)
        (.of_forall fun _ => rfl)
    · exact .error (Located.like_self (fun _ => rfl) e) stop ⟨inner, brackets.symm⟩ known
        (.of_forall fun _ => ⟨t', rfl, stop', ⟨inner', brackets'.symm⟩, rfl⟩)
    · exact .final hfinal

variable {table : OperatorTable} {expr expr' : Precedence → Parse Expr}

section Rules

variable (h : ∀ p, Follows scene 0 0 (expr p) (expr' p))
include h

theorem keepsUp_of_follows (p : Precedence) : KeepsUp scene.stage (expr p) (fun _ => expr' p) :=
  keepsUp_iff_follows.mpr (h p)

theorem follows_leading : Follows scene 0 0 (leading table expr) (leading table expr') :=
  keepsUp_iff_follows.mp (keepsUp_leading (keepsUp_of_follows h))

theorem follows_chain (p : Precedence) :
    Follows scene 0 0 (chain table expr p) (chain table expr' p) :=
  keepsUp_iff_follows.mp (keepsUp_chain (keepsUp_of_follows h) p)

theorem follows_program :
    Follows scene 0 0 (iterate (programTurn expr) []) (iterate (programTurn expr') []) :=
  keepsUp_iff_follows.mp (keepsUp_program (keepsUp_of_follows h))

end Rules

end Symbolic.Reader
