/-! # Marks within a text

What follows a mark that a text starts with, and what stands around the first occurrence of
a mark. Neither loses anything but the mark. -/

namespace Symbolic.Text

/-- What follows a mark at the start of a text. -/
def strip? : (mark text : List Char) → Option (List Char)
  | [], cs => some cs
  | _ :: _, [] => none
  | m :: mark, c :: cs => if m = c then strip? mark cs else none

theorem strip?_eq_some_iff {mark cs rest : List Char} :
    strip? mark cs = some rest ↔ cs = mark ++ rest := by
  induction mark generalizing cs with
  | nil => simp [strip?, eq_comm]
  | cons m mark ih =>
    cases cs with
    | nil => simp [strip?]
    | cons c cs =>
      simp only [strip?]
      split
      · rename_i h; subst h; simp [ih]
      · rename_i h; simp [Ne.symm h]

/-- What stands before and after the first occurrence of a mark. -/
def splitOnce? (mark : List Char) : List Char → Option (List Char × List Char)
  | [] => if mark = [] then some ([], []) else none
  | c :: cs =>
    match strip? mark (c :: cs) with
    | some rest => some ([], rest)
    | none => (splitOnce? mark cs).map fun (before, after) => (c :: before, after)

theorem eq_of_splitOnce? {mark cs before after : List Char}
    (h : splitOnce? mark cs = some (before, after)) : cs = before ++ mark ++ after := by
  induction cs generalizing before after with
  | nil =>
    simp only [splitOnce?] at h
    split at h <;> simp_all
  | cons c cs ih =>
    simp only [splitOnce?] at h
    split at h
    · rename_i rest hrest
      simp only [Option.some.injEq, Prod.mk.injEq] at h
      obtain ⟨rfl, rfl⟩ := h
      -- the mark stands here, and nothing is before it
      simpa using strip?_eq_some_iff.mp hrest
    · simp only [Option.map_eq_some_iff, Prod.exists, Prod.mk.injEq] at h
      obtain ⟨b, a, hsplit, rfl, rfl⟩ := h
      simp [ih hsplit]

/-- What stands before a mark, and what follows it if the mark occurs. -/
def cut (mark cs : List Char) : List Char × Option (List Char) :=
  match splitOnce? mark cs with
  | some (before, after) => (before, some after)
  | none => (cs, none)

end Symbolic.Text
