/-! # Text measured in bytes

Locations count the bytes that a text takes in UTF-8. A text is cut at a byte count only
where a character starts. -/

namespace Symbolic.Text

/-- How many bytes a text takes in UTF-8. -/
def byteLength : List Char → Nat
  | [] => 0
  | c :: cs => c.utf8Size + byteLength cs

@[simp] theorem byteLength_nil : byteLength [] = 0 := rfl

@[simp] theorem byteLength_cons (c : Char) (cs : List Char) :
    byteLength (c :: cs) = c.utf8Size + byteLength cs := rfl

@[simp] theorem byteLength_append (a b : List Char) :
    byteLength (a ++ b) = byteLength a + byteLength b := by
  induction a with
  | nil => simp
  | cons c cs ih => simp [ih, Nat.add_assoc]

theorem byteLength_toList (text : String) : byteLength text.toList = text.utf8ByteSize := by
  have hlist : ∀ cs : List Char, (String.ofList cs).utf8ByteSize = byteLength cs := by
    intro cs
    induction cs with
    | nil => rfl
    | cons c cs ih =>
      have hsplit : String.ofList (c :: cs) = String.singleton c ++ String.ofList cs := by
        rw [String.singleton_eq_ofList, ← String.ofList_append]
        rfl
      rw [hsplit, String.utf8ByteSize_append, String.utf8ByteSize_singleton, ih, byteLength_cons]
  rw [← hlist, String.ofList_toList]

/-- What follows the first `n` bytes of a text, if the text has that many and a character
    starts, or the text ends, after them. -/
def dropBytes? : Nat → List Char → Option (List Char)
  | 0, cs => some cs
  | _ + 1, [] => none
  | n + 1, c :: cs => if c.utf8Size ≤ n + 1 then dropBytes? (n + 1 - c.utf8Size) cs else none

theorem dropBytes?_byteLength_append (a b : List Char) :
    dropBytes? (byteLength a) (a ++ b) = some b := by
  induction a with
  | nil => simp [dropBytes?]
  | cons c cs ih =>
    have hpos := c.utf8Size_pos
    -- a character has at least one byte, so the count is not used up before it
    cases hn : c.utf8Size + byteLength cs with
    | zero => omega
    | succ n =>
      have hrest : n + 1 - c.utf8Size = byteLength cs := by omega
      have hle : c.utf8Size ≤ n + 1 := by omega
      simp only [byteLength_cons, List.cons_append, hn, dropBytes?, hle, if_true, hrest, ih]

theorem suffix_of_dropBytes? {n : Nat} {cs rest : List Char} (h : dropBytes? n cs = some rest) :
    rest <:+ cs := by
  induction cs generalizing n with
  | nil =>
    cases n with
    | zero => simp_all [dropBytes?]
    | succ n => simp [dropBytes?] at h
  | cons c cs ih =>
    -- a character is dropped whole or not at all
    cases n with
    | zero =>
      obtain rfl : c :: cs = rest := by simpa [dropBytes?] using h
      exact List.suffix_refl _
    | succ n =>
      simp only [dropBytes?] at h
      split at h
      · exact (ih h).trans (List.suffix_cons c cs)
      · cases h

end Symbolic.Text
