import Mathlib.Algebra.Group.Nat.Defs
import Mathlib.Data.Option.Basic
import Symbolic.Number.Basic
import Symbolic.Proofs.Scanning.Boundary

/-!
# Numbers in a full form

A number is written with no more characters than any literal that it can be read from. So where
the characters of a number are scanned as one literal of that number, they are that literal: there
is nothing around it.

## Key results

- `length_characters_le`: writing a number does not take more characters than reading it
-/

namespace Symbolic

/-! ## Integers -/

namespace Text

theorem lt_of_foldlM_digits {base : Nat} {cs : List Char} {n value : Nat}
    (h : cs.foldlM (fun n c => do
      let d ← digitValue? c
      if d < base then some (base * n + d) else none) n = some value) :
    value < (n + 1) * base ^ cs.length := by
  induction cs generalizing n with
  | nil =>
    obtain rfl : n = value := by simpa using h
    simp
  | cons c cs ih =>
    simp only [List.foldlM_cons, Option.bind_eq_bind, Option.bind_eq_some_iff] at h
    obtain ⟨next, ⟨d, -, hd⟩, hvalue⟩ := h
    split at hd
    · rename_i hlt
      obtain rfl := Option.some.inj hd
      -- one more digit multiplies the bound by the base
      have hle : base * n + d + 1 ≤ (n + 1) * base := by
        rw [Nat.add_mul, Nat.mul_comm n, Nat.one_mul]
        omega
      calc value < (base * n + d + 1) * base ^ cs.length := ih hvalue
        _ ≤ (n + 1) * base * base ^ cs.length := Nat.mul_le_mul_right _ hle
        _ = (n + 1) * base ^ (cs.length + 1) := by rw [Nat.pow_succ', Nat.mul_assoc]
    · cases hd

theorem length_naturalText_le_of_digits? {cs : List Char} {n : Nat} (h : digits? cs = some n) :
    (naturalText n).length ≤ cs.length := by
  unfold digits? at h
  split at h
  · cases h
  · rename_i hne
    have hpos : 0 < cs.length := by
      rw [List.length_pos_iff]
      simpa using hne
    have hlt := lt_of_foldlM_digits h
    rw [naturalText, Nat.length_toDigits_le_iff (by decide) hpos]
    simpa using hlt

theorem length_naturalText_le {cs : List Char} {n : Nat} (h : natural? cs = some n) :
    (naturalText n).length ≤ cs.length := by
  unfold natural? at h
  split at h
  · exact Nat.le_succ_of_le (length_naturalText_le_of_digits? h)
  · exact length_naturalText_le_of_digits? h

theorem length_integerText_le {cs : List Char} {k : Int} (h : integer? cs = some k) :
    (integerText k).length ≤ cs.length := by
  unfold integer? at h
  split at h
  · rename_i cs
    simp only [Option.map_eq_some_iff, Option.bind_eq_bind, Option.bind_eq_some_iff,
      Option.pure_def, Option.some.injEq] at h
    obtain ⟨_, ⟨n, hn, rfl⟩, rfl⟩ := h
    have hle := length_naturalText_le_of_digits? hn
    cases n with
    | zero =>
      -- zero is written without a sign
      exact Nat.le_succ_of_le hle
    | succ n => exact Nat.succ_le_succ hle
  · simp only [Option.map_eq_some_iff, Option.bind_eq_bind, Option.bind_eq_some_iff,
      Option.pure_def, Option.some.injEq] at h
    obtain ⟨_, ⟨n, hn, rfl⟩, rfl⟩ := h
    exact length_naturalText_le hn

theorem length_cut (mark cs : List Char) :
    (cut mark cs).1.length + ((cut mark cs).2.elim 0 fun after => mark.length + after.length) =
      cs.length := by
  unfold cut
  cases h : splitOnce? mark cs with
  | none => simp
  | some split =>
    simp [eq_of_splitOnce? h]

end Text

/-! ## Whole numbers -/

namespace Number

open Text

theorem length_exponent_le {text : Option (List Char)} {exponent : Int64}
    (h : text.elim (some 0) exponent? = some exponent) :
    (if exponent = 0 then [] else '*' :: '^' :: integerText exponent.toInt).length ≤
      text.elim 0 fun cs => 2 + cs.length := by
  cases text with
  | none =>
    obtain rfl : 0 = exponent := by simpa using h
    simp
  | some cs =>
    simp only [Option.elim_some, exponent?, Option.bind_eq_some_iff] at h ⊢
    obtain ⟨k, hk, hexponent⟩ := h
    have hle := length_integerText_le hk
    -- an exponent that is read fits into a word
    have hk' : exponent.toInt = k := by
      unfold Bounded.long? at hexponent
      split at hexponent
      · rename_i hfits
        obtain rfl := Option.some.inj hexponent
        exact Int64.toInt_ofInt_of_le hfits.1 hfits.2
      · cases hexponent
    split
    · exact Nat.zero_le _
    · rw [List.length_cons, List.length_cons, hk']
      omega

theorem length_characters (n : Number) :
    n.characters.length = (if n.negative then 1 else 0) +
      (if n.base = 10 then 0 else (naturalText n.base.toNat).length + 2) +
      n.digits.toList.length + (n.precision.elim 0 fun text => 1 + text.toList.length) +
      (if n.exponent = 0 then [] else '*' :: '^' :: integerText n.exponent.toInt).length := by
  -- a sign takes one character, a base its digits and two carets
  have hsign : (if n.negative then ['-'] else []).length = if n.negative then 1 else 0 := by
    split <;> rfl
  have hbase : (if n.base = 10 then [] else naturalText n.base.toNat ++ ['^', '^']).length =
      if n.base = 10 then 0 else (naturalText n.base.toNat).length + 2 := by
    split
    · rfl
    · rw [List.length_append]
      rfl
  unfold characters
  rw [List.length_append, List.length_append, List.length_append, List.length_append, hsign, hbase]
  cases n.precision with
  | none => rfl
  | some text =>
    rw [Option.elim_some, List.length_cons, Nat.add_comm 1]

theorem length_body_le (rest : List Char) {exponent : Int64}
    (h : (cut ['*', '^'] rest).2.elim (some 0) exponent? = some exponent) :
    (cut ['\u0060'] (cut ['*', '^'] rest).1).1.length +
        ((cut ['\u0060'] (cut ['*', '^'] rest).1).2.elim 0 fun cs => 1 + cs.length) +
        (if exponent = 0 then [] else '*' :: '^' :: integerText exponent.toInt).length ≤
      rest.length := by
  -- the text is digits, what is after the precision mark, and what is after the exponent mark
  have hrest := length_cut ['*', '^'] rest
  have hdigits := length_cut ['\u0060'] (cut ['*', '^'] rest).1
  have hexponent := length_exponent_le h
  simp only [List.length_cons, List.length_nil, Nat.zero_add, Nat.reduceAdd] at hrest hdigits
  omega

/-- A number is written with no more characters than it is read from. -/
theorem length_characters_le {cs : List Char} {n : Number} (h : ofCharacters? cs = some n) :
    n.characters.length ≤ cs.length := by
  unfold ofCharacters? at h
  cases hsplit : splitOnce? ['^', '^'] cs with
  | none =>
    -- base ten, which is not written
    simp only [hsplit, Option.bind_eq_bind, Option.bind_eq_some_iff, Option.some.injEq] at h
    obtain ⟨_, rfl, _, -, exponent, hexponent, _, -, rfl⟩ := h
    have hle := length_body_le cs hexponent
    rw [length_characters, String.toList_ofList, Option.elim_map]
    simpa [Function.comp_def] using hle
  | some split =>
    -- another base, which is written unless it is ten all the same
    simp only [hsplit, Option.bind_eq_bind, Option.bind_eq_some_iff, Option.some.injEq,
      Option.map_eq_some_iff] at h
    obtain ⟨_, ⟨base, hbase, rfl⟩, _, hguard, exponent, hexponent, _, -, rfl⟩ := h
    have hle := length_body_le split.2 hexponent
    have hlength : cs.length = split.1.length + 2 + split.2.length := by
      rw [eq_of_splitOnce? hsplit, List.length_append, List.length_append]
      rfl
    have htext := length_naturalText_le hbase
    have hrange : 2 ≤ base ∧ base ≤ 36 := by
      by_cases hrange : 2 ≤ base ∧ base ≤ 36
      · exact hrange
      · simp [guard, hrange] at hguard
    -- no base is too large for a word
    have hword : (UInt32.ofNat base).toNat = base := by
      rw [UInt32.toNat_ofNat']
      omega
    have hbase' : (if UInt32.ofNat base = 10 then 0
        else (naturalText (UInt32.ofNat base).toNat).length + 2) ≤ split.1.length + 2 := by
      rw [hword]
      split <;> omega
    rw [length_characters, String.toList_ofList, Option.elim_map]
    simp only [Function.comp_def, String.toList_ofList, Bool.false_eq_true, if_false] at hle ⊢
    omega

end Number

end Symbolic
