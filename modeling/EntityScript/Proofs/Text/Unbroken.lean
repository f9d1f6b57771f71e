import EntityScript.Text.Column
import EntityScript.Value
import Mathlib.Data.Nat.Notation
import Mathlib.Tactic.SplitIfs

/-!
# Texts on one line

Padding, numbers and values are written on one line: no part of them is a line end, apart from
those that a text constant holds itself.
-/

namespace EntityScript

/-- A text without a line end. -/
def Unbroken (s : String) : Prop := '\n' ∉ s.toList

instance (s : String) : Decidable (Unbroken s) := inferInstanceAs (Decidable (¬ _))

namespace Unbroken

variable {s t : String}

/-- Two texts on one line stay on it when put together. -/
theorem append (hs : Unbroken s) (ht : Unbroken t) : Unbroken (s ++ t) := by
  unfold Unbroken
  rw [String.toList_append]
  exact fun h => (List.mem_append.1 h).elim hs ht

/-- A text of characters other than line ends is on one line. -/
theorem ofList {cs : List Char} (h : ∀ ch ∈ cs, ch ≠ '\n') : Unbroken (String.ofList cs) := by
  unfold Unbroken
  rw [String.toList_ofList]
  exact fun hmem => h _ hmem rfl

/-- A character repeated is on one line, unless it is a line end. -/
theorem replicate {ch : Char} (h : ch ≠ '\n') (count : ℕ) :
    Unbroken (String.ofList (List.replicate count ch)) :=
  ofList fun _ hmem => List.eq_of_mem_replicate hmem ▸ h

/-- No digit is a line end. -/
theorem ne_of_isDigit {ch : Char} (h : ch.isDigit = true) : ch ≠ '\n' := by
  rintro rfl
  exact absurd h (by decide)

/-- No line end is among the digits of a number. -/
theorem ne_of_mem_toDigits {n : ℕ} {ch : Char} (h : ch ∈ Nat.toDigits 10 n) : ch ≠ '\n' :=
  ne_of_isDigit (Nat.isDigit_of_mem_toDigits (by decide) (by decide) h)

/-- A printed number is on one line. -/
theorem nat (n : ℕ) : Unbroken (toString n) := ofList fun _ => ne_of_mem_toDigits

/-- Padding on the right keeps a text on one line. -/
theorem padRight (width : ℕ) (h : Unbroken s) : Unbroken (Text.padRight width s) :=
  h.append (replicate (by decide) _)

/-- Padding on the left keeps a text on one line, unless it is by line ends. -/
theorem padLeft {filler : Char} (hne : filler ≠ '\n') (width : ℕ) (h : Unbroken s) :
    Unbroken (Text.padLeft filler width s) :=
  (replicate hne _).append h

/-- A number padded with zeros is on one line. -/
theorem zeroPadded (width n : ℕ) : Unbroken (Text.zeroPadded width n) :=
  padLeft (by decide) width (nat n)

/-- A byte in hexadecimal digits is on one line. -/
theorem hexByte (b : UInt8) : Unbroken (Text.hexByte b) := by
  have hdigit : ∀ n < 16, Text.upperHexDigit n ≠ '\n' := by decide
  have hb : b.toNat < 256 := b.toNat_lt
  refine ofList fun ch hmem => ?_
  obtain rfl | hmem := List.mem_cons.1 hmem
  · exact hdigit _ (by omega)
  · obtain rfl := List.mem_singleton.1 hmem
    exact hdigit _ (Nat.mod_lt _ (by decide))

/-- A decimal with its point is on one line. -/
theorem positional (d : Decimal) : Unbroken d.positional := by
  have hzeros (count : ℕ) : ∀ ch ∈ List.replicate count '0', ch ≠ '\n' :=
    fun _ hmem => List.eq_of_mem_replicate hmem ▸ by decide
  have hpadded (count : ℕ) : ∀ ch ∈ List.replicate count '0' ++ Nat.toDigits 10 d.digits,
      ch ≠ '\n' :=
    fun ch hmem => (List.mem_append.1 hmem).elim (hzeros _ ch) ne_of_mem_toDigits
  unfold Decimal.positional
  dsimp only
  split
  · refine ofList fun ch hmem => ?_
    exact (List.mem_append.1 hmem).elim ne_of_mem_toDigits (hzeros _ ch)
  · refine ofList fun ch hmem => ?_
    unfold Decimal.withPoint at hmem
    obtain hmem | hmem := List.mem_append.1 hmem
    · exact hpadded _ ch (List.mem_of_mem_take hmem)
    · obtain rfl | hmem := List.mem_cons.1 hmem
      · decide
      · exact hpadded _ ch (List.mem_of_mem_drop hmem)

/-- The text of a number is on one line. -/
theorem number (n : Number) : Unbroken n.text := by
  have hpattern : ∀ pattern, Unbroken (Number.patternText pattern) := by
    intro pattern
    unfold Number.patternText
    dsimp only
    split_ifs
    · decide
    · decide
    · decide
    · exact positional _
    · exact positional _
  unfold Number.text
  split
  · exact append (by decide) (hpattern _)
  · exact hpattern _

/-- Only a text can bring in a line end. -/
theorem value {v : Value} (h : ∀ s, v = .string s → Unbroken s) : Unbroken v.text := by
  have hquote : Unbroken "\"" := by decide
  cases v with
  | number n => exact number n
  | vec2 x y => exact ((number x).append (by decide)).append (number y)
  | bool b => cases b <;> decide
  | string s => exact (hquote.append (h s rfl)).append hquote

end Unbroken

end EntityScript
