import Mathlib.Data.List.Lex
import Mathlib.Data.Nat.Notation

/-!
# The order of texts and of their bytes

Tables put texts in order by their characters. The bytes of texts are in the same order: the bytes
of a later character are later ones, wherever they begin to differ, and no character begins with all
the bytes of another.
-/

namespace EntityScript

/-- The bytes of a text. -/
def textBytes (s : String) : List UInt8 := s.toUTF8.data.toList

/-- The bytes of a text are those of its characters, one after another. -/
theorem textBytes_eq (s : String) : textBytes s = s.toList.flatMap String.utf8EncodeChar := by
  change s.toByteArray.data.toList = _
  rw [← String.utf8Encode_toList]
  exact congrArg Array.toList List.data_toByteArray

/-- Bytes are compared by the remainders of the numbers that they are made of. -/
theorem ofNat_lt_iff (a b : ℕ) : UInt8.ofNat a < UInt8.ofNat b ↔ a % 256 < b % 256 := by
  rw [UInt8.lt_iff_toNat_lt, UInt8.toNat_ofNat', UInt8.toNat_ofNat']

/-- Bytes are equal just if the remainders of the numbers that they are made of are. -/
theorem ofNat_eq_iff (a b : ℕ) : UInt8.ofNat a = UInt8.ofNat b ↔ a % 256 = b % 256 := by
  rw [← UInt8.toNat_inj, UInt8.toNat_ofNat', UInt8.toNat_ofNat']

/-- The bytes of a later character come later, whatever follows them. -/
theorem encode_lt_encode {c d : Char} (h : c < d) (xs ys : List UInt8) :
    String.utf8EncodeChar c ++ xs < String.utf8EncodeChar d ++ ys := by
  have hlt : c.val.toNat < d.val.toNat := UInt32.lt_iff_toNat_lt.1 h
  have hvalid : d.val.toNat < 1114112 := by
    obtain hlow | ⟨-, hhigh⟩ := d.valid
    · exact Nat.lt_trans hlow (by decide)
    · exact hhigh
  unfold String.utf8EncodeChar
  dsimp only
  generalize c.val.toNat = m at hlt ⊢
  generalize d.val.toNat = n at hlt hvalid ⊢
  -- Groups of six bits, each of which is what the next one leaves over.
  have hgroups (k : ℕ) : k / 64 / 64 = k / 4096 ∧ k / 4096 / 64 = k / 262144 :=
    ⟨Nat.div_div_eq_div_mul .., Nat.div_div_eq_div_mul ..⟩
  have hm := hgroups m
  have hn := hgroups n
  have hmarked (k : ℕ) : (k % 64 + 128) % 256 = k % 64 + 128 := by omega
  have hlast (k : ℕ) (hk : k < 1114112) : (k / 262144 % 8 + 240) % 256 = k / 262144 + 240 := by
    omega
  split_ifs <;> simp only [List.cons_append, List.nil_append, List.cons_lt_cons_iff, ofNat_lt_iff,
    ofNat_eq_iff, hmarked, hlast n hvalid, hlast m (hlt.trans hvalid)] <;> omega

/-- Texts that are in order have bytes that are in order. -/
theorem flatMap_encode_lt {s t : List Char} (h : s < t) :
    s.flatMap String.utf8EncodeChar < t.flatMap String.utf8EncodeChar := by
  induction h with
  | nil =>
    rename_i d t
    rw [List.flatMap_nil, List.flatMap_cons]
    obtain ⟨byte, bytes, hbytes⟩ :=
      List.exists_cons_of_length_pos (String.length_utf8EncodeChar d ▸ d.utf8Size_pos)
    rw [hbytes]
    exact List.nil_lt_cons ..
  | rel hlt => exact encode_lt_encode hlt _ _
  | cons _ ih =>
    rw [List.flatMap_cons, List.flatMap_cons]
    exact List.append_left_lt ih

/-- The bytes of a text that comes later in a table come later. -/
theorem textBytes_lt {s t : String} (h : compare s t = .lt) : textBytes s < textBytes t := by
  rw [textBytes_eq, textBytes_eq]
  exact flatMap_encode_lt (String.lt_iff.1 (compareOfLessAndEq_eq_lt.1 h))

end EntityScript
