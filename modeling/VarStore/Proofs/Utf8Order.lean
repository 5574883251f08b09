/- # VarStore.Proofs.Utf8Order — the bytes of texts are ordered as their characters

`utf8 s` is the list of bytes that encode `s`.  Of two texts the one that comes first by its
characters, compared by their scalar values, is also the one that comes first by its bytes
(`utf8_lt_iff`).

A character is encoded as a lead byte, which tells how many bytes follow, and its digits to the
base 64.  A longer encoding has the greater lead byte.  Of two encodings of one length the first
byte to differ is that of the first digit to differ (`base64_lt`).  No encoding is the beginning
of another one, so what follows the characters in which two texts differ does not matter
(`utf8EncodeChar_append_lt`).
-/
import Mathlib.Data.String.Basic

namespace VarStore

set_option autoImplicit false

def utf8 (s : String) : List UInt8 :=
  s.toUTF8.data.toList

theorem utf8_eq_flatMap (s : String) : utf8 s = s.toList.flatMap String.utf8EncodeChar := by
  rw [utf8, String.toUTF8_eq_toByteArray, ← String.utf8Encode_toList]
  exact List.toList_data_toByteArray

/-! ## Characters -/

/-- Numbers are ordered as their digits to the base 64, the highest first. -/
theorem base64_lt {m n : Nat} (less : m < n) :
    m / 262144 < n / 262144 ∨ m / 262144 = n / 262144 ∧
      (m / 4096 % 64 < n / 4096 % 64 ∨ m / 4096 % 64 = n / 4096 % 64 ∧
        (m / 64 % 64 < n / 64 % 64 ∨ m / 64 % 64 = n / 64 % 64 ∧ m % 64 < n % 64)) := by
  have first : m / 262144 < n / 262144 ∨ m / 262144 = n / 262144 := by omega
  have second : m / 4096 < n / 4096 ∨ m / 4096 = n / 4096 := by omega
  have third : m / 64 < n / 64 ∨ m / 64 = n / 64 := by omega
  omega

theorem toNat_val_lt (c : Char) : c.val.toNat < 1114112 := by
  rcases c.valid with low | high
  · have : c.val.toNat < 0xd800 := low
    omega
  · exact high.2

/-- The encodings of two characters differ before either of them ends.  The highest digit of a
character fits into the three bits that the lead byte has for it. -/
theorem utf8EncodeChar_append_lt {c d : Char} (less : c < d) (r s : List UInt8) :
    String.utf8EncodeChar c ++ r < String.utf8EncodeChar d ++ s := by
  have below : c.val.toNat < d.val.toNat := less
  have top : d.val.toNat < 1114112 := toNat_val_lt d
  unfold String.utf8EncodeChar
  generalize c.val.toNat = m at below ⊢
  generalize d.val.toNat = n at below top ⊢
  have digits := base64_lt below
  have byte {k : Nat} (small : k < 256) : (UInt8.ofNat k).toNat = k :=
    UInt8.toNat_ofNat'.trans (Nat.mod_eq_of_lt small)
  have leadM : m / 262144 % 8 = m / 262144 := by omega
  have leadN : n / 262144 % 8 = n / 262144 := by omega
  dsimp only
  split_ifs
  all_goals
    simp (disch := omega) only [List.cons_append, List.nil_append, List.cons_lt_cons_iff,
      UInt8.lt_iff_toNat_lt, ← UInt8.toNat_inj, byte, leadM, leadN]
    omega

/-! ## Texts -/

theorem flatMap_utf8EncodeChar_lt {cs ds : List Char} (less : cs < ds) :
    cs.flatMap String.utf8EncodeChar < ds.flatMap String.utf8EncodeChar := by
  induction less with
  | @nil d ds =>
    rw [List.flatMap_nil, List.flatMap_cons]
    cases encoded : String.utf8EncodeChar d with
    | nil => exact absurd encoded String.utf8EncodeChar_ne_nil
    | cons byte bytes => exact List.nil_lt_cons _ _
  | rel first => exact utf8EncodeChar_append_lt first _ _
  | cons _ ih => exact List.append_left_lt ih

theorem utf8_lt_of_lt {a b : String} (less : a < b) : utf8 a < utf8 b := by
  rw [utf8_eq_flatMap, utf8_eq_flatMap]
  exact flatMap_utf8EncodeChar_lt (String.lt_iff_toList_lt.1 less)

/-- **The order of the bytes is the order of the characters.** -/
theorem utf8_lt_iff {a b : String} : utf8 a < utf8 b ↔ a < b := by
  refine ⟨fun less => ?_, utf8_lt_of_lt⟩
  rcases lt_trichotomy a b with before | rfl | after
  · exact before
  · exact absurd less (List.lt_irrefl _)
  · exact absurd less (List.lt_asymm (utf8_lt_of_lt after))

/-- A character beyond the basic plane comes last, unlike in the order of UTF-16 units. -/
example : utf8 "\uffff" < utf8 "😀" := by decide

end VarStore
