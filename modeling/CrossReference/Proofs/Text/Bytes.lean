import Mathlib.Data.Char
import Mathlib.Data.List.Basic
import Mathlib.Tactic.SplitIfs

namespace CrossReference.Text

def bytes (text : String) : List UInt8 := text.toByteArray.data.toList

theorem bytes_eq (text : String) : bytes text = text.toList.flatMap String.utf8EncodeChar := by
  rw [bytes, ← String.utf8Encode_toList, List.utf8Encode, List.toList_data_toByteArray]

theorem length_bytes (text : String) : (bytes text).length = text.utf8ByteSize := by
  rw [bytes, Array.length_toList, ByteArray.size_data]
  rfl

def newline : UInt8 := 10

theorem newline_not_mem {c : Char} (h : c ≠ '\n') : newline ∉ String.utf8EncodeChar c := by
  have hval : c.val.toNat ≠ 10 := fun heq => h (Char.ext (UInt32.toNat_inj.1 heq))
  rw [String.utf8EncodeChar]
  generalize c.val.toNat = n at hval
  simp only [newline]
  split
  · simp [← UInt8.toNat_inj]; omega
  · split
    · simp [← UInt8.toNat_inj]; omega
    · split <;> simp [← UInt8.toNat_inj] <;> omega

theorem cons_ofNat_lt {a b : Nat} (ha : a < 256) (hb : b < 256) (u v : List UInt8) :
    UInt8.ofNat a :: u < UInt8.ofNat b :: v ↔ a < b ∨ a = b ∧ u < v := by
  rw [List.cons_lt_cons_iff, UInt8.lt_iff_toNat_lt, ← UInt8.toNat_inj, UInt8.toNat_ofNat',
    UInt8.toNat_ofNat', Nat.mod_eq_of_lt ha, Nat.mod_eq_of_lt hb]

theorem digit_lt {n m : Nat} (h : n < m) (k : Nat) :
    n / k < m / k ∨ n / k = m / k ∧ n % k < m % k := by
  rcases Nat.lt_or_eq_of_le (Nat.div_le_div_right (Nat.le_of_lt h)) with hlt | heq
  · exact .inl hlt
  · have hn := Nat.div_add_mod n k
    have hm := Nat.div_add_mod m k
    rw [heq] at hn
    exact .inr ⟨heq, by omega⟩

theorem digits_lt {n m : Nat} (h : n < m) :
    n / 262144 < m / 262144 ∨ n / 262144 = m / 262144 ∧
      (n / 4096 % 64 < m / 4096 % 64 ∨ n / 4096 % 64 = m / 4096 % 64 ∧
        (n / 64 % 64 < m / 64 % 64 ∨ n / 64 % 64 = m / 64 % 64 ∧ n % 64 < m % 64)) := by
  rcases digit_lt h 262144 with hq | ⟨hq, hr⟩
  · exact .inl hq
  · rcases digit_lt hr 4096 with hq' | ⟨hq', hr'⟩
    · exact .inr ⟨hq, .inl (by omega)⟩
    · rcases digit_lt hr' 64 with hq'' | ⟨hq'', hr''⟩
      · exact .inr ⟨hq, .inr ⟨by omega, .inl (by omega)⟩⟩
      · exact .inr ⟨hq, .inr ⟨by omega, .inr ⟨by omega, by omega⟩⟩⟩

theorem encode_lt {c d : Char} (h : c < d) (u v : List UInt8) :
    String.utf8EncodeChar c ++ u < String.utf8EncodeChar d ++ v := by
  have hlt : c.val.toNat < d.val.toNat := h
  have hvalid : d.val.toNat < 1114112 := by
    rcases d.valid with hd | hd
    · omega
    · exact hd.2
  rw [String.utf8EncodeChar, String.utf8EncodeChar]
  generalize c.val.toNat = n at hlt
  generalize d.val.toNat = m at hlt hvalid
  have hn : n / 262144 % 8 = n / 262144 := Nat.mod_eq_of_lt (by omega)
  have hm : m / 262144 % 8 = m / 262144 := Nat.mod_eq_of_lt (by omega)
  have hdigits := digits_lt hlt
  split_ifs <;>
    simp (disch := omega) only [List.cons_append, List.nil_append, cons_ofNat_lt, hn, hm]
  all_goals omega

theorem encode_ne_nil (c : Char) : String.utf8EncodeChar c ≠ [] := by
  rw [← List.length_pos_iff, String.length_utf8EncodeChar]
  exact c.utf8Size_pos

theorem flatMap_encode_lt {s t : List Char} (h : s < t) :
    s.flatMap String.utf8EncodeChar < t.flatMap String.utf8EncodeChar := by
  induction h with
  | @nil c cs =>
    obtain ⟨b, bs, hb⟩ := List.exists_cons_of_ne_nil (encode_ne_nil c)
    rw [List.flatMap_cons, hb]
    exact List.Lex.nil
  | rel h => exact encode_lt h _ _
  | @cons c cs ds h ih =>
    rw [List.flatMap_cons, List.flatMap_cons]
    exact List.append_left_lt ih

theorem bytes_lt {s t : String} (h : s < t) : bytes s < bytes t := by
  rw [bytes_eq, bytes_eq]
  exact flatMap_encode_lt (String.lt_iff.1 h)

end CrossReference.Text
