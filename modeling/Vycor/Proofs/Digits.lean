/-
Printed numbers.

A number is printed by its decimal digits, one byte each, and the digits spell it again.
-/
import Vycor.Model.Json
import Vycor.Model.McpProtocol

namespace Vycor

/-! ### Digits -/

namespace Mcp

theorem digit_toNat {c : Char} (h : c.isDigit = true) :
    48 ≤ c.toNat ∧ c.toNat ≤ 57 ∧ (UInt8.ofNat c.toNat).toNat = c.toNat := by
  have hb : 48 ≤ c.toNat ∧ c.toNat ≤ 57 := by
    simp only [Char.isDigit, Bool.and_eq_true, decide_eq_true_eq] at h
    exact ⟨h.1, h.2⟩
  refine ⟨hb.1, hb.2, ?_⟩
  rw [UInt8.toNat_ofNat']
  exact Nat.mod_eq_of_lt (by omega)

theorem isDigit_sizeText {n : Nat} {ch : UInt8} (h : ch ∈ sizeText n) :
    48 ≤ ch.toNat ∧ ch.toNat ≤ 57 := by
  obtain ⟨c, hc, rfl⟩ := List.mem_map.mp h
  obtain ⟨hlo, hhi, heq⟩ :=
    digit_toNat (Nat.isDigit_of_mem_toDigits (by decide) (Nat.le_refl 10) hc)
  omega

theorem sizeText_ne_nil (n : Nat) : sizeText n ≠ [] := by
  unfold sizeText
  simp [Nat.toDigits_ne_nil]

theorem all_isDigit_sizeText (n : Nat) : ∀ ch ∈ sizeText n, isDigit ch = true := by
  intro ch hch
  obtain ⟨hlo, hhi⟩ := isDigit_sizeText hch
  unfold isDigit
  simp only [Bool.and_eq_true, decide_eq_true_eq]
  exact ⟨UInt8.le_iff_toNat_le.mpr hlo, UInt8.le_iff_toNat_le.mpr hhi⟩

/-- **A printed size is read back.** -/
theorem leadingDigits_sizeText (n : Nat) : leadingDigits (sizeText n) = n := by
  unfold leadingDigits
  rw [List.takeWhile_eq_self_iff.mpr (all_isDigit_sizeText n)]
  unfold sizeText
  rw [List.foldl_map]
  have hdigits := Nat.ofDigitChars_ten_toDigits (n := n)
  rw [Nat.ofDigitChars_eq_foldl] at hdigits
  refine Eq.trans ?_ hdigits
  refine List.foldl_ext _ _ _ ?_
  intro acc c hc
  rw [(digit_toNat (Nat.isDigit_of_mem_toDigits (by decide) (Nat.le_refl 10) hc)).2.2]
  rfl

end Mcp

/-! ### Strings -/

theorem str_append (a b : String) : str (a ++ b) = str a ++ str b := by
  unfold str
  rw [String.toUTF8_eq_toByteArray, String.toByteArray_append, ByteArray.data_append,
    Array.toList_append]
  rfl

theorem utf8Encode_digits {cs : List Char} (h : ∀ c ∈ cs, c.isDigit) :
    cs.utf8Encode.data.toList = cs.map fun c => UInt8.ofNat c.toNat := by
  induction cs with
  | nil => rfl
  | cons c rest ih =>
      have hc := h c List.mem_cons_self
      have hb : c.val ≤ 0x7f := by
        simp only [Char.isDigit, Bool.and_eq_true, decide_eq_true_eq] at hc
        exact UInt32.le_trans hc.2 (by decide)
      have hsize : c.utf8Size = 1 := if_pos hb
      rw [List.utf8Encode_cons, List.utf8Encode_singleton, List.map_cons,
        ← ih fun c hc => h c (List.mem_cons_of_mem _ hc), String.utf8EncodeChar_eq_singleton hsize,
        ByteArray.data_append, Array.toList_append]
      rfl

theorem decimalInt_ofNat (n : Nat) : decimalInt n = Mcp.sizeText n := by
  have hprint : toString (n : Int) = String.ofList (Nat.toDigits 10 n) := rfl
  unfold decimalInt str Mcp.sizeText
  rw [hprint, String.toUTF8_eq_toByteArray, String.toByteArray_ofList,
    utf8Encode_digits fun c hc => Nat.isDigit_of_mem_toDigits (by decide) (Nat.le_refl 10) hc]

theorem decimalInt_negSucc (n : Nat) : decimalInt (Int.negSucc n) = 45 :: Mcp.sizeText (n + 1) := by
  have hprint : toString (Int.negSucc n) = "-" ++ toString ((n + 1 : Nat) : Int) := rfl
  rw [← decimalInt_ofNat]
  unfold decimalInt
  rw [hprint, str_append]
  rfl

end Vycor
