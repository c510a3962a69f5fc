import RosKernel.Network.Frames

/-! The Internet checksum, `network/checksum.hpp`.

Folding the carries keeps a sum modulo `0xFFFF`, and of the two representations of zero it yields
`0xFFFF` unless the sum is zero itself. All facts about the checksum follow from that.
-/

set_option autoImplicit false

namespace RosKernel.Network

open List

/-- The bytes with a word stored at an offset, least significant byte first. -/
def storeHalf (data : Bytes) (offset : Nat) (value : UInt16) : Bytes :=
  (data.set offset value.toUInt8).set (offset + 1) (value >>> 8).toUInt8

/-- The sum of the words as the protocol reads them, the first byte being the more significant one. -/
def sumNetworkWords : Bytes → Nat
  | high :: low :: rest => 256 * high.toNat + low.toNat + sumNetworkWords rest
  | [last] => 256 * last.toNat
  | [] => 0

/-- The checksum of the protocol: the complement of the folded sum of the words in network order. -/
def networkChecksum (data : Bytes) : UInt16 := ~~~ UInt16.ofNat (foldCarry (sumNetworkWords data))

section

variable (sum : Nat)

theorem foldCarry_lt : foldCarry sum < 2 ^ 16 := by
  induction sum using foldCarry.induct with
  | case1 sum carry ih => rwa [foldCarry, if_pos carry]
  | case2 sum carry => rw [foldCarry, if_neg carry]; omega

theorem foldCarry_mod : foldCarry sum % 65535 = sum % 65535 := by
  induction sum using foldCarry.induct with
  | case1 sum carry ih => rw [foldCarry, if_pos carry, ih]; omega
  | case2 sum carry => rw [foldCarry, if_neg carry]

theorem foldCarry_pos : 0 < foldCarry sum ↔ 0 < sum := by
  induction sum using foldCarry.induct with
  | case1 sum carry ih => rw [foldCarry, if_pos carry, ih]; omega
  | case2 sum carry => rw [foldCarry, if_neg carry]

end

section

variable (data : Bytes)

theorem sumWords_le : sumWords data ≤ 65535 * ((data.length + 1) / 2) := by
  induction data using sumWords.induct with
  | case1 low high rest ih =>
    have := low.toNat_lt
    have := high.toNat_lt
    simp only [sumWords, length_cons]
    omega
  | case2 last =>
    have := last.toNat_lt
    simp only [sumWords, length_cons, length_nil]
    omega
  | case3 => exact Nat.zero_le _

variable {data} in
theorem sumWords_lt (short : data.length ≤ 131070) : sumWords data < 2 ^ 32 := by
  have := sumWords_le data
  omega

theorem sumWords_padded (odd : data.length % 2 = 1) : sumWords (data ++ [0]) = sumWords data := by
  induction data using sumWords.induct with
  | case1 low high rest ih =>
    simp only [length_cons] at odd
    simp only [cons_append, sumWords, ih (by omega)]
  | case2 last => rfl
  | case3 => contradiction

/-- Exchanging the bytes of each word multiplies the sum by 256, up to the end-around carry. -/
theorem sumNetworkWords_mod : sumNetworkWords data % 65535 = 256 * sumWords data % 65535 := by
  induction data using sumWords.induct with
  | case1 low high rest ih => simp only [sumWords, sumNetworkWords]; omega
  | case2 last => rfl
  | case3 => rfl

theorem sumNetworkWords_pos : 0 < sumNetworkWords data ↔ 0 < sumWords data := by
  induction data using sumWords.induct with
  | case1 low high rest ih => simp only [sumWords, sumNetworkWords]; omega
  | case2 last => simp only [sumWords, sumNetworkWords]; omega
  | case3 => rfl

end

theorem toNat_high (value : UInt16) : (value >>> 8).toUInt8.toNat = value.toNat / 256 := by
  have := value.toNat_lt
  rw [UInt16.toNat_toUInt8, UInt16.toNat_shiftRight, show (8 : UInt16).toNat % 16 = 8 by rfl, Nat.shiftRight_eq_div_pow]
  omega

theorem toNat_bytes (value : UInt16) : value.toUInt8.toNat + 256 * (value >>> 8).toUInt8.toNat = value.toNat := by
  rw [toNat_high, UInt16.toNat_toUInt8]
  omega

theorem sumWords_storeHalf {data : Bytes} {half : Nat} (inside : 2 * half + 2 ≤ data.length) (value : UInt16) :
    sumWords (storeHalf data (2 * half) value) = sumWords (storeHalf data (2 * half) 0) + value.toNat := by
  induction half generalizing data with
  | zero =>
    obtain ⟨low, high, rest, rfl⟩ : ∃ low high rest, data = low :: high :: rest := by
      match data, inside with
      | low :: high :: rest, _ => exact ⟨low, high, rest, rfl⟩
    simp only [storeHalf, Nat.mul_zero, Nat.zero_add, set_cons_zero, set_cons_succ, sumWords, toNat_bytes,
      UInt16.toNat_zero]
    omega
  | succ half ih =>
    obtain ⟨low, high, rest, rfl⟩ : ∃ low high rest, data = low :: high :: rest := by
      match data, inside with
      | low :: high :: rest, _ => exact ⟨low, high, rest, rfl⟩
    -- A word behind the first two bytes is a word of the rest.
    have shift (value : UInt16) :
        storeHalf (low :: high :: rest) (2 * (half + 1)) value = low :: high :: storeHalf rest (2 * half) value := by
      simp only [storeHalf, show 2 * (half + 1) = 2 * half + 1 + 1 by omega, set_cons_succ]
    simp only [length_cons] at inside
    rw [shift, shift, sumWords, sumWords, ih (by omega)]
    omega

theorem toNat_checksum (sum : Nat) : (~~~ UInt16.ofNat (foldCarry sum)).toNat = 65535 - foldCarry sum := by
  rw [UInt16.toNat_not, UInt16.toNat_ofNat_of_lt' (foldCarry_lt sum)]
  rfl

theorem toNat_swap16 (value : UInt16) : (swap16 value).toNat = 256 * (value.toNat % 256) + value.toNat / 256 := by
  have := value.toNat_lt
  -- The two halves have no bit in common.
  have disjoint := Nat.two_pow_add_eq_or_of_lt (show value.toNat / 256 < 2 ^ 8 by omega) (value.toNat % 256)
  rw [swap16, UInt16.toNat_or, UInt16.toNat_shiftLeft, UInt16.toNat_shiftRight, show (8 : UInt16).toNat % 16 = 8 by rfl,
    Nat.shiftRight_eq_div_pow, Nat.shiftLeft_eq, show value.toNat * 2 ^ 8 % 2 ^ 16 = 2 ^ 8 * (value.toNat % 256) by omega,
    ← disjoint]

/-- A sum with the complement of its fold added folds to the representation of zero without a zero bit. -/
theorem foldCarry_self (sum : Nat) : foldCarry (sum + (65535 - foldCarry sum)) = 65535 := by
  have below := foldCarry_lt sum
  have congruent := foldCarry_mod sum
  have total := foldCarry_mod (sum + (65535 - foldCarry sum))
  have bound := foldCarry_lt (sum + (65535 - foldCarry sum))
  have positive := (foldCarry_pos (sum + (65535 - foldCarry sum))).mpr
  have := (foldCarry_pos sum).mp
  omega

theorem calculateChecksum_toNat {data : Bytes} (short : data.length ≤ 131070) :
    (calculateChecksum data).toNat = 65535 - foldCarry (sumWords data) := by
  rw [calculateChecksum, Nat.mod_eq_of_lt (sumWords_lt short), toNat_checksum]

theorem length_storeHalf (data : Bytes) (offset : Nat) (value : UInt16) : (storeHalf data offset value).length = data.length := by
  rw [storeHalf, length_set, length_set]

theorem checksum_stored {data : Bytes} (short : data.length ≤ 131070) {half : Nat} (inside : 2 * half + 2 ≤ data.length) :
    calculateChecksum (storeHalf data (2 * half) (calculateChecksum (storeHalf data (2 * half) 0))) = 0 := by
  apply UInt16.toNat_inj.mp
  rw [calculateChecksum_toNat (by rwa [length_storeHalf]), sumWords_storeHalf inside,
    calculateChecksum_toNat (by rwa [length_storeHalf]), foldCarry_self]
  rfl

theorem calculateChecksum_eq_swap {data : Bytes} (short : data.length ≤ 131070) :
    calculateChecksum data = swap16 (networkChecksum data) := by
  apply UInt16.toNat_inj.mp
  rw [calculateChecksum_toNat short, toNat_swap16, networkChecksum, toNat_checksum]
  have native := foldCarry_mod (sumWords data)
  have network := foldCarry_mod (sumNetworkWords data)
  have factor := sumNetworkWords_mod data
  have zero := sumNetworkWords_pos data
  have := foldCarry_pos (sumWords data)
  have := foldCarry_pos (sumNetworkWords data)
  have := foldCarry_lt (sumWords data)
  have := foldCarry_lt (sumNetworkWords data)
  omega

theorem halfBytes_swap16 (value : UInt16) : halfBytes (swap16 value) = [(value >>> 8).toUInt8, value.toUInt8] := by
  have low : (swap16 value).toUInt8 = (value >>> 8).toUInt8 := by
    apply UInt8.toNat_inj.mp
    have := value.toNat_lt
    rw [toNat_high, UInt16.toNat_toUInt8, toNat_swap16]
    omega
  have high : (swap16 value >>> 8).toUInt8 = value.toUInt8 := by
    apply UInt8.toNat_inj.mp
    have := value.toNat_lt
    rw [toNat_high, UInt16.toNat_toUInt8, toNat_swap16]
    omega
  rw [halfBytes, low, high]

/-- A packet whose checksum is computed over a zeroed field and stored there verifies; no sum on the
way overflows, an odd packet counts as padded with zero, and the stored bytes are those that the
protocol's big-endian sum gives. -/
theorem calculateChecksum_verifies (data : Bytes) (short : data.length ≤ 131070) :
    (∀ offset, offset % 2 = 0 → offset + 2 ≤ data.length →
      calculateChecksum (storeHalf data offset (calculateChecksum (storeHalf data offset 0))) = 0) ∧
    (∀ count, sumWords (data.take count) < 2 ^ 32) ∧
    (data.length % 2 = 1 → calculateChecksum data = calculateChecksum (data ++ [0])) ∧
    halfBytes (calculateChecksum data) = [(networkChecksum data >>> 8).toUInt8, (networkChecksum data).toUInt8] := by
  refine ⟨fun offset even inside => ?_, fun count => ?_, fun odd => ?_, ?_⟩
  · obtain ⟨half, rfl⟩ := Nat.dvd_of_mod_eq_zero even
    exact checksum_stored short inside
  · apply sumWords_lt
    rw [length_take]
    omega
  · rw [calculateChecksum, calculateChecksum, sumWords_padded data odd]
  · rw [calculateChecksum_eq_swap short, halfBytes_swap16]

theorem calculateChecksum_verifies_echo :
    calculateChecksum (storeHalf [8, 0, 0, 0, 1] 2 (calculateChecksum (storeHalf [8, 0, 0, 0, 1] 2 0))) = 0 :=
  (calculateChecksum_verifies [8, 0, 0, 0, 1] (by decide)).1 2 rfl (by decide)

end RosKernel.Network
