import OrphiqCore.Mkvs.KeyBits

/-!
# Merging and extending keys

`Key.Merge` and `Key.AppendBit` build a longer key from a shorter one. Both write into a
zeroed buffer with byte-wise `|=`, so each is described by the bits it ORs in: a merge step
places the bits of one byte of the second key, shifted to follow the first key's bits.
-/

namespace Orphiq.Mkvs
open Bits

theorem orAt_spec (key : Key) {m : Nat} (h : m < key.length) (c : UInt8) :
    ∃ key', orAt key m c = some key' ∧ key'.length = key.length ∧
      ∀ x, bitAt key' x = (bitAt key x || (decide (x / 8 = m) && byteBit c (x % 8))) := by
  refine ⟨_, if_pos h, by simp, fun x => ?_⟩
  rw [bitAt_modify _ _ _ h]
  split
  · rename_i here
    subst here
    rw [byteBit_or, bitAt_eq_byteBit key h]
    simp
  · rename_i other
    simp [other]

/-- The bits that step `i` of the merge loop places: byte `b` of the second key, at bit
`keyLen + 8 * i` of the new key. -/
def placed (keyLen i : Nat) (b : UInt8) (x : Nat) : Bool :=
  decide (keyLen + 8 * i ≤ x) && decide (x < keyLen + 8 * i + 8) && byteBit b (x - keyLen - 8 * i)

theorem placed_eq (keyLen i : Nat) (b : UInt8) (x : Nat) :
    placed keyLen i b x =
      ((decide (x / 8 = (keyLen + 8 * i) / 8) && decide (keyLen % 8 ≤ x % 8) &&
          byteBit b (x % 8 - keyLen % 8)) ||
        (decide (x / 8 = (keyLen + 8 * i) / 8 + 1) && decide (x % 8 < keyLen % 8) &&
          byteBit b (x % 8 + 8 - keyLen % 8))) := by
  unfold placed
  by_cases first : x / 8 = (keyLen + 8 * i) / 8 ∧ keyLen % 8 ≤ x % 8
  · have index : x - keyLen - 8 * i = x % 8 - keyLen % 8 := by omega
    simp [index, first, show keyLen + 8 * i ≤ x by omega, show x < keyLen + 8 * i + 8 by omega]
  · by_cases second : x / 8 = (keyLen + 8 * i) / 8 + 1 ∧ x % 8 < keyLen % 8
    · have index : x - keyLen - 8 * i = x % 8 + 8 - keyLen % 8 := by omega
      simp [index, second, show keyLen + 8 * i ≤ x by omega, show x < keyLen + 8 * i + 8 by omega]
    · have outside : (decide (keyLen + 8 * i ≤ x) && decide (x < keyLen + 8 * i + 8)) = false := by
        simp only [Bool.and_eq_false_iff, decide_eq_false_iff_not]
        omega
      have notFirst : (decide (x / 8 = (keyLen + 8 * i) / 8) && decide (keyLen % 8 ≤ x % 8)) = false := by
        simpa using first
      have notSecond : (decide (x / 8 = (keyLen + 8 * i) / 8 + 1) && decide (x % 8 < keyLen % 8)) = false := by
        simpa using second
      rw [outside, notFirst, notSecond]
      rfl

theorem mergeStep_spec (keyLen : Depth) (newKey : Key) (i : Nat) (b : UInt8)
    (room : (keyLen.toNat + 7) / 8 + i ≤ newKey.length) :
    ∃ newKey', Key.mergeStep keyLen ((keyLen.toNat + 7) / 8) newKey i b = some newKey' ∧
      newKey'.length = newKey.length ∧
      ∀ x, bitAt newKey' x =
        (bitAt newKey x || (decide (x < 8 * newKey.length) && placed keyLen.toNat i b x)) := by
  have rshift : (keyLen % 8).toUInt8 = (keyLen.toNat % 8).toUInt8 := by
    rw [toUInt8_of_depth]
    simp
  have lshift : ((8 - keyLen % 8) % 8).toUInt8 = ((8 - keyLen.toNat % 8) % 8).toUInt8 := by
    have low : keyLen % 8 ≤ 8 := UInt16.le_iff_toNat_le.mpr (by simp; omega)
    rw [toUInt8_of_depth, UInt16.toNat_mod, UInt16.toNat_sub_of_le _ _ low]
    simp
  unfold Key.mergeStep
  by_cases aligned : keyLen.toNat % 8 = 0
  · -- A whole number of bytes: each byte of the second key lands on one byte.
    have zero : keyLen % 8 = 0 := UInt16.toNat_inj.mp (by simpa using aligned)
    have start : (keyLen.toNat + 8 * i) / 8 = (keyLen.toNat + 7) / 8 + i := by omega
    rw [lshift, aligned]
    simp only [zero, bne_self_eq_false, Bool.false_and, Bool.false_eq_true, if_false, pure_bind]
    by_cases more : (keyLen.toNat + 7) / 8 + i < newKey.length
    · obtain ⟨k1, found, len1, bits1⟩ := orAt_spec newKey more (b <<< ((8 - 0) % 8).toUInt8)
      refine ⟨k1, by rw [if_pos more, found], len1, fun x => ?_⟩
      rw [bits1, placed_eq, start, aligned, byteBit_shiftLeft b (by omega) (Nat.mod_lt x (by omega))]
      by_cases here : x / 8 = (keyLen.toNat + 7) / 8 + i
      · simp [here, show x < 8 * newKey.length by omega, show x % 8 < 8 by omega]
      · simp [here]
    · refine ⟨newKey, by rw [if_neg more]; rfl, rfl, fun x => ?_⟩
      rw [placed_eq, start]
      by_cases inside : x < 8 * newKey.length
      · simp [show x / 8 ≠ (keyLen.toNat + 7) / 8 + i by omega,
          show x / 8 ≠ (keyLen.toNat + 7) / 8 + i + 1 by omega]
      · simp [inside]
  · -- Byte `b` straddles two bytes: its high bits end byte `B + i - 1`, its low bits start
    -- byte `B + i`, where `B` is the byte length of the first key.
    have nonzero : (keyLen % 8 != 0 && decide (0 < (keyLen.toNat + 7) / 8)) = true := by
      simp only [Bool.and_eq_true, bne_iff_ne, ne_eq, decide_eq_true_eq]
      refine ⟨fun zero => aligned ?_, by omega⟩
      simpa using congrArg UInt16.toNat zero
    have tail : (keyLen.toNat + 8 * i) / 8 = (keyLen.toNat + 7) / 8 + i - 1 := by omega
    have next : (keyLen.toNat + 8 * i) / 8 + 1 = (keyLen.toNat + 7) / 8 + i := by omega
    have apart : (keyLen.toNat + 7) / 8 + i - 1 ≠ (keyLen.toNat + 7) / 8 + i := by omega
    obtain ⟨k1, found1, len1, bits1⟩ :=
      orAt_spec newKey (m := (keyLen.toNat + 7) / 8 + i - 1) (by omega) (b >>> (keyLen.toNat % 8).toUInt8)
    simp only [nonzero, if_true, rshift, found1, lshift, Option.bind_eq_bind, Option.bind_some]
    by_cases more : (keyLen.toNat + 7) / 8 + i < k1.length
    · obtain ⟨k2, found2, len2, bits2⟩ :=
        orAt_spec k1 more (b <<< ((8 - keyLen.toNat % 8) % 8).toUInt8)
      refine ⟨k2, by rw [if_pos more, found2], len2.trans len1, fun x => ?_⟩
      rw [bits2, bits1, placed_eq, next, tail, Bool.or_assoc,
        byteBit_shiftRight b (by omega) (Nat.mod_lt x (by omega)),
        byteBit_shiftLeft b (by omega) (Nat.mod_lt x (by omega)),
        show (8 - keyLen.toNat % 8) % 8 = 8 - keyLen.toNat % 8 by omega]
      by_cases here : x / 8 = (keyLen.toNat + 7) / 8 + i - 1
      · simp [here, apart, show x < 8 * newKey.length by omega]
      · by_cases there : x / 8 = (keyLen.toNat + 7) / 8 + i
        · have low : x % 8 + 8 - keyLen.toNat % 8 < 8 ↔ x % 8 < keyLen.toNat % 8 := by omega
          simp [there, apart.symm, low, show x < 8 * newKey.length by omega,
            show x % 8 + (8 - keyLen.toNat % 8) = x % 8 + 8 - keyLen.toNat % 8 by omega]
        · simp [here, there]
    · refine ⟨k1, by rw [if_neg more]; rfl, len1, fun x => ?_⟩
      rw [bits1, placed_eq, next, tail, byteBit_shiftRight b (by omega) (Nat.mod_lt x (by omega))]
      by_cases here : x / 8 = (keyLen.toNat + 7) / 8 + i - 1
      · simp [here, apart, show x < 8 * newKey.length by omega]
      · by_cases inside : x < 8 * newKey.length
        · simp [here, show x / 8 ≠ (keyLen.toNat + 7) / 8 + i by omega]
        · simp [here, inside]

theorem placed_getElem (keyLen : Nat) (k2 : Key) {i : Nat} (hi : i < k2.length) (x : Nat) :
    placed keyLen i k2[i] x =
      (decide (keyLen + 8 * i ≤ x) && decide (x < keyLen + 8 * i + 8) && bitAt k2 (x - keyLen)) := by
  unfold placed
  by_cases inside : keyLen + 8 * i ≤ x ∧ x < keyLen + 8 * i + 8
  · rw [bitAt_eq_byteBit k2 (by omega)]
    simp [inside, show (x - keyLen) / 8 = i by omega, show (x - keyLen) % 8 = x - keyLen - 8 * i by omega]
  · have outside : (decide (keyLen + 8 * i ≤ x) && decide (x < keyLen + 8 * i + 8)) = false := by
      simp only [Bool.and_eq_false_iff, decide_eq_false_iff_not]
      omega
    rw [outside, Bool.false_and, Bool.false_and]

theorem mergeLoop_spec (keyLen : Depth) (k2 : Key) (base : Nat → Bool) :
    ∀ (rest : List UInt8) (i : Nat) (newKey : Key), k2.drop i = rest → i ≤ k2.length →
      (keyLen.toNat + 7) / 8 + k2.length ≤ newKey.length + 1 →
      (∀ x, bitAt newKey x = (decide (x < 8 * newKey.length) && (base x ||
        (decide (keyLen.toNat ≤ x) && decide (x < keyLen.toNat + 8 * i) &&
          bitAt k2 (x - keyLen.toNat))))) →
      ∃ merged, Key.mergeLoop keyLen ((keyLen.toNat + 7) / 8) newKey i rest = some merged ∧
        merged.length = newKey.length ∧
        ∀ x, bitAt merged x = (decide (x < 8 * newKey.length) && (base x ||
          (decide (keyLen.toNat ≤ x) && decide (x < keyLen.toNat + 8 * k2.length) &&
            bitAt k2 (x - keyLen.toNat)))) := by
  intro rest
  induction rest with
  | nil =>
    intro i newKey done bound _ bits
    have last : i = k2.length := by
      have := congrArg List.length done
      simp at this
      omega
    exact ⟨newKey, rfl, rfl, last ▸ bits⟩
  | cons b rest ih =>
    intro i newKey current bound room bits
    have inside : i < k2.length := by
      have := congrArg List.length current
      simp at this
      omega
    have byte : k2[i] = b := by
      have := congrArg List.head? current
      simpa [List.head?_drop, List.getElem?_eq_getElem inside] using this
    have later : k2.drop (i + 1) = rest := by
      rw [← List.drop_drop, current, List.drop_one, List.tail_cons]
    obtain ⟨stepped, found, length, stepBits⟩ :=
      mergeStep_spec keyLen newKey i b (by omega)
    obtain ⟨merged, loop, mergedLength, mergedBits⟩ :=
      ih (i + 1) stepped later (by omega) (by omega) (fun x => by
        rw [stepBits, bits, ← byte, placed_getElem _ _ inside, length]
        by_cases before : x < keyLen.toNat + 8 * i
        · simp [before, show x < keyLen.toNat + 8 * (i + 1) by omega,
            show ¬ keyLen.toNat + 8 * i ≤ x by omega]
        · by_cases within : x < keyLen.toNat + 8 * (i + 1)
          · simp [before, within, Bool.and_or_distrib_left, show keyLen.toNat ≤ x by omega,
              show keyLen.toNat + 8 * i ≤ x by omega, show x < keyLen.toNat + 8 * i + 8 by omega]
          · simp [before, within, show ¬ x < keyLen.toNat + 8 * i + 8 by omega])
    refine ⟨merged, ?_, mergedLength.trans length, ?_⟩
    · simp only [Key.mergeLoop, found, Option.bind_eq_bind, Option.bind_some, loop]
    · rw [← length]
      exact mergedBits

theorem getD_append_false (p q : List Bool) (x : Nat) :
    (p ++ q).getD x false = if x < p.length then p.getD x false else q.getD (x - p.length) false := by
  simp only [List.getD_eq_getElem?_getD]
  split
  · rename_i low
    rw [List.getElem?_append_left low]
  · rename_i high
    rw [List.getElem?_append_right (by omega)]

/-- `Merge` of two encoded bit strings, given their exact bit lengths, encodes their
concatenation, as long as the total stays a `Depth`. -/
theorem Key.Encodes.merge {k k2 : Key} {p q : List Bool} (hk : k.Encodes p) (hk2 : k2.Encodes q)
    (keyLen k2Len : Depth) (hp : keyLen.toNat = p.length) (hq : k2Len.toNat = q.length)
    (fits : p.length + q.length < 2 ^ 16) :
    ∃ merged, k.merge keyLen k2 k2Len = some merged ∧ merged.Encodes (p ++ q) := by
  have bytes : keyLen.toNat / 8 + (if keyLen % 8 != 0 then 1 else 0) = (keyLen.toNat + 7) / 8 := by
    by_cases aligned : keyLen.toNat % 8 = 0
    · have zero : keyLen % 8 = 0 := UInt16.toNat_inj.mp (by simpa using aligned)
      simp only [zero, bne_self_eq_false, Bool.false_eq_true, if_false]
      omega
    · have nonzero : (keyLen % 8 != 0) = true := by
        simp only [bne_iff_ne, ne_eq]
        exact fun zero => aligned (by simpa using congrArg UInt16.toNat zero)
      simp only [nonzero, if_true]
      omega
  have total : Depth.toBytes (keyLen + k2Len) = (p.length + q.length + 7) / 8 := by
    rw [toBytes_eq, UInt16.toNat_add, hp, hq, Nat.mod_eq_of_lt fits]
  have length : k.length = (keyLen.toNat + 7) / 8 := by rw [hk.1, hp]
  unfold Key.merge
  simp only [bytes, total]
  rw [if_neg (by omega), List.take_of_length_le (by omega)]
  obtain ⟨merged, loop, mergedLength, bits⟩ :=
    mergeLoop_spec keyLen k2 (fun x => p.getD x false) k2 0
      (copyInto (List.replicate ((p.length + q.length + 7) / 8) 0) k) rfl (by omega)
      (by rw [length_copyInto_replicate, hk2.1]; omega)
      (fun x => by
        have empty : (decide (keyLen.toNat ≤ x) && decide (x < keyLen.toNat + 8 * 0)) = false := by
          simp only [Bool.and_eq_false_iff, decide_eq_false_iff_not]
          omega
        rw [bitAt_copyInto_replicate, length_copyInto_replicate, hk.2, empty, Bool.false_and,
          Bool.or_false])
  refine ⟨merged, loop, ?_, fun x => ?_⟩
  · rw [mergedLength, length_copyInto_replicate, List.length_append]
  · rw [bits, length_copyInto_replicate, getD_append_false, hk2.2, hp]
    by_cases first : x < p.length
    · simp [first, show x < 8 * ((p.length + q.length + 7) / 8) by omega]
    · have rest : p.getD x false = false := by
        rw [List.getD_eq_getElem?_getD, List.getElem?_eq_none (by omega), Option.getD_none]
      by_cases within : x < p.length + q.length
      · simp [first, show x < 8 * ((p.length + q.length + 7) / 8) by omega,
          show x < p.length + 8 * k2.length by rw [hk2.1]; omega, show p.length ≤ x by omega]
      · have beyond : q.getD (x - p.length) false = false := by
          rw [List.getD_eq_getElem?_getD, List.getElem?_eq_none (by omega), Option.getD_none]
        rw [if_neg first, rest, beyond]
        simp

theorem getD_or_of_prefix {r q : List Bool} (hr : r <+: q) (i : Nat) :
    (r.getD i false || q.getD i false) = q.getD i false := by
  obtain ⟨t, rfl⟩ := hr
  rw [getD_append_false]
  split
  · simp
  · rename_i beyond
    rw [List.getD_eq_getElem?_getD, List.getElem?_eq_none (by omega), Option.getD_none, Bool.false_or]

theorem Key.Encodes.merge_of_prefix {k k2 : Key} {p r q : List Bool} (hk : k.Encodes (p ++ r))
    (hr : r <+: q) (hk2 : k2.Encodes q) (keyLen k2Len : Depth) (hp : keyLen.toNat = p.length)
    (hq : k2Len.toNat = q.length) (fits : p.length + q.length < 2 ^ 16) :
    ∃ merged, k.merge keyLen k2 k2Len = some merged ∧ merged.Encodes (p ++ q) := by
  have bytes : keyLen.toNat / 8 + (if keyLen % 8 != 0 then 1 else 0) = (keyLen.toNat + 7) / 8 := by
    by_cases aligned : keyLen.toNat % 8 = 0
    · have zero : keyLen % 8 = 0 := UInt16.toNat_inj.mp (by simpa using aligned)
      simp only [zero, bne_self_eq_false, Bool.false_eq_true, if_false]
      omega
    · have nonzero : (keyLen % 8 != 0) = true := by
        simp only [bne_iff_ne, ne_eq]
        exact fun zero => aligned (by simpa using congrArg UInt16.toNat zero)
      simp only [nonzero, if_true]
      omega
  have total : Depth.toBytes (keyLen + k2Len) = (p.length + q.length + 7) / 8 := by
    rw [toBytes_eq, UInt16.toNat_add, hp, hq, Nat.mod_eq_of_lt fits]
  have shorter := hr.length_le
  have length : (keyLen.toNat + 7) / 8 ≤ k.length := by
    rw [hk.1, hp, List.length_append]
    omega
  unfold Key.merge
  simp only [bytes, total]
  rw [if_neg (by omega)]
  -- The copied bytes hold the bits of `p ++ r` up to the byte boundary after `p`.
  obtain ⟨merged, loop, mergedLength, bits⟩ :=
    mergeLoop_spec keyLen k2
      (fun x => decide (x < 8 * ((keyLen.toNat + 7) / 8)) && (p ++ r).getD x false) k2 0
      (copyInto (List.replicate ((p.length + q.length + 7) / 8) 0) (k.take ((keyLen.toNat + 7) / 8)))
      rfl (by omega) (by rw [length_copyInto_replicate, hk2.1]; omega)
      (fun x => by
        have empty : (decide (keyLen.toNat ≤ x) && decide (x < keyLen.toNat + 8 * 0)) = false := by
          simp only [Bool.and_eq_false_iff, decide_eq_false_iff_not]
          omega
        rw [bitAt_copyInto_replicate, length_copyInto_replicate, bitAt_take, hk.2, empty,
          Bool.false_and, Bool.or_false])
  refine ⟨merged, loop, ?_, fun x => ?_⟩
  · rw [mergedLength, length_copyInto_replicate, List.length_append]
  · rw [bits, length_copyInto_replicate, getD_append_false, getD_append_false, hk2.2, hp]
    by_cases first : x < p.length
    · simp [first, show x < 8 * ((p.length + 7) / 8) by omega,
        show x < 8 * ((p.length + q.length + 7) / 8) by omega]
    · have rest : p.getD x false = false := by
        rw [List.getD_eq_getElem?_getD, List.getElem?_eq_none (by omega), Option.getD_none]
      by_cases within : x < p.length + q.length
      · have agree := getD_or_of_prefix hr (x - p.length)
        simp only [List.getD_eq_getElem?_getD] at agree
        by_cases copied : x < 8 * ((p.length + 7) / 8)
        · simp [first, copied, show x < 8 * ((p.length + q.length + 7) / 8) by omega,
            show x < p.length + 8 * k2.length by rw [hk2.1]; omega, show p.length ≤ x by omega]
          intro set
          simpa [set] using agree
        · simp [first, copied, show x < 8 * ((p.length + q.length + 7) / 8) by omega,
            show x < p.length + 8 * k2.length by rw [hk2.1]; omega, show p.length ≤ x by omega]
      · have beyond : q.getD (x - p.length) false = false := by
          rw [List.getD_eq_getElem?_getD, List.getElem?_eq_none (by omega), Option.getD_none]
        have beyondR : r.getD (x - p.length) false = false := by
          rw [List.getD_eq_getElem?_getD, List.getElem?_eq_none (by omega), Option.getD_none]
        rw [if_neg first, if_neg first, beyond, beyondR]
        simp

theorem Key.Encodes.appendBit {k : Key} {p : List Bool} (hk : k.Encodes p) (keyLen : Depth)
    (hp : keyLen.toNat = p.length) (fits : p.length + 1 < 2 ^ 16) (val : Bool) :
    ∃ extended, k.appendBit keyLen val = some extended ∧ extended.Encodes (p ++ [val]) := by
  have len : Depth.toBytes (keyLen + 1) = (p.length + 8) / 8 := by
    rw [toBytes_eq, UInt16.toNat_add, hp]
    simp
    omega
  have index : (keyLen / 8).toNat = p.length / 8 := by simp [hp]
  have shift : (keyLen % 8).toUInt8 = (p.length % 8).toUInt8 := by
    rw [toUInt8_of_depth]
    simp [hp]
  have mask (j : Nat) (hj : j < 8) : byteBit ((0x80 : UInt8) >>> (p.length % 8).toUInt8) j =
      decide (j = p.length % 8) := by
    rw [byteBit_shiftRight _ (by omega) hj, byteBit_highBit (by omega)]
    by_cases low : p.length % 8 ≤ j
    · simp [low]
      omega
    · simp [low]
      omega
  unfold Key.appendBit
  simp only [len, shift, index, length_copyInto_replicate]
  rw [if_neg (by rw [hk.1]; omega), if_pos (by omega)]
  refine ⟨_, rfl, by rw [List.length_modify, length_copyInto_replicate]; simp; omega, fun x => ?_⟩
  have old (y : Nat) : bitAt (copyInto (List.replicate ((p.length + 8) / 8) 0) k) y =
      (decide (y < 8 * ((p.length + 8) / 8)) && p.getD y false) := by
    rw [bitAt_copyInto_replicate, hk.2]
  rw [bitAt_modify _ _ _ (by rw [length_copyInto_replicate]; omega), getD_append_false]
  split
  · -- The byte holding bit `p.length`: only that bit changes.
    rename_i here
    have bound : p.length / 8 < (copyInto (List.replicate ((p.length + 8) / 8) 0) k).length := by
      rw [length_copyInto_replicate]
      omega
    have byte : byteBit (copyInto (List.replicate ((p.length + 8) / 8) 0) k)[p.length / 8] (x % 8) =
        (decide (x < 8 * ((p.length + 8) / 8)) && p.getD x false) := by
      rw [← old, bitAt, List.getD_eq_getElem?_getD, here, List.getElem?_eq_getElem, Option.getD_some]
    have bit := mask (x % 8) (Nat.mod_lt x (by omega))
    have inside : x < 8 * ((p.length + 8) / 8) := by omega
    cases val
    · simp only [Bool.false_eq_true, if_false]
      rw [byteBit_and, byteBit_complement _ (Nat.mod_lt x (by omega)), bit, byte,
        decide_eq_true inside, Bool.true_and]
      by_cases before : x < p.length
      · simp [before, show x % 8 ≠ p.length % 8 by omega]
      · simp [before]
    · simp only [if_true]
      rw [byteBit_or, bit, byte, decide_eq_true inside, Bool.true_and]
      by_cases before : x < p.length
      · simp [before, show x % 8 ≠ p.length % 8 by omega]
      · by_cases at_end : x = p.length
        · simp [at_end]
        · simp [before, show x % 8 ≠ p.length % 8 by omega,
            show x - p.length ≠ 0 by omega]
  · rename_i other
    rw [old]
    by_cases before : x < p.length
    · rw [if_pos before, decide_eq_true (show x < 8 * ((p.length + 8) / 8) by omega), Bool.true_and]
    · simp [before, show x - p.length ≠ 0 by omega]

/-- `AppendBit` sets bit `keyLen` and keeps every other bit of the key within its new length,
as long as the key is no longer than that length. -/
theorem appendBit_spec (k : Key) (keyLen : Depth) (short : k.length ≤ Depth.toBytes (keyLen + 1))
    (fits : keyLen.toNat + 1 < 2 ^ 16) (val : Bool) :
    ∃ extended, k.appendBit keyLen val = some extended ∧ extended.length = (keyLen.toNat + 8) / 8 ∧
      ∀ x, bitAt extended x =
        if x = keyLen.toNat then val else (decide (x < 8 * ((keyLen.toNat + 8) / 8)) && bitAt k x) := by
  have len : Depth.toBytes (keyLen + 1) = (keyLen.toNat + 8) / 8 := by
    rw [toBytes_eq, UInt16.toNat_add]
    simp
    omega
  have shift : (keyLen % 8).toUInt8 = (keyLen.toNat % 8).toUInt8 := by
    rw [toUInt8_of_depth]
    simp
  have mask (j : Nat) (hj : j < 8) : byteBit ((0x80 : UInt8) >>> (keyLen.toNat % 8).toUInt8) j =
      decide (j = keyLen.toNat % 8) := by
    rw [byteBit_shiftRight _ (by omega) hj, byteBit_highBit (by omega)]
    by_cases low : keyLen.toNat % 8 ≤ j
    · simp [low]
      omega
    · simp [low]
      omega
  have index : (keyLen / 8).toNat = keyLen.toNat / 8 := by simp
  rw [len] at short
  unfold Key.appendBit
  simp only [len, shift, index, length_copyInto_replicate]
  rw [if_neg (by omega), if_pos (by omega)]
  refine ⟨_, rfl, by rw [List.length_modify, length_copyInto_replicate], fun x => ?_⟩
  rw [bitAt_modify _ _ _ (by rw [length_copyInto_replicate]; omega)]
  split
  · -- The byte holding bit `keyLen`: only that bit changes.
    rename_i here
    have bound : keyLen.toNat / 8 < (copyInto (List.replicate ((keyLen.toNat + 8) / 8) 0) k).length := by
      rw [length_copyInto_replicate]
      omega
    have byte : byteBit (copyInto (List.replicate ((keyLen.toNat + 8) / 8) 0) k)[keyLen.toNat / 8] (x % 8) =
        (decide (x < 8 * ((keyLen.toNat + 8) / 8)) && bitAt k x) := by
      rw [← bitAt_copyInto_replicate, bitAt, List.getD_eq_getElem?_getD, here, List.getElem?_eq_getElem,
        Option.getD_some]
    have bit := mask (x % 8) (Nat.mod_lt x (by omega))
    cases val
    · simp only [Bool.false_eq_true, if_false]
      rw [byteBit_and, byteBit_complement _ (Nat.mod_lt x (by omega)), bit, byte]
      by_cases at_end : x = keyLen.toNat
      · simp [at_end]
      · simp [at_end, show x % 8 ≠ keyLen.toNat % 8 by omega]
    · simp only [if_true]
      rw [byteBit_or, bit, byte]
      by_cases at_end : x = keyLen.toNat
      · simp [at_end]
      · simp [at_end, show x % 8 ≠ keyLen.toNat % 8 by omega]
  · rename_i other
    rw [bitAt_copyInto_replicate, if_neg (by omega)]

/-- Splitting a key of `L` bits at `sp` and merging the parts back gives the key's first
`L.ToBytes()` bytes, when its bits from `L` on are zero. -/
theorem split_merge (k : Key) (fits : 8 * k.length < 2 ^ 16) {sp L : Depth} (hsp : sp ≤ L)
    (hL : L.toNat ≤ 8 * k.length) (zero : ∀ i, L.toNat ≤ i → bitAt k i = false) :
    ∃ pre suf, k.split sp L = some (pre, suf) ∧
      pre.merge sp suf (L - sp) = some (k.take (Depth.toBytes L)) := by
  have order := UInt16.le_iff_toNat_le.mp hsp
  have whole := Key.Encodes.take_of_zero hL zero
  obtain ⟨pre, suf, split, preBits, sufLen, sufBits⟩ := split_spec k sp L hsp hL fits
  -- The two parts encode the bits before `sp` and the bits from `sp` to `L`.
  have preEnc : pre.Encodes (((ofBytes k).take L.toNat).take sp.toNat) := by
    rwa [List.take_take, Nat.min_eq_left order]
  have sufEnc : suf.Encodes (((ofBytes k).take L.toNat).drop sp.toNat) := by
    refine ⟨by simp [sufLen]; omega, fun i => ?_⟩
    rw [List.getD_eq_getElem?_getD, List.getElem?_drop, List.getElem?_take, getElem?_ofBytes]
    by_cases inside : i < 8 * suf.length
    · rw [sufBits i inside]
      by_cases low : sp.toNat + i < L.toNat
      · simp [low, show sp.toNat + i < 8 * k.length by omega]
      · simp [low, zero (sp.toNat + i) (by omega)]
    · rw [Bits.bitAt_of_le suf (by omega)]
      simp [show ¬ sp.toNat + i < L.toNat by omega]
  obtain ⟨merged, merge, mergedEnc⟩ := Key.Encodes.merge preEnc sufEnc sp (L - sp)
    (by simp; omega) (by simp [UInt16.toNat_sub_of_le _ _ hsp]; omega) (by simp; omega)
  rw [List.take_append_drop] at mergedEnc
  refine ⟨pre, suf, split, ?_⟩
  rw [merge, toBytes_eq, mergedEnc.unique whole]

theorem split_merge_commonPrefixLen_appendBit (k : Key) (fits : 8 * k.length < 2 ^ 16) {sp L : Depth}
    (hsp : sp ≤ L) (hL : L.toNat ≤ 8 * k.length) (zero : ∀ i, L.toNat ≤ i → bitAt k i = false) :
    (∃ pre suf, k.split sp L = some (pre, suf) ∧
      pre.merge sp suf (L - sp) = some (k.take (Depth.toBytes L))) ∧
    (∀ a b : Key, 8 * a.length < 2 ^ 16 → 8 * b.length < 2 ^ 16 → ∀ la lb : Depth,
      ∃ c, a.commonPrefixLen la b lb = some c ∧
        c.toNat = lcp ((ofBytes a).take la.toNat) ((ofBytes b).take lb.toNat)) ∧
    (k.length ≤ Depth.toBytes (L + 1) → ∀ val, ∃ extended, k.appendBit L val = some extended ∧
      bitAt extended L.toNat = val ∧ ∀ i < L.toNat, bitAt extended i = bitAt k i) := by
  refine ⟨split_merge k fits hsp hL zero, fun a b fitsA fitsB la lb => commonPrefixLen_eq_lcp_take a b la lb fitsA fitsB,
    fun short val => ?_⟩
  obtain ⟨extended, appended, -, bits⟩ := appendBit_spec k L short (by omega) val
  refine ⟨extended, appended, by rw [bits, if_pos rfl], fun i low => ?_⟩
  rw [bits, if_neg (by omega), decide_eq_true (by omega), Bool.true_and]

theorem split_merge_commonPrefixLen_appendBit_byte :
    8 * ([0xA0] : Key).length < 2 ^ 16 ∧ (3 : Depth) ≤ 4 ∧ (4 : Depth).toNat ≤ 8 * ([0xA0] : Key).length ∧
    (∀ i, (4 : Depth).toNat ≤ i → bitAt [0xA0] i = false) ∧
    ((∃ pre suf, Key.split [0xA0] 3 4 = some (pre, suf) ∧
      pre.merge 3 suf (4 - 3) = some (([0xA0] : Key).take (Depth.toBytes 4))) ∧
    (∀ a b : Key, 8 * a.length < 2 ^ 16 → 8 * b.length < 2 ^ 16 → ∀ la lb : Depth,
      ∃ c, a.commonPrefixLen la b lb = some c ∧
        c.toNat = lcp ((ofBytes a).take la.toNat) ((ofBytes b).take lb.toNat)) ∧
    (([0xA0] : Key).length ≤ Depth.toBytes (4 + 1) → ∀ val, ∃ extended, Key.appendBit [0xA0] 4 val = some extended ∧
      bitAt extended (4 : Depth).toNat = val ∧ ∀ i < (4 : Depth).toNat, bitAt extended i = bitAt [0xA0] i)) := by
  have zero : ∀ i, (4 : Depth).toNat ≤ i → bitAt [0xA0] i = false := by
    intro i low
    by_cases inside : i < 8
    · obtain rfl | rfl | rfl | rfl : i = 4 ∨ i = 5 ∨ i = 6 ∨ i = 7 := by
        simp only [UInt16.reduceToNat] at low
        omega
      all_goals decide
    · exact Bits.bitAt_of_le _ (by simp; omega)
  exact ⟨by decide, by decide, by decide, zero,
    split_merge_commonPrefixLen_appendBit [0xA0] (by decide) (by decide) (by decide) zero⟩

/-- `AppendBit` panics on a key longer than the bytes of the new bit length, where
`newKey[:len(k)]` slices past the new key. -/
theorem appendBit_longer_key_fails :
    8 * ([0, 0] : Key).length < 2 ^ 16 ∧ (0 : Depth).toNat ≤ 8 * ([0, 0] : Key).length ∧
      (∀ i, (0 : Depth).toNat ≤ i → bitAt [0, 0] i = false) ∧ Key.appendBit [0, 0] 0 true = none :=
  ⟨by decide, by decide, fun i _ => bitAt_replicate_zero 2 i, rfl⟩

end Orphiq.Mkvs
