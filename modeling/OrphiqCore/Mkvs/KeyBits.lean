import OrphiqCore.Mkvs.Key
import OrphiqCore.Bits.Prefix

/-!
# Keys as bit strings

`Key.Encodes k path` says that the bytes `k` hold the bit string `path`, followed by zero
bits to the end of the last byte. Edge labels, key remainders and whole keys are all such
encodings, and every key operation the tree uses is described here by what it does to the
encoded bit strings, under the bound `8 * k.length < 2 ^ 16` that keeps Go's `uint16`
depths from wrapping.
-/

namespace Orphiq.Mkvs
open Bits

theorem toBytes_eq (d : Depth) : Depth.toBytes d = (d.toNat + 7) / 8 := by
  have bound := d.toNat_lt
  unfold Depth.toBytes
  by_cases aligned : d.toNat % 8 = 0
  · have zero : d % 8 = 0 := by
      apply UInt16.toNat_inj.mp
      simpa using aligned
    simp only [zero, bne_self_eq_false, Bool.false_eq_true, if_false, UInt16.toNat_div]
    simp
    omega
  · have nonzero : (d % 8 != 0) = true := by
      simp only [bne_iff_ne, ne_eq]
      intro zero
      apply aligned
      simpa using congrArg UInt16.toNat zero
    simp only [nonzero, if_true, UInt16.toNat_add, UInt16.toNat_div]
    simp
    omega

theorem bitLength_toNat (k : Key) (fits : 8 * k.length < 2 ^ 16) :
    (Key.bitLength k).toNat = 8 * k.length := by
  simp [Key.bitLength]
  omega

/-- The bytes `k` hold the bit string `path`, padded with zero bits to a whole byte. -/
def Key.Encodes (k : Key) (path : List Bool) : Prop :=
  k.length = (path.length + 7) / 8 ∧ ∀ i, bitAt k i = path.getD i false

namespace Key.Encodes

variable {k k' : Key} {path : List Bool}

theorem length_le (h : k.Encodes path) : path.length ≤ 8 * k.length := by
  rw [h.1]
  omega

theorem unique (h : k.Encodes path) (h' : k'.Encodes path) : k = k' :=
  eq_of_bitAt k k' (h.1.trans h'.1.symm) fun i _ => by rw [h.2 i, h'.2 i]

theorem ofBytes_eq (h : k.Encodes path) :
    ofBytes k = path ++ List.replicate (8 * k.length - path.length) false := by
  have bound := h.length_le
  apply List.ext_getElem (by simp; omega)
  intro i h₁ h₂
  rw [getElem_ofBytes, h.2 i, List.getD_eq_getElem?_getD, List.getElem_append]
  split
  · rename_i low
    simp [List.getElem?_eq_getElem low]
  · rename_i high
    simp [List.getElem?_eq_none (show path.length ≤ i by omega)]

theorem take_ofBytes (h : k.Encodes path) : (ofBytes k).take path.length = path := by
  simp [h.ofBytes_eq]

theorem eq_of_length {path' : List Bool} (h : k.Encodes path) (h' : k.Encodes path')
    (length : path.length = path'.length) : path = path' := by
  rw [← h.take_ofBytes, ← h'.take_ofBytes, length]

theorem bitAt_of_lt (h : k.Encodes path) {i : Nat} (hi : i < path.length) : bitAt k i = path[i] := by
  rw [h.2 i, List.getD_eq_getElem?_getD, List.getElem?_eq_getElem hi, Option.getD_some]

theorem bitAt_of_le (h : k.Encodes path) {i : Nat} (hi : path.length ≤ i) : bitAt k i = false := by
  rw [h.2 i, List.getD_eq_getElem?_getD, List.getElem?_eq_none hi, Option.getD_none]

end Key.Encodes

theorem encodes_ofBytes (k : Key) : k.Encodes (ofBytes k) := by
  refine ⟨by simp; omega, fun i => ?_⟩
  by_cases low : i < 8 * k.length
  · rw [List.getD_eq_getElem?_getD, List.getElem?_eq_getElem (by simpa using low)]
    simp
  · rw [List.getD_eq_getElem?_getD, List.getElem?_eq_none (by simp; omega), Option.getD_none,
      Bits.bitAt_of_le k (by omega)]

/-! ### Reading one bit -/

theorem and_two_pow_ne_zero (x k : Nat) : (x &&& 2 ^ k ≠ 0) ↔ x.testBit k = true := by
  constructor
  · intro nonzero
    by_contra off
    apply nonzero
    apply Nat.eq_of_testBit_eq
    intro i
    simp only [Nat.testBit_and, Nat.testBit_two_pow, Nat.zero_testBit]
    by_cases same : k = i
    · subst same
      simpa using off
    · simp [same]
  · intro on zero
    have := congrArg (Nat.testBit · k) zero
    simp [Nat.testBit_and, on] at this

theorem mask_ne_zero (b : UInt8) {j : Nat} (hj : j < 8) :
    (b &&& ((1 : UInt8) <<< (7 - j).toUInt8) != 0) = byteBit b j := by
  have mask : ((1 : UInt8) <<< (7 - j).toUInt8).toNat = 2 ^ (7 - j) := by
    have small : (7 - j) % 256 % 8 = 7 - j := by omega
    have lt : 2 ^ (7 - j) < 2 ^ 8 := Nat.pow_lt_pow_right (by decide) (by omega)
    simp [small, Nat.shiftLeft_eq]
    omega
  have iff := and_two_pow_ne_zero b.toNat (7 - j)
  rw [← mask, ← UInt8.toNat_and] at iff
  rw [byteBit]
  by_cases on : b.toNat.testBit (7 - j) = true
  · have : b &&& (1 : UInt8) <<< (7 - j).toUInt8 ≠ 0 := fun zero => (iff.mpr on) (by simp [zero])
    simp [this, on]
  · have : b &&& (1 : UInt8) <<< (7 - j).toUInt8 = 0 := by
      apply UInt8.toNat_inj.mp
      by_contra nonzero
      exact on (iff.mp (by simpa using nonzero))
    simp only [this, bne_self_eq_false]
    simpa using on

theorem toUInt8_of_depth (x : Depth) : x.toUInt8 = x.toNat.toUInt8 := by
  apply UInt8.toNat_inj.mp
  simp

theorem getBit_eq (k : Key) (bit : Depth) (h : bit.toNat < 8 * k.length) :
    k.getBit bit = some (bitAt k bit.toNat) := by
  have index : (bit / 8).toNat = bit.toNat / 8 := by simp
  have shift : (7 - bit % 8).toUInt8 = (7 - bit.toNat % 8).toUInt8 := by
    apply UInt8.toNat_inj.mp
    have low : bit % 8 ≤ 7 := UInt16.le_iff_toNat_le.mpr (by simp; omega)
    have sub : (7 - bit % 8).toNat = 7 - bit.toNat % 8 := by
      rw [UInt16.toNat_sub_of_le _ _ low]
      simp
    rw [UInt16.toNat_toUInt8, sub]
    simp
  unfold Key.getBit
  rw [index, List.getElem?_eq_getElem (by omega), Option.map_some, shift,
    mask_ne_zero _ (Nat.mod_lt _ (by decide)), bitAt_eq_byteBit k (by omega)]

theorem getBit_of_le (k : Key) (bit : Depth) (h : 8 * k.length ≤ bit.toNat) : k.getBit bit = none := by
  unfold Key.getBit
  rw [show (bit / 8).toNat = bit.toNat / 8 by simp, List.getElem?_eq_none (by omega), Option.map_none]

theorem Key.Encodes.getBit_eq {k : Key} {path : List Bool} (h : k.Encodes path) (bit : Depth)
    (hi : bit.toNat < path.length) : k.getBit bit = some path[bit.toNat] := by
  rw [Orphiq.Mkvs.getBit_eq k bit (by have := h.length_le; omega), h.bitAt_of_lt hi]

/-! ### Splitting -/

theorem length_copyInto_replicate (n : Nat) (src : List UInt8) :
    (copyInto (List.replicate n 0) src).length = n := by
  simp [copyInto]
  omega

theorem bitAt_copyInto_replicate (n : Nat) (src : List UInt8) (i : Nat) :
    bitAt (copyInto (List.replicate n 0) src) i = (decide (i < 8 * n) && bitAt src i) := by
  simp only [copyInto, List.length_replicate, List.drop_replicate, bitAt_append, bitAt_take,
    bitAt_replicate_zero, List.length_take]
  split
  · rfl
  · rename_i outside
    by_cases low : i < 8 * n
    · simp [low, Bits.bitAt_of_le src (show 8 * src.length ≤ i by omega)]
    · simp [low]

theorem splitSuffixByte_spec (k : Key) (sp : Depth) (i : Nat) (fits : 8 * k.length < 2 ^ 16)
    (inside : 8 * i + sp.toNat < 8 * k.length) :
    ∃ b, k.splitSuffixByte sp i.toUInt16 = some b ∧
      ∀ j < 8, byteBit b j = bitAt k (sp.toNat + 8 * i + j) := by
  have spBound := sp.toNat_lt
  have index : (i.toUInt16 + sp / 8).toNat = i + sp.toNat / 8 := by
    simp
    omega
  have next : (i.toUInt16 + sp / 8 + 1).toNat = i + sp.toNat / 8 + 1 := by
    simp
    omega
  have left : ((sp % 8).toUInt8) = (sp.toNat % 8).toUInt8 := toUInt8_of_depth _
  have right : ((8 - sp % 8).toUInt8) = (8 - sp.toNat % 8).toUInt8 := by
    have low : sp % 8 ≤ 8 := UInt16.le_iff_toNat_le.mpr (by simp; omega)
    rw [toUInt8_of_depth _,
      UInt16.toNat_sub_of_le _ _ low]
    simp
  unfold Key.splitSuffixByte
  rw [index, List.getElem?_eq_getElem (by omega)]
  simp only [bind, Option.bind_some, left]
  -- The bits of `k` from `sp + 8 * i` lie in bytes `m` and `m + 1`.
  have low : ∀ j < 8, j + sp.toNat % 8 < 8 →
      bitAt k (sp.toNat + 8 * i + j) = byteBit k[i + sp.toNat / 8] (j + sp.toNat % 8) := by
    intro j hj fits'
    rw [bitAt_eq_byteBit k (by omega)]
    congr 2 <;> omega
  split
  · rename_i cond
    simp only [Bool.and_eq_true, bne_iff_ne, ne_eq] at cond
    obtain ⟨shifted, notLast⟩ := cond
    have shifted' : sp.toNat % 8 ≠ 0 := fun zero => shifted (UInt16.toNat_inj.mp (by simpa using zero))
    have notLast' : i + sp.toNat / 8 + 1 ≠ k.length := by
      intro last
      apply notLast
      apply UInt16.toNat_inj.mp
      rw [next]
      simp
      omega
    rw [next, List.getElem?_eq_getElem (by omega)]
    refine ⟨_, rfl, fun j hj => ?_⟩
    rw [right, byteBit_or, byteBit_shiftLeft _ (by omega) hj, byteBit_shiftRight _ (by omega) hj]
    by_cases inLow : j + sp.toNat % 8 < 8
    · simp [inLow, show ¬ 8 - sp.toNat % 8 ≤ j by omega, low j hj inLow]
    · rw [bitAt_eq_byteBit k (by omega)]
      simp [inLow, show 8 - sp.toNat % 8 ≤ j by omega]
      congr 2 <;> omega
  · rename_i cond
    refine ⟨_, rfl, fun j hj => ?_⟩
    rw [byteBit_shiftLeft _ (by omega) hj]
    by_cases inLow : j + sp.toNat % 8 < 8
    · simp [inLow, low j hj inLow]
    · -- A byte that needs bits past byte `m` only arises at the end of the key.
      have last : i + sp.toNat / 8 + 1 = k.length := by
        simp only [Bool.and_eq_true, bne_iff_ne, ne_eq, not_and, Decidable.not_not] at cond
        have shifted : sp % 8 ≠ 0 := fun zero => by
          have := congrArg UInt16.toNat zero
          simp at this
          omega
        have := congrArg UInt16.toNat (cond shifted)
        rw [next] at this
        simp at this
        omega
      simp [inLow, Bits.bitAt_of_le k (show 8 * k.length ≤ sp.toNat + 8 * i + j by omega)]

theorem mapM_some_spec {α β : Type} (f : α → Option β) (P : α → β → Prop) (l : List α)
    (h : ∀ x ∈ l, ∃ y, f x = some y ∧ P x y) :
    ∃ ys, l.mapM f = some ys ∧ ∃ same : ys.length = l.length,
      ∀ i (hi : i < l.length), P l[i] ys[i] := by
  induction l with
  | nil => exact ⟨[], rfl, rfl, fun i hi => absurd hi (by simp)⟩
  | cons x rest ih =>
    obtain ⟨y, hy, py⟩ := h x (by simp)
    obtain ⟨ys, hys, same, pys⟩ := ih fun x' mem => h x' (by simp [mem])
    refine ⟨y :: ys, by simp [hy, hys], by simp [same], fun i hi => ?_⟩
    cases i with
    | zero => exact py
    | succ i => exact pys i (by simpa using hi)

theorem split_spec (k : Key) (sp L : Depth) (hsp : sp ≤ L) (hL : L.toNat ≤ 8 * k.length)
    (fits : 8 * k.length < 2 ^ 16) :
    ∃ pre suf, k.split sp L = some (pre, suf) ∧ pre.Encodes ((ofBytes k).take sp.toNat) ∧
      suf.length = (L.toNat - sp.toNat + 7) / 8 ∧
      ∀ i < 8 * suf.length, bitAt suf i = bitAt k (sp.toNat + i) := by
  have order : sp.toNat ≤ L.toNat := UInt16.le_iff_toNat_le.mp hsp
  have suffixLen : Depth.toBytes (L - sp) = (L.toNat - sp.toNat + 7) / 8 := by
    rw [toBytes_eq, UInt16.toNat_sub_of_le _ _ hsp]
  obtain ⟨suf, hsuf, same, bytes⟩ := mapM_some_spec (fun i => Key.splitSuffixByte k sp i.toUInt16)
    (fun i b => ∀ j < 8, byteBit b j = bitAt k (sp.toNat + 8 * i + j))
    (List.range (Depth.toBytes (L - sp))) fun i mem => by
      rw [List.mem_range, suffixLen] at mem
      exact splitSuffixByte_spec k sp i fits (by omega)
  unfold Key.split
  split
  · rename_i wrong
    have := UInt16.lt_iff_toNat_lt.mp wrong
    omega
  simp only [bind, hsuf, Option.bind_some]
  refine ⟨_, suf, rfl, ?_, by rw [same, List.length_range, suffixLen], fun i hi => ?_⟩
  · have prefixLen : Depth.toBytes sp = (sp.toNat + 7) / 8 := toBytes_eq sp
    have copiedLen := length_copyInto_replicate (Depth.toBytes sp) k
    have takeLen : (List.take sp.toNat (ofBytes k)).length = sp.toNat := by simp; omega
    have target : ∀ x, (List.take sp.toNat (ofBytes k)).getD x false =
        (decide (x < sp.toNat) && bitAt k x) := by
      intro x
      by_cases low : x < sp.toNat
      · rw [List.getD_eq_getElem?_getD, List.getElem?_take, if_pos low, getElem?_ofBytes,
          if_pos (by omega)]
        simp [low]
      · rw [List.getD_eq_getElem?_getD, List.getElem?_eq_none (by omega)]
        simp [low]
    split
    · rename_i shifted
      have shifted' : sp.toNat % 8 ≠ 0 := by
        intro zero
        simp only [bne_iff_ne, ne_eq] at shifted
        exact shifted (UInt16.toNat_inj.mp (by simpa using zero))
      have maskShift : (8 - sp % 8).toUInt8 = (8 - sp.toNat % 8).toUInt8 := by
        have low : sp % 8 ≤ 8 := UInt16.le_iff_toNat_le.mpr (by simp; omega)
        rw [toUInt8_of_depth _,
          UInt16.toNat_sub_of_le _ _ low]
        simp
      refine ⟨by rw [List.length_modify, copiedLen, prefixLen, takeLen], fun x => ?_⟩
      rw [target, bitAt_modify _ _ _ (by omega)]
      split
      · rename_i last
        have read := bitAt_eq_byteBit (copyInto (List.replicate (Depth.toBytes sp) 0) k)
          (i := x) (by omega)
        rw [bitAt_copyInto_replicate] at read
        simp only [last] at read
        rw [maskShift, byteBit_and, ← read,
          byteBit_shiftLeft _ (by omega) (Nat.mod_lt _ (by decide))]
        have full : ∀ y, byteBit 255 y = true := by
          intro y
          simp only [byteBit, show (255 : UInt8).toNat = 2 ^ 8 - 1 from rfl, Nat.testBit_two_pow_sub_one]
          simp
          omega
        rw [full, Bool.and_true]
        by_cases low : x < sp.toNat
        · simp [low, show x < 8 * Depth.toBytes sp by omega,
            show x % 8 + (8 - sp.toNat % 8) < 8 by omega]
        · simp [low, show ¬ x % 8 + (8 - sp.toNat % 8) < 8 by omega]
      · rename_i other
        rw [bitAt_copyInto_replicate]
        by_cases low : x < sp.toNat
        · simp [low, show x < 8 * Depth.toBytes sp by omega]
        · simp [low, show ¬ x < 8 * Depth.toBytes sp by omega]
    · rename_i aligned
      have aligned' : sp.toNat % 8 = 0 := by
        simp only [bne_iff_ne, ne_eq, Decidable.not_not] at aligned
        simpa using congrArg UInt16.toNat aligned
      refine ⟨by rw [copiedLen, prefixLen, takeLen], fun x => ?_⟩
      rw [target, bitAt_copyInto_replicate, prefixLen,
        show 8 * ((sp.toNat + 7) / 8) = sp.toNat by omega]
  · have outer : i / 8 < (List.range (L - sp).toBytes).length := by
      rw [← same]
      omega
    rw [bitAt_eq_byteBit suf (by omega), bytes (i / 8) outer (i % 8) (Nat.mod_lt _ (by decide)),
      List.getElem_range]
    congr 1
    omega

theorem split_remainder (k : Key) (d : Depth) (fits : 8 * k.length < 2 ^ 16)
    (hd : d.toNat ≤ 8 * k.length) :
    ∃ pre rem, k.split d (Key.bitLength k) = some (pre, rem) ∧
      rem.Encodes ((ofBytes k).drop d.toNat) := by
  have full := bitLength_toNat k fits
  obtain ⟨pre, rem, split, -, remLen, bits⟩ :=
    split_spec k d (Key.bitLength k) (UInt16.le_iff_toNat_le.mpr (by omega)) (by omega) fits
  refine ⟨pre, rem, split, by simp [remLen, full], fun i => ?_⟩
  by_cases inside : i < 8 * rem.length
  · rw [bits i inside, List.getD_eq_getElem?_getD, List.getElem?_drop, getElem?_ofBytes]
    split
    · rfl
    · rename_i past
      simp [Bits.bitAt_of_le k (show 8 * k.length ≤ d.toNat + i by omega)]
  · rw [Bits.bitAt_of_le rem (by omega), List.getD_eq_getElem?_getD,
      List.getElem?_eq_none (by simp; omega), Option.getD_none]

/-- Splitting an encoded bit string at `cp` encodes its two parts. -/
theorem Key.Encodes.split {k : Key} {path : List Bool} (h : k.Encodes path)
    (fits : 8 * k.length < 2 ^ 16) (cp L : Depth) (hL : L.toNat = path.length) (hcp : cp ≤ L) :
    ∃ pre suf, k.split cp L = some (pre, suf) ∧ pre.Encodes (path.take cp.toNat) ∧
      suf.Encodes (path.drop cp.toNat) := by
  have bound := h.length_le
  have order := UInt16.le_iff_toNat_le.mp hcp
  obtain ⟨pre, suf, split, preBits, sufLen, sufBits⟩ := split_spec k cp L hcp (by omega) fits
  have takePre : (ofBytes k).take cp.toNat = path.take cp.toNat := by
    rw [h.ofBytes_eq, List.take_append_of_le_length (by omega)]
  refine ⟨pre, suf, split, takePre ▸ preBits, by simp [sufLen, hL], fun i => ?_⟩
  by_cases inside : i < 8 * suf.length
  · rw [sufBits i inside, h.2, List.getD_eq_getElem?_getD, List.getD_eq_getElem?_getD,
      List.getElem?_drop]
  · rw [Bits.bitAt_of_le suf (by omega), List.getD_eq_getElem?_getD,
      List.getElem?_eq_none (by simp; omega), Option.getD_none]

theorem toNat_toUInt16 {n : Nat} (h : n < 2 ^ 16) : n.toUInt16.toNat = n :=
  UInt16.toNat_ofNat_of_lt' h

theorem toUInt16_bne {m n : Nat} (hm : m < 2 ^ 16) (hn : n < 2 ^ 16) :
    (m.toUInt16 != n.toUInt16) = (m != n) := by
  by_cases same : m = n
  · simp [same]
  · have differ : m.toUInt16 ≠ n.toUInt16 := by
      intro eq
      have := congrArg UInt16.toNat eq
      rw [toNat_toUInt16 hm, toNat_toUInt16 hn] at this
      exact same this
    rw [bne_iff_ne.mpr differ]
    simp [same]

theorem leadingZeros8_spec (x : UInt8) (hx : x ≠ 0) :
    leadingZeros8 x < 8 ∧ (∀ j < leadingZeros8 x, byteBit x j = false) ∧
      byteBit x (leadingZeros8 x) = true := by
  have pos : x.toNat ≠ 0 := fun zero => hx (UInt8.toNat_inj.mp (by simpa using zero))
  have top : x.toNat.log2 < 8 := (Nat.log2_lt pos).mpr x.toNat_lt
  simp only [leadingZeros8, hx, if_false]
  refine ⟨by omega, fun j hj => ?_, ?_⟩
  · simp only [byteBit]
    apply Nat.testBit_lt_two_pow
    exact Nat.lt_of_lt_of_le Nat.lt_log2_self (Nat.pow_le_pow_right (by decide) (by omega))
  · simp only [byteBit, show 7 - (7 - x.toNat.log2) = x.toNat.log2 by omega]
    exact Nat.testBit_log2 pos

theorem lcp_ofBytes_single {x y : UInt8} (different : x ≠ y) :
    lcp (ofBytes [x]) (ofBytes [y]) = leadingZeros8 (x ^^^ y) := by
  have nonzero : x ^^^ y ≠ 0 := by
    intro zero
    apply different
    simpa using congrArg (· ^^^ y) zero
  obtain ⟨small, agree, differ⟩ := leadingZeros8_spec _ nonzero
  have len (z : UInt8) : (ofBytes [z]).length = 8 := by simp
  rw [lcp_eq_iff]
  refine ⟨by rw [len]; exact small.le, by rw [len]; exact small.le, ?_, fun ha hb => ?_⟩
  · apply List.ext_getElem (by simp)
    intro j h₁ h₂
    simp only [List.getElem_take, getElem_ofBytes]
    have low : j < leadingZeros8 (x ^^^ y) := by simp at h₁; omega
    have same := agree j low
    rw [byteBit_xor] at same
    rw [bitAt_eq_byteBit _ (by simp; omega), bitAt_eq_byteBit _ (by simp; omega)]
    simp only [show j / 8 = 0 by omega, show j % 8 = j by omega, List.getElem_singleton]
    revert same
    cases byteBit x j <;> cases byteBit y j <;> simp
  · simp only [getElem_ofBytes]
    rw [bitAt_eq_byteBit _ (by simp; omega), bitAt_eq_byteBit _ (by simp; omega)]
    simp only [show leadingZeros8 (x ^^^ y) / 8 = 0 by omega,
      show leadingZeros8 (x ^^^ y) % 8 = leadingZeros8 (x ^^^ y) by omega, List.getElem_singleton]
    rw [byteBit_xor] at differ
    revert differ
    cases byteBit x (leadingZeros8 (x ^^^ y)) <;> cases byteBit y (leadingZeros8 (x ^^^ y)) <;> simp

theorem lcp_ofBytes (a b : List UInt8) :
    lcp (ofBytes a) (ofBytes b) = 8 * lcp a b +
      (if lcp a b < a.length ∧ lcp a b < b.length then
        leadingZeros8 (a.getD (lcp a b) 0 ^^^ b.getD (lcp a b) 0) else 0) := by
  induction a generalizing b with
  | nil => simp [ofBytes]
  | cons x a ih =>
    cases b with
    | nil => simp [ofBytes]
    | cons y b =>
      rw [ofBytes_cons x, ofBytes_cons y]
      by_cases same : x = y
      · subst same
        rw [lcp_append_common, ih b, lcp_cons_self]
        simp only [length_ofBytes, List.length_cons, List.length_nil, Nat.add_lt_add_iff_right,
          List.getD_cons_succ]
        omega
      · have small := (leadingZeros8_spec (x ^^^ y) fun zero =>
          same (by simpa using congrArg (· ^^^ y) zero)).1
        have single := lcp_ofBytes_single same
        rw [lcp_append_of_lt _ _ (by simp; omega) (by simp; omega), single]
        simp [lcp_cons, same]

theorem equalPrefixBytes_eq (a b : List UInt8) (n : Nat) :
    equalPrefixBytes a b n = min (lcp a b) n := by
  induction a generalizing b n with
  | nil => simp [equalPrefixBytes]
  | cons x a ih =>
    cases b with
    | nil => simp [equalPrefixBytes]
    | cons y b =>
      cases n with
      | zero => simp [equalPrefixBytes]
      | succ n =>
        simp only [equalPrefixBytes, lcp_cons]
        split
        · rw [ih]
          omega
        · simp

theorem commonPrefixLen_spec (k k2 : Key) (keyBitLen k2bitLen : Depth)
    (fits : 8 * k.length < 2 ^ 16) (fits2 : 8 * k2.length < 2 ^ 16) :
    ∃ c, k.commonPrefixLen keyBitLen k2 k2bitLen = some c ∧
      c.toNat = min (lcp (ofBytes k) (ofBytes k2)) (min keyBitLen.toNat k2bitLen.toNat) := by
  have short := lcp_le_left k k2
  have short2 := lcp_le_right k k2
  have bytes : equalPrefixBytes k k2 (min k.length k2.length).toUInt16.toNat = lcp k k2 := by
    rw [equalPrefixBytes_eq, toNat_toUInt16 (by omega)]
    omega
  have index := toNat_toUInt16 (show lcp k k2 < 2 ^ 16 by omega)
  simp only [Key.commonPrefixLen, bytes,
    toUInt16_bne (show lcp k k2 < 2 ^ 16 by omega) (show k.length < 2 ^ 16 by omega),
    toUInt16_bne (show lcp k k2 < 2 ^ 16 by omega) (show k2.length < 2 ^ 16 by omega)]
  rw [lcp_ofBytes]
  by_cases inside : lcp k k2 < k.length ∧ lcp k k2 < k2.length
  · -- The keys differ inside byte `lcp k k2`: Go adds the leading bits on which it agrees.
    have lz := (leadingZeros8_spec (k[lcp k k2] ^^^ k2[lcp k k2]) fun zero =>
      getElem_lcp_ne k k2 inside.1 inside.2 (by simpa using zero)).1
    have cond : (lcp k k2 != k.length && lcp k k2 != k2.length) = true := by
      simp only [Bool.and_eq_true, bne_iff_ne, ne_eq]
      omega
    simp only [cond, if_true, if_pos inside, List.getD_eq_getElem _ _ inside.1,
      List.getD_eq_getElem _ _ inside.2, index, List.getElem?_eq_getElem inside.1,
      List.getElem?_eq_getElem inside.2, Option.bind_some, Option.pure_def, Option.bind_eq_bind]
    refine ⟨_, rfl, ?_⟩
    have bits : ((lcp k k2).toUInt16 * 8 +
        (leadingZeros8 (k[lcp k k2] ^^^ k2[lcp k k2])).toUInt16).toNat =
        8 * lcp k k2 + leadingZeros8 (k[lcp k k2] ^^^ k2[lcp k k2]) := by
      simp only [UInt16.toNat_add, UInt16.toNat_mul, index]
      simp
      omega
    rw [UInt16.toNat_min, UInt16.toNat_min, bits]
    omega
  · have cond : (lcp k k2 != k.length && lcp k k2 != k2.length) = false := by
      simp only [Bool.and_eq_false_iff, bne_eq_false_iff_eq]
      omega
    simp only [cond, if_neg inside]
    refine ⟨_, rfl, ?_⟩
    have bits : ((lcp k k2).toUInt16 * 8).toNat = 8 * lcp k k2 := by
      simp only [UInt16.toNat_mul, index]
      simp
      omega
    rw [UInt16.toNat_min, UInt16.toNat_min, bits]
    omega

/-- On encoded bit strings, given their exact bit lengths, `CommonPrefixLen` is their longest
common prefix. -/
theorem Key.Encodes.commonPrefixLen {k k2 : Key} {p q : List Bool} (hk : k.Encodes p)
    (hk2 : k2.Encodes q) (fits : 8 * k.length < 2 ^ 16) (fits2 : 8 * k2.length < 2 ^ 16)
    (keyBitLen k2bitLen : Depth) (hp : keyBitLen.toNat = p.length)
    (hq : k2bitLen.toNat = q.length) :
    ∃ c, k.commonPrefixLen keyBitLen k2 k2bitLen = some c ∧ c.toNat = lcp p q := by
  obtain ⟨c, found, exact⟩ := commonPrefixLen_spec k k2 keyBitLen k2bitLen fits fits2
  refine ⟨c, found, ?_⟩
  rw [exact, hk.ofBytes_eq, hk2.ofBytes_eq, hp, hq, lcp_append_min]

theorem commonPrefixLen_eq_lcp_take (k k2 : Key) (keyBitLen k2bitLen : Depth) (fits : 8 * k.length < 2 ^ 16)
    (fits2 : 8 * k2.length < 2 ^ 16) :
    ∃ c, k.commonPrefixLen keyBitLen k2 k2bitLen = some c ∧
      c.toNat = lcp ((ofBytes k).take keyBitLen.toNat) ((ofBytes k2).take k2bitLen.toNat) := by
  obtain ⟨c, found, exact⟩ := commonPrefixLen_spec k k2 keyBitLen k2bitLen fits fits2
  exact ⟨c, found, by rw [exact, lcp_take]⟩

theorem Key.Encodes.take_of_zero {k : Key} {L : Nat} (hL : L ≤ 8 * k.length)
    (zero : ∀ i, L ≤ i → bitAt k i = false) : Key.Encodes (k.take ((L + 7) / 8)) ((ofBytes k).take L) := by
  refine ⟨by simp; omega, fun i => ?_⟩
  rw [bitAt_take, List.getD_eq_getElem?_getD, List.getElem?_take, getElem?_ofBytes]
  by_cases low : i < L
  · simp [low, show i < 8 * ((L + 7) / 8) by omega, show i < 8 * k.length by omega]
  · simp [low, zero i (by omega)]

end Orphiq.Mkvs
