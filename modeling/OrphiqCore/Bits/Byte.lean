import Mathlib

/-!
# Bits of bytes

The bits of a byte string, most significant bit of the first byte first, as a function
`bitAt` that reads zero past the end, and as the list `ofBytes`. The byte operations that
shift, mask and combine bytes are described bit by bit, so that every byte-level key
operation can be read as an operation on bit strings.
-/

namespace Bits

/-- Bit `j` of a byte, counting from the most significant bit. -/
def byteBit (b : UInt8) (j : Nat) : Bool := b.toNat.testBit (7 - j)

theorem toNat_testBit_high (b : UInt8) {i : Nat} (h : 8 ≤ i) : b.toNat.testBit i = false :=
  Nat.testBit_lt_two_pow (Nat.lt_of_lt_of_le b.toNat_lt (Nat.pow_le_pow_right (by decide) h))

@[simp] theorem byteBit_zero (j : Nat) : byteBit 0 j = false := by
  simp [byteBit]

theorem byteBit_and (a b : UInt8) (j : Nat) : byteBit (a &&& b) j = (byteBit a j && byteBit b j) := by
  simp [byteBit]

theorem byteBit_or (a b : UInt8) (j : Nat) : byteBit (a ||| b) j = (byteBit a j || byteBit b j) := by
  simp [byteBit]

theorem byteBit_xor (a b : UInt8) (j : Nat) : byteBit (a ^^^ b) j = (byteBit a j ^^ byteBit b j) := by
  simp [byteBit]

theorem byteBit_complement (a : UInt8) {j : Nat} (hj : j < 8) : byteBit (~~~a) j = !byteBit a j := by
  simp only [byteBit, ← UInt8.toNat_toBitVec, UInt8.toBitVec_not, BitVec.testBit_toNat,
    BitVec.getLsbD_not]
  simp
  omega

theorem byteBit_highBit {j : Nat} (hj : j < 8) : byteBit 0x80 j = decide (j = 0) := by
  interval_cases j <;> decide

theorem byteBit_shiftLeft (b : UInt8) {s j : Nat} (hs : s < 8) (hj : j < 8) :
    byteBit (b <<< s.toUInt8) j = (decide (j + s < 8) && byteBit b (j + s)) := by
  have shift : (s.toUInt8).toNat % 8 = s := by
    simp
    omega
  rw [byteBit, byteBit, UInt8.toNat_shiftLeft, Nat.testBit_mod_two_pow, Nat.testBit_shiftLeft, shift]
  by_cases fits : j + s < 8
  · have low : 7 - j ≥ s := by omega
    simp [fits, low, show 7 - j - s = 7 - (j + s) by omega]
    omega
  · have high : ¬ 7 - j ≥ s := by omega
    simp [fits, high]

theorem byteBit_shiftRight (b : UInt8) {s j : Nat} (hs : s < 8) (hj : j < 8) :
    byteBit (b >>> s.toUInt8) j = (decide (s ≤ j) && byteBit b (j - s)) := by
  have shift : (s.toUInt8).toNat % 8 = s := by
    simp
    omega
  rw [byteBit, byteBit, UInt8.toNat_shiftRight, shift, Nat.testBit_shiftRight]
  by_cases low : s ≤ j
  · simp [low, show s + (7 - j) = 7 - (j - s) by omega]
  · simp only [low, decide_false, Bool.false_and]
    exact toNat_testBit_high b (by omega)

theorem byte_ext {a b : UInt8} (h : ∀ j < 8, byteBit a j = byteBit b j) : a = b := by
  apply UInt8.toNat_inj.mp
  apply Nat.eq_of_testBit_eq
  intro i
  by_cases low : i < 8
  · have := h (7 - i) (by omega)
    simpa [byteBit, show 7 - (7 - i) = i by omega] using this
  · rw [toNat_testBit_high a (by omega), toNat_testBit_high b (by omega)]

/-- Bit `i` of a byte string, most significant bit of the first byte first; zero past the end. -/
def bitAt (bs : List UInt8) (i : Nat) : Bool := byteBit (bs.getD (i / 8) 0) (i % 8)

def ofBytes (bs : List UInt8) : List Bool := (List.range (8 * bs.length)).map (bitAt bs)

@[simp] theorem length_ofBytes (bs : List UInt8) : (ofBytes bs).length = 8 * bs.length := by
  simp [ofBytes]

@[simp] theorem getElem_ofBytes (bs : List UInt8) (i : Nat) (h : i < (ofBytes bs).length) :
    (ofBytes bs)[i] = bitAt bs i := by
  simp [ofBytes]

theorem getElem?_ofBytes (bs : List UInt8) (i : Nat) :
    (ofBytes bs)[i]? = if i < 8 * bs.length then some (bitAt bs i) else none := by
  unfold ofBytes
  split
  · rename_i low
    simp [List.getElem?_map, List.getElem?_range low]
  · rename_i high
    simp [List.getElem?_map, List.getElem?_eq_none (show (List.range (8 * bs.length)).length ≤ i by simp; omega)]

theorem bitAt_of_le (bs : List UInt8) {i : Nat} (h : 8 * bs.length ≤ i) : bitAt bs i = false := by
  have past : bs.length ≤ i / 8 := by omega
  simp [bitAt, List.getD_eq_getElem?_getD, List.getElem?_eq_none past]

theorem bitAt_nil (i : Nat) : bitAt [] i = false := bitAt_of_le [] (by simp)

theorem bitAt_eq_byteBit (bs : List UInt8) {i : Nat} (h : i / 8 < bs.length) :
    bitAt bs i = byteBit bs[i / 8] (i % 8) := by
  simp [bitAt, List.getD_eq_getElem?_getD, List.getElem?_eq_getElem h]

theorem eq_of_bitAt (bs cs : List UInt8) (length : bs.length = cs.length)
    (bits : ∀ i < 8 * bs.length, bitAt bs i = bitAt cs i) : bs = cs := by
  apply List.ext_getElem length
  intro n hb hc
  apply byte_ext
  intro j hj
  have same := bits (8 * n + j) (by omega)
  simp only [bitAt, List.getD_eq_getElem?_getD, show (8 * n + j) / 8 = n by omega,
    show (8 * n + j) % 8 = j by omega, List.getElem?_eq_getElem hb, List.getElem?_eq_getElem hc,
    Option.getD_some] at same
  exact same

theorem ofBytes_injective {bs cs : List UInt8} (h : ofBytes bs = ofBytes cs) : bs = cs := by
  have length : bs.length = cs.length := by
    have := congrArg List.length h
    simp only [length_ofBytes] at this
    omega
  refine eq_of_bitAt bs cs length fun i hi => ?_
  have := congrArg (·[i]?) h
  simp only [getElem?_ofBytes, length] at this
  rw [← length] at this
  simpa [hi] using this

theorem bitAt_append_left (bs cs : List UInt8) {i : Nat} (h : i < 8 * bs.length) :
    bitAt (bs ++ cs) i = bitAt bs i := by
  rw [bitAt_eq_byteBit _ (by simp; omega), bitAt_eq_byteBit _ (by omega),
    List.getElem_append_left (by omega)]

theorem bitAt_append_right (bs cs : List UInt8) (i : Nat) :
    bitAt (bs ++ cs) (8 * bs.length + i) = bitAt cs i := by
  simp only [bitAt, List.getD_eq_getElem?_getD, show (8 * bs.length + i) / 8 = bs.length + i / 8 by omega,
    show (8 * bs.length + i) % 8 = i % 8 by omega, List.getElem?_append_right (Nat.le_add_right _ _),
    Nat.add_sub_cancel_left]

theorem bitAt_append (bs cs : List UInt8) (i : Nat) :
    bitAt (bs ++ cs) i = if i < 8 * bs.length then bitAt bs i else bitAt cs (i - 8 * bs.length) := by
  split
  · rename_i low
    exact bitAt_append_left bs cs low
  · rename_i high
    have := bitAt_append_right bs cs (i - 8 * bs.length)
    rwa [Nat.add_sub_cancel' (by omega)] at this

theorem ofBytes_append (bs cs : List UInt8) : ofBytes (bs ++ cs) = ofBytes bs ++ ofBytes cs := by
  apply List.ext_getElem (by simp; omega)
  intro i h₁ h₂
  simp only [getElem_ofBytes, List.getElem_append]
  split
  · rename_i low
    exact bitAt_append_left bs cs (by simpa using low)
  · rename_i high
    simp only [length_ofBytes, not_lt] at high
    simpa [Nat.add_sub_cancel' high] using bitAt_append_right bs cs (i - 8 * bs.length)

theorem ofBytes_cons (b : UInt8) (bs : List UInt8) : ofBytes (b :: bs) = ofBytes [b] ++ ofBytes bs := by
  rw [← ofBytes_append]
  rfl

theorem bitAt_take (bs : List UInt8) (n i : Nat) :
    bitAt (bs.take n) i = (decide (i < 8 * n) && bitAt bs i) := by
  by_cases low : i < 8 * n
  · simp only [bitAt, List.getD_eq_getElem?_getD, List.getElem?_take, low, decide_true,
      Bool.true_and, show i / 8 < n by omega, if_true]
  · simp only [bitAt, List.getD_eq_getElem?_getD, List.getElem?_take, low, decide_false,
      Bool.false_and, show ¬ i / 8 < n by omega, if_false, Option.getD_none, byteBit_zero]

theorem bitAt_replicate_zero (n i : Nat) : bitAt (List.replicate n 0) i = false := by
  simp only [bitAt, List.getD_eq_getElem?_getD, List.getElem?_replicate]
  split <;> simp

theorem bitAt_modify (bs : List UInt8) (m : Nat) (f : UInt8 → UInt8) (h : m < bs.length) (i : Nat) :
    bitAt (bs.modify m f) i = if i / 8 = m then byteBit (f bs[m]) (i % 8) else bitAt bs i := by
  simp only [bitAt, List.getD_eq_getElem?_getD, List.getElem?_modify]
  split
  · rename_i same
    subst same
    simp [List.getElem?_eq_getElem h]
  · rename_i other
    simp [Ne.symm other]

theorem bitAt_eq_of_getElem? {bs cs : List UInt8} {i : Nat} (h : bs[i / 8]? = cs[i / 8]?) :
    bitAt bs i = bitAt cs i := by
  simp only [bitAt, List.getD_eq_getElem?_getD, h]

end Bits
