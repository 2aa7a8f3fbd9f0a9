import OrphiqCore.Bits.Byte

/-!
# Keys and depths

The bit-level key operations of `node/key.go` and `node/depth.go`, as the Go code computes
them on bytes. `Depth` is Go's `uint16`, so bit lengths and depth sums wrap past 2^16 bits.
An index that Go would find out of range, and `Split`'s explicit panic, make the operation
return `none`.
-/

namespace Orphiq.Mkvs

/-- `node.Depth`: a bit position or a bit length. -/
abbrev Depth := UInt16

/-- `node.Key`: a variable-length key. -/
abbrev Key := List UInt8

/-- `Depth.ToBytes`: the number of bytes needed to fit the given bits. -/
def Depth.toBytes (dt : Depth) : Nat :=
  (if dt % 8 != 0 then dt / 8 + 1 else dt / 8).toNat

/-- `Key.BitLength`: the length of the key in bits, converted to a `Depth`. -/
def Key.bitLength (k : Key) : Depth := (k.length * 8).toUInt16

def Key.getBit (k : Key) (bit : Depth) : Option Bool :=
  k[(bit / 8).toNat]?.map fun b => b &&& ((1 : UInt8) <<< (7 - bit % 8).toUInt8) != 0

/-- Go's `copy(dst, src)`: the first elements of `dst` are overwritten by those of `src`. -/
def copyInto (dst src : List UInt8) : List UInt8 := src.take dst.length ++ dst.drop src.length

/-- Go's `key[i] |= b`. -/
def orAt (key : Key) (i : Nat) (b : UInt8) : Option Key :=
  if i < key.length then some (key.modify i (· ||| b)) else none

/-- One iteration of the suffix loop of `Key.Split`: byte `i` of the suffix. -/
def Key.splitSuffixByte (k : Key) (splitPoint i : Depth) : Option UInt8 := do
  -- The left chunk of the byte, then the right chunk if the key goes on.
  let left := (← k[(i + splitPoint / 8).toNat]?) <<< (splitPoint % 8).toUInt8
  if splitPoint % 8 != 0 && i + splitPoint / 8 + 1 != k.length.toUInt16 then
    let right ← k[(i + splitPoint / 8 + 1).toNat]?
    pure (left ||| right >>> (8 - splitPoint % 8).toUInt8)
  else
    pure left

/-- `Key.Split`: bit-wise split of a key of `keyLen` bits; `splitPoint` is the index of the
first suffix bit. -/
def Key.split (k : Key) (splitPoint keyLen : Depth) : Option (Key × Key) :=
  if keyLen < splitPoint then none
  else do
    let prefixLen := Depth.toBytes splitPoint
    let suffixLen := Depth.toBytes (keyLen - splitPoint)
    let copied := copyInto (List.replicate prefixLen 0) k
    -- Clean the remainder of the last prefix byte.
    let pfx := if splitPoint % 8 != 0 then
        copied.modify (prefixLen - 1) (· &&& ((0xff : UInt8) <<< (8 - splitPoint % 8).toUInt8))
      else copied
    let suffix ← (List.range suffixLen).mapM fun i => Key.splitSuffixByte k splitPoint i.toUInt16
    pure (pfx, suffix)

/-- One iteration of the loop of `Key.Merge`, for byte `i` of the second key. -/
def Key.mergeStep (keyLen : Depth) (keyLenBytes : Nat) (newKey : Key) (i : Nat) (b : UInt8) :
    Option Key := do
  -- The right chunk of the previous byte, then the next left chunk if there is room.
  let newKey ← if keyLen % 8 != 0 && 0 < keyLenBytes then
      orAt newKey (keyLenBytes + i - 1) (b >>> (keyLen % 8).toUInt8)
    else pure newKey
  if keyLenBytes + i < newKey.length then
    orAt newKey (keyLenBytes + i) (b <<< ((8 - keyLen % 8) % 8).toUInt8)
  else pure newKey

/-- The loop of `Key.Merge` over the bytes of the second key, from byte `i` on. -/
def Key.mergeLoop (keyLen : Depth) (keyLenBytes : Nat) : Key → Nat → List UInt8 → Option Key
  | newKey, _, [] => some newKey
  | newKey, i, b :: rest => do
    Key.mergeLoop keyLen keyLenBytes (← Key.mergeStep keyLen keyLenBytes newKey i b) (i + 1) rest

/-- `Key.Merge`: bit-wise merge of a key of `keyLen` bits with another key of `k2Len` bits.
Slicing `k[:keyLenBytes]` past the key panics (its spare capacity is not modelled). -/
def Key.merge (k : Key) (keyLen : Depth) (k2 : Key) (k2Len : Depth) : Option Key :=
  let keyLenBytes := keyLen.toNat / 8 + (if keyLen % 8 != 0 then 1 else 0)
  if k.length < keyLenBytes then none
  else
    let newKey := copyInto (List.replicate (Depth.toBytes (keyLen + k2Len)) 0) (k.take keyLenBytes)
    Key.mergeLoop keyLen keyLenBytes newKey 0 k2

/-- `Key.AppendBit`: set bit `keyLen` of a key of `keyLen` bits. `newKey[:len(k)]` panics when
the key is longer than the new one. -/
def Key.appendBit (k : Key) (keyLen : Depth) (val : Bool) : Option Key :=
  let len := Depth.toBytes (keyLen + 1)
  if len < k.length then none
  else
    let newKey := copyInto (List.replicate len 0) k
    let mask : UInt8 := 0x80 >>> (keyLen % 8).toUInt8
    if (keyLen / 8).toNat < newKey.length then
      some (newKey.modify (keyLen / 8).toNat (if val then (· ||| mask) else (· &&& ~~~mask)))
    else none

/-- `Key.Compare`, that is Go's `bytes.Compare`: bytewise, a proper prefix first. -/
def Key.compare : Key → Key → Ordering
  | [], [] => .eq
  | [], _ :: _ => .lt
  | _ :: _, [] => .gt
  | a :: as, b :: bs => if a < b then .lt else if b < a then .gt else Key.compare as bs

/-- The byte loop of `Key.CommonPrefixLen`: leading bytes that agree, counting up to `bound`. -/
def equalPrefixBytes : List UInt8 → List UInt8 → Nat → Nat
  | a :: as, b :: bs, bound + 1 => if a = b then equalPrefixBytes as bs bound + 1 else 0
  | _, _, _ => 0

/-- `bits.LeadingZeros8`: the number of leading zero bits of a byte, 8 for zero. -/
def leadingZeros8 (x : UInt8) : Nat := if x = 0 then 8 else 7 - x.toNat.log2

/-- `Key.CommonPrefixLen`: the length of the common bit prefix of a key of `keyBitLen` bits
and a key of `k2bitLen` bits. -/
def Key.commonPrefixLen (k : Key) (keyBitLen : Depth) (k2 : Key) (k2bitLen : Depth) :
    Option Depth := do
  let minKeyLen := min k.length k2.length
  let i : Depth := (equalPrefixBytes k k2 minKeyLen.toUInt16.toNat).toUInt16
  -- The prefixes match `i` bytes, and maybe some more bits of the next one.
  let bitLength ← if i != k.length.toUInt16 && i != k2.length.toUInt16 then do
      let a ← k[i.toNat]?
      let b ← k2[i.toNat]?
      pure (i * 8 + (leadingZeros8 (a ^^^ b)).toUInt16)
    else pure (i * 8)
  pure (min (min bitLength keyBitLen) k2bitLen)

end Orphiq.Mkvs
