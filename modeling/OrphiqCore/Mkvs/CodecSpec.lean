import OrphiqCore.Mkvs.Codec
import OrphiqCore.Mkvs.KeyBits

/-!
# Round trips of the node encoding

Decoding reads back what encoding wrote. A key and a leaf come back with the number of bytes
they took, and the compact forms of an internal node come back as the node without its
children, so the entries of a proof can be read one after the other. In the other direction,
whatever a decoder accepts is a node of the sizes the encoding can describe (`Node.Decoded`):
the proof verifier can build nothing else; and the bytes it was read from are that node's
encoding again, so that every accepted prefix is the encoding of exactly one node.
-/

namespace Orphiq.Mkvs

theorem or_mul_two_pow_eq_add {x y i : Nat} (small : x < 2 ^ i) : x ||| y * 2 ^ i = y * 2 ^ i + x := by
  rw [Nat.or_comm, Nat.mul_comm, ← Nat.two_pow_add_eq_or_of_lt small]

@[simp] theorem getUint16_putUint16 (x : UInt16) (rest : List UInt8) : getUint16 (putUint16 x ++ rest) = x := by
  apply UInt16.toNat_inj.mp
  have := x.toNat_lt
  simp only [getUint16, putUint16, List.cons_append, List.nil_append, List.getD_cons_zero, List.getD_cons_succ,
    UInt16.toNat_or, UInt16.toNat_shiftLeft, UInt8.toNat_toUInt16, UInt16.toNat_toUInt8, UInt16.toNat_shiftRight,
    Nat.shiftLeft_eq, Nat.shiftRight_eq_div_pow, UInt16.reduceToNat, Nat.reduceMod]
  rw [Nat.mod_eq_of_lt (a := _ * 2 ^ 8) (by omega), or_mul_two_pow_eq_add (by omega)]
  omega

@[simp] theorem getUint32_putUint32 (x : UInt32) (rest : List UInt8) : getUint32 (putUint32 x ++ rest) = x := by
  apply UInt32.toNat_inj.mp
  have := x.toNat_lt
  simp only [getUint32, putUint32, List.cons_append, List.nil_append, List.getD_cons_zero, List.getD_cons_succ,
    UInt32.toNat_or, UInt32.toNat_shiftLeft, UInt8.toNat_toUInt32, UInt32.toNat_toUInt8, UInt32.toNat_shiftRight,
    Nat.shiftLeft_eq, Nat.shiftRight_eq_div_pow, UInt32.reduceToNat, Nat.reduceMod]
  rw [Nat.mod_eq_of_lt (a := _ * 2 ^ 8) (by omega), Nat.mod_eq_of_lt (a := _ * 2 ^ 16) (by omega),
    Nat.mod_eq_of_lt (a := _ * 2 ^ 24) (by omega), or_mul_two_pow_eq_add (i := 8) (by omega),
    or_mul_two_pow_eq_add (i := 16) (by omega), or_mul_two_pow_eq_add (i := 24) (by omega)]
  omega

@[simp] theorem length_putUint16 (x : UInt16) : (putUint16 x).length = depthSize := rfl

@[simp] theorem length_putUint32 (x : UInt32) : (putUint32 x).length = valueLengthSize := rfl

theorem toNat_toUInt32 {n : Nat} (h : n < 2 ^ 32) : n.toUInt32.toNat = n :=
  UInt32.toNat_ofNat_of_lt' h

theorem putUint16_injective : Function.Injective putUint16 := fun x y same => by
  have read := congrArg (fun bytes => getUint16 (bytes ++ [])) same
  rwa [getUint16_putUint16, getUint16_putUint16] at read

theorem putUint32_injective : Function.Injective putUint32 := fun x y same => by
  have read := congrArg (fun bytes => getUint32 (bytes ++ [])) same
  rwa [getUint32_putUint32, getUint32_putUint32] at read

theorem putUint16_getUint16 {data : List UInt8} (long : depthSize ≤ data.length) :
    putUint16 (getUint16 data) = data.take depthSize := by
  match data, long with
  | a :: b :: rest, _ =>
    have ha := a.toNat_lt
    have hb := b.toNat_lt
    have combo : (getUint16 (a :: b :: rest)).toNat = a.toNat + b.toNat * 2 ^ 8 := by
      simp only [getUint16, List.getD_cons_zero, List.getD_cons_succ, UInt16.toNat_or, UInt16.toNat_shiftLeft,
        UInt8.toNat_toUInt16, Nat.shiftLeft_eq, UInt16.reduceToNat, Nat.reduceMod]
      rw [Nat.mod_eq_of_lt (a := _ * 2 ^ 8) (by omega), or_mul_two_pow_eq_add (by omega)]
      omega
    simp only [putUint16, depthSize, List.take_succ_cons, List.take_zero, List.cons.injEq, and_true]
    refine ⟨?_, ?_⟩ <;> apply UInt8.toNat_inj.mp <;>
      simp only [UInt16.toNat_toUInt8, UInt16.toNat_shiftRight, Nat.shiftRight_eq_div_pow, UInt16.reduceToNat,
        Nat.reduceMod, combo] <;>
      omega

theorem putUint32_getUint32 {data : List UInt8} (long : valueLengthSize ≤ data.length) :
    putUint32 (getUint32 data) = data.take valueLengthSize := by
  match data, long with
  | a :: b :: c :: d :: rest, _ =>
    have ha := a.toNat_lt
    have hb := b.toNat_lt
    have hc := c.toNat_lt
    have hd := d.toNat_lt
    have combo : (getUint32 (a :: b :: c :: d :: rest)).toNat =
        a.toNat + b.toNat * 2 ^ 8 + c.toNat * 2 ^ 16 + d.toNat * 2 ^ 24 := by
      simp only [getUint32, List.getD_cons_zero, List.getD_cons_succ, UInt32.toNat_or, UInt32.toNat_shiftLeft,
        UInt8.toNat_toUInt32, Nat.shiftLeft_eq, UInt32.reduceToNat, Nat.reduceMod]
      rw [Nat.mod_eq_of_lt (a := _ * 2 ^ 8) (by omega), Nat.mod_eq_of_lt (a := _ * 2 ^ 16) (by omega),
        Nat.mod_eq_of_lt (a := _ * 2 ^ 24) (by omega), or_mul_two_pow_eq_add (i := 8) (by omega),
        or_mul_two_pow_eq_add (i := 16) (by omega), or_mul_two_pow_eq_add (i := 24) (by omega)]
      omega
    simp only [putUint32, valueLengthSize, List.take_succ_cons, List.take_zero, List.cons.injEq, and_true]
    refine ⟨?_, ?_, ?_, ?_⟩ <;> apply UInt8.toNat_inj.mp <;>
      simp only [UInt32.toNat_toUInt8, UInt32.toNat_shiftRight, Nat.shiftRight_eq_div_pow, UInt32.reduceToNat,
        Nat.reduceMod, combo] <;>
      omega

theorem take_one_of_getElem?_zero {data : List UInt8} {tag : UInt8} (head : data[0]? = some tag) :
    data.take 1 = [tag] := by
  cases data with
  | nil => cases head
  | cons a rest => simpa using head

theorem Key.sizedUnmarshalBinary_marshalBinary (k : Key) (fits : k.length < 2 ^ 16) (rest : List UInt8) :
    Key.sizedUnmarshalBinary (k.marshalBinary ++ rest) = some (k, depthSize + k.length) := by
  have keyLen : (getUint16 (k.marshalBinary ++ rest)).toNat = k.length := by
    rw [Key.marshalBinary, List.append_assoc, getUint16_putUint16, toNat_toUInt16 fits]
  have body : ((k.marshalBinary ++ rest).drop depthSize).take k.length = k := by
    simp [Key.marshalBinary, putUint16, depthSize]
  have len : (k.marshalBinary ++ rest).length = depthSize + k.length + rest.length := by
    simp [Key.marshalBinary]; omega
  simp only [Key.sizedUnmarshalBinary, keyLen, body, len]
  simp [depthSize]
  omega

theorem Key.sizedUnmarshalBinary_spec {data : List UInt8} {k : Key} {size : Nat}
    (read : Key.sizedUnmarshalBinary data = some (k, size)) : k.length < 2 ^ 16 := by
  unfold Key.sizedUnmarshalBinary at read
  split at read
  · cases read
  dsimp only at read
  split at read
  · cases read
  simp only [Option.some.injEq, Prod.mk.injEq] at read
  obtain ⟨rfl, -⟩ := read
  have := (getUint16 data).toNat_lt
  simp
  omega

theorem Key.marshalBinary_of_sizedUnmarshalBinary {data : List UInt8} {k : Key} {size : Nat}
    (read : Key.sizedUnmarshalBinary data = some (k, size)) : k.marshalBinary = data.take size := by
  unfold Key.sizedUnmarshalBinary at read
  split at read
  · cases read
  rename_i long
  dsimp only at read
  split at read
  · cases read
  simp only [Option.some.injEq, Prod.mk.injEq] at read
  obtain ⟨rfl, rfl⟩ := read
  have len : ((data.drop depthSize).take (getUint16 data).toNat).length = (getUint16 data).toNat := by
    simp
    omega
  rw [Key.marshalBinary, len, Nat.toUInt16_eq, UInt16.ofNat_toNat, putUint16_getUint16 (by omega), List.take_add]

section Decoding

variable (digest : List UInt8 → Hash)

theorem LeafNode.sizedUnmarshalBinary_leafNodeMarshalBinary (key : Key) (value : Value)
    (short : key.length < 2 ^ 16) (small : value.length < 2 ^ 32) (rest : List UInt8) :
    LeafNode.sizedUnmarshalBinary digest (leafNodeMarshalBinary key value ++ rest) =
      some (.leaf true (leafNodeHash digest key value) key value, (leafNodeMarshalBinary key value).length) := by
  have keyRead := Key.sizedUnmarshalBinary_marshalBinary key short (putUint32 value.length.toUInt32 ++ value ++ rest)
  have keyLen : key.marshalBinary.length = depthSize + key.length := by simp [Key.marshalBinary]
  have len : (leafNodeMarshalBinary key value).length = 1 + (depthSize + key.length) + valueLengthSize + value.length := by
    simp [leafNodeMarshalBinary, keyLen]; omega
  have atKey : (leafNodeMarshalBinary key value ++ rest).drop 1 =
      key.marshalBinary ++ (putUint32 value.length.toUInt32 ++ value ++ rest) := by
    simp [leafNodeMarshalBinary]
  have atValueLength : (leafNodeMarshalBinary key value ++ rest).drop (1 + (depthSize + key.length)) =
      putUint32 value.length.toUInt32 ++ (value ++ rest) := by
    rw [show leafNodeMarshalBinary key value ++ rest =
      ([prefixLeafNode] ++ key.marshalBinary) ++ (putUint32 value.length.toUInt32 ++ (value ++ rest)) by
        simp [leafNodeMarshalBinary]]
    apply List.drop_left'
    simp [keyLen]
    omega
  have atValue : (leafNodeMarshalBinary key value ++ rest).drop (1 + (depthSize + key.length) + valueLengthSize) =
      value ++ rest := by
    rw [← List.drop_drop, atValueLength]
    apply List.drop_left'
    simp
  unfold LeafNode.sizedUnmarshalBinary
  simp only [atKey, keyRead, Option.bind_eq_bind, Option.bind_some, atValueLength, atValue, getUint32_putUint32,
    toNat_toUInt32 small, List.take_left', List.length_append, len]
  have head : (leafNodeMarshalBinary key value ++ rest)[0]? = some prefixLeafNode := rfl
  simp only [head, bne_self_eq_false, Bool.or_false, decide_eq_true_eq]
  rw [if_neg (by omega), if_neg (by omega), if_neg (by omega)]
  rfl

theorem InternalNode.sizedUnmarshalBinary_compact {label : Key} {labelBitLength : Depth}
    (sized : label.length = labelBitLength.toBytes) {slot : List UInt8} {leafNode : Node}
    (slotRead : (slot = [prefixNilNode] ∧ leafNode = .nil) ∨
      (slot[0]? ≠ some prefixNilNode ∧ LeafNode.sizedUnmarshalBinary digest slot = some (leafNode, slot.length))) :
    InternalNode.sizedUnmarshalBinary digest
        ([prefixInternalNode] ++ Depth.marshalBinary labelBitLength ++ label ++ slot) =
      some (.internal true Hash.zero label labelBitLength leafNode .nil .nil,
        1 + depthSize + label.length + slot.length) := by
  have slotLen : 0 < slot.length := by
    rcases slotRead with ⟨rfl, -⟩ | ⟨-, leafRead⟩
    · simp
    · cases slot with
      | nil => simp [LeafNode.sizedUnmarshalBinary] at leafRead
      | cons => simp
  have len : ([prefixInternalNode] ++ Depth.marshalBinary labelBitLength ++ label ++ slot).length =
      1 + depthSize + label.length + slot.length := by
    simp [Depth.marshalBinary]; omega
  have depthRead : Depth.unmarshalBinary
      (([prefixInternalNode] ++ Depth.marshalBinary labelBitLength ++ label ++ slot).drop 1) =
      some (labelBitLength, depthSize) := by
    simp [Depth.unmarshalBinary, Depth.marshalBinary, depthSize]
    omega
  have atLabel : ([prefixInternalNode] ++ Depth.marshalBinary labelBitLength ++ label ++ slot).drop (1 + depthSize) =
      label ++ slot := by
    simp [Depth.marshalBinary, putUint16, depthSize]
  have atSlot : ([prefixInternalNode] ++ Depth.marshalBinary labelBitLength ++ label ++ slot).drop
      (1 + depthSize + label.length) = slot := by
    rw [← List.drop_drop, atLabel, List.drop_left]
  have slotHead : ([prefixInternalNode] ++ Depth.marshalBinary labelBitLength ++ label ++ slot)[1 + depthSize + label.length]? =
      slot[0]? := by
    conv_rhs => rw [← atSlot]
    rw [List.getElem?_drop, Nat.add_zero]
  have head : ([prefixInternalNode] ++ Depth.marshalBinary labelBitLength ++ label ++ slot)[0]? =
      some prefixInternalNode := rfl
  unfold InternalNode.sizedUnmarshalBinary
  simp only [len, head, depthRead, atLabel, atSlot, slotHead, ← sized, List.take_left, bne_self_eq_false,
    Bool.or_false, decide_eq_true_eq, Option.bind_eq_bind, Option.bind_some]
  rw [if_neg (by omega), if_neg (by omega), if_neg (by omega)]
  rcases slotRead with ⟨rfl, rfl⟩ | ⟨tag, leafRead⟩
  · simp [hashSize]
    omega
  · simp [tag, leafRead, hashSize]

theorem unmarshalBinary_leafNodeMarshalBinary (key : Key) (value : Value) (short : key.length < 2 ^ 16)
    (small : value.length < 2 ^ 32) :
    unmarshalBinary digest (leafNodeMarshalBinary key value) = some (.leaf true (leafNodeHash digest key value) key value) := by
  have read := LeafNode.sizedUnmarshalBinary_leafNodeMarshalBinary digest key value short small []
  rw [List.append_nil] at read
  have long : (leafNodeMarshalBinary key value).length > 1 := by
    simp [leafNodeMarshalBinary, Key.marshalBinary, depthSize]
  have head : (leafNodeMarshalBinary key value)[0]? = some prefixLeafNode := rfl
  rw [unmarshalBinary, if_pos long, if_pos head, read]
  rfl

theorem LeafNode.sizedUnmarshalBinary_spec {data : List UInt8} {n : Node} {size : Nat}
    (read : LeafNode.sizedUnmarshalBinary digest data = some (n, size)) :
    ∃ key value, n = .leaf true (leafNodeHash digest key value) key value ∧
      key.length < 2 ^ 16 ∧ value.length < 2 ^ 32 := by
  unfold LeafNode.sizedUnmarshalBinary at read
  split at read
  · cases read
  obtain ⟨⟨key, keySize⟩, keyRead, read⟩ := Option.bind_eq_some_iff.mp read
  dsimp only at read
  split at read
  · cases read
  split at read
  · cases read
  simp only [Option.pure_def, Option.some.injEq, Prod.mk.injEq] at read
  obtain ⟨rfl, -⟩ := read
  refine ⟨key, _, rfl, Key.sizedUnmarshalBinary_spec keyRead, ?_⟩
  have := (getUint32 (data.drop (1 + keySize))).toNat_lt
  simp
  omega

theorem InternalNode.sizedUnmarshalBinary_spec {data : List UInt8} {n : Node} {size : Nat}
    (read : InternalNode.sizedUnmarshalBinary digest data = some (n, size)) :
    ∃ hash label labelBitLength leafNode left right,
      n = .internal true hash label labelBitLength leafNode left right ∧ label.length = labelBitLength.toBytes ∧
      (leafNode = .nil ∨ ∃ key value, leafNode = .leaf true (leafNodeHash digest key value) key value ∧
        key.length < 2 ^ 16 ∧ value.length < 2 ^ 32) := by
  unfold InternalNode.sizedUnmarshalBinary at read
  split at read
  · cases read
  obtain ⟨⟨labelBitLength, _⟩, -, read⟩ := Option.bind_eq_some_iff.mp read
  dsimp only at read
  split at read
  · cases read
  split at read
  · cases read
  have sized : ((data.drop (1 + depthSize)).take labelBitLength.toBytes).length = labelBitLength.toBytes := by
    simp
    omega
  -- The leaf node slot holds nothing or a leaf; the child hashes that may follow do not matter.
  split at read
  · simp only [Option.pure_def, Option.bind_eq_bind, Option.bind_some] at read
    split at read <;>
    · simp only [Option.some.injEq, Prod.mk.injEq] at read
      exact ⟨_, _, _, _, _, _, read.1.symm, sized, .inl rfl⟩
  · obtain ⟨⟨leaf, _⟩, leafRead, read⟩ := Option.bind_eq_some_iff.mp read
    simp only [Option.pure_def, Option.bind_eq_bind, Option.bind_some] at read
    have slot := LeafNode.sizedUnmarshalBinary_spec digest leafRead
    split at read <;>
    · simp only [Option.some.injEq, Prod.mk.injEq] at read
      exact ⟨_, _, _, _, _, _, read.1.symm, sized, .inr slot⟩

/-- A leaf or nothing: what the leaf node slot of a version 0 proof can hold. -/
def Node.isLeafOrNil : Node → Bool
  | .nil | .leaf .. => true
  | _ => false

/-- What the proof verifier builds from a proof of version `v`: clean nodes holding the hashes
computed from what they hold, keys and values the length fields can describe, labels of the
bytes their bit lengths need, whole hashes in the pointers that hold only a hash, and in a
version 0 proof a leaf or nothing in every leaf node slot. -/
def Node.Decoded (v : UInt16) : Node → Prop
  | .nil => True
  | .hashed hash => hash.length = hashSize
  | .leaf clean hash key value =>
    clean = true ∧ hash = leafNodeHash digest key value ∧ key.length < 2 ^ 16 ∧ value.length < 2 ^ 32
  | .internal clean hash label labelBitLength leafNode left right =>
    clean = true ∧
      hash = internalNodeHash digest label labelBitLength leafNode.getHash left.getHash right.getHash ∧
      label.length = labelBitLength.toBytes ∧ (v = 0 → leafNode.isLeafOrNil = true) ∧
      leafNode.Decoded v ∧ left.Decoded v ∧ right.Decoded v

/-- `UnmarshalBinary` reads a leaf as the verifier keeps it, or an internal node whose label and
leaf node slot are. -/
theorem unmarshalBinary_spec {bytes : List UInt8} {n : Node} (v : UInt16)
    (read : unmarshalBinary digest bytes = some n) :
    (n.isLeafOrNil = true ∧ n.Decoded digest v) ∨
      ∃ hash label labelBitLength leafNode left right,
        n = .internal true hash label labelBitLength leafNode left right ∧ label.length = labelBitLength.toBytes ∧
        leafNode.isLeafOrNil = true ∧ leafNode.Decoded digest v := by
  have slotDecoded {leafNode : Node} (slot : leafNode = .nil ∨ ∃ key value,
      leafNode = .leaf true (leafNodeHash digest key value) key value ∧ key.length < 2 ^ 16 ∧ value.length < 2 ^ 32) :
      leafNode.isLeafOrNil = true ∧ leafNode.Decoded digest v := by
    rcases slot with rfl | ⟨key, value, rfl, short, small⟩
    · exact ⟨rfl, trivial⟩
    · exact ⟨rfl, rfl, rfl, short, small⟩
  unfold unmarshalBinary at read
  split_ifs at read
  · obtain ⟨⟨leaf, _⟩, leafRead, rfl⟩ := Option.map_eq_some_iff.mp read
    exact .inl (slotDecoded (.inr (LeafNode.sizedUnmarshalBinary_spec digest leafRead)))
  · obtain ⟨⟨node, _⟩, nodeRead, rfl⟩ := Option.map_eq_some_iff.mp read
    obtain ⟨hash, label, labelBitLength, leafNode, left, right, rfl, sized, slot⟩ :=
      InternalNode.sizedUnmarshalBinary_spec digest nodeRead
    exact .inr ⟨hash, label, labelBitLength, leafNode, left, right, rfl, sized, slotDecoded slot⟩

theorem LeafNode.sizedUnmarshalBinary_header {data : List UInt8} {n : Node} {size : Nat}
    (read : LeafNode.sizedUnmarshalBinary digest data = some (n, size)) :
    1 + depthSize + valueLengthSize ≤ data.length ∧ data[0]? = some prefixLeafNode := by
  unfold LeafNode.sizedUnmarshalBinary at read
  split at read
  · cases read
  rename_i wellFormed
  simpa only [Bool.or_eq_true, decide_eq_true_eq, bne_iff_ne, ne_eq, not_or, not_lt, not_not] using wellFormed

theorem InternalNode.sizedUnmarshalBinary_header {data : List UInt8} {n : Node} {size : Nat}
    (read : InternalNode.sizedUnmarshalBinary digest data = some (n, size)) :
    1 + depthSize + 1 ≤ data.length ∧ data[0]? = some prefixInternalNode := by
  unfold InternalNode.sizedUnmarshalBinary at read
  split at read
  · cases read
  rename_i wellFormed
  simpa only [Bool.or_eq_true, decide_eq_true_eq, bne_iff_ne, ne_eq, not_or, not_lt, not_not] using wellFormed

theorem unmarshalBinary_of_leaf {data : List UInt8} {n : Node} {size : Nat}
    (read : LeafNode.sizedUnmarshalBinary digest data = some (n, size)) : unmarshalBinary digest data = some n := by
  obtain ⟨long, head⟩ := LeafNode.sizedUnmarshalBinary_header digest read
  rw [unmarshalBinary, if_pos (by simp only [depthSize, valueLengthSize] at long; omega), if_pos head, read]
  rfl

theorem unmarshalBinary_of_internal {data : List UInt8} {n : Node} {size : Nat}
    (read : InternalNode.sizedUnmarshalBinary digest data = some (n, size)) : unmarshalBinary digest data = some n := by
  obtain ⟨long, head⟩ := InternalNode.sizedUnmarshalBinary_header digest read
  have notLeaf : data[0]? ≠ some prefixLeafNode := by
    rw [head]
    decide
  rw [unmarshalBinary, if_pos (by simp only [depthSize] at long; omega), if_neg notLeaf, if_pos head, read]
  rfl

theorem LeafNode.marshalBinary_of_sizedUnmarshalBinary {data : List UInt8} {n : Node} {size : Nat}
    (read : LeafNode.sizedUnmarshalBinary digest data = some (n, size)) : n.marshalBinary = some (data.take size) := by
  have head := (LeafNode.sizedUnmarshalBinary_header digest read).2
  unfold LeafNode.sizedUnmarshalBinary at read
  split at read
  · cases read
  obtain ⟨⟨key, keySize⟩, keyRead, read⟩ := Option.bind_eq_some_iff.mp read
  dsimp only at read
  split at read
  · cases read
  split at read
  · cases read
  rename_i room valueRoom
  simp only [Option.pure_def, Option.some.injEq, Prod.mk.injEq] at read
  obtain ⟨rfl, rfl⟩ := read
  have valueLen : ((data.drop (1 + keySize + valueLengthSize)).take
      (getUint32 (data.drop (1 + keySize))).toNat).length = (getUint32 (data.drop (1 + keySize))).toNat := by
    simp
    omega
  have lengthField : putUint32 (getUint32 (data.drop (1 + keySize))) =
      (data.drop (1 + keySize)).take valueLengthSize :=
    putUint32_getUint32 (by simp; omega)
  rw [Node.marshalBinary, leafNodeMarshalBinary, valueLen, Nat.toUInt32_eq, UInt32.ofNat_toNat, lengthField,
    Key.marshalBinary_of_sizedUnmarshalBinary keyRead, ← take_one_of_getElem?_zero head, List.take_add,
    List.take_add, List.take_add]


theorem compactMarshalBinaryV0_internal (c : Bool) (hash : Hash) (label : Key) (labelBitLength : Depth)
    (leafNode left right : Node) :
    (Node.internal c hash label labelBitLength leafNode left right).compactMarshalBinaryV0 =
      (if leafNode = .nil then some [prefixNilNode] else leafNode.marshalBinary).map
        ([prefixInternalNode] ++ Depth.marshalBinary labelBitLength ++ label ++ ·) := by
  simp only [Node.compactMarshalBinaryV0]
  split <;> cases leafNode.marshalBinary <;> simp

theorem marshalBinary_internal (c : Bool) (hash : Hash) (label : Key) (labelBitLength : Depth)
    (leafNode left right : Node) :
    (Node.internal c hash label labelBitLength leafNode left right).marshalBinary =
      (Node.internal c hash label labelBitLength leafNode left right).compactMarshalBinaryV0.map
        (· ++ left.getHash ++ right.getHash) := by
  simp only [Node.marshalBinary, Node.compactMarshalBinaryV0]
  split <;> cases leafNode.marshalBinary <;> simp

@[simp] theorem getHash_ite_empty (h : Hash) : (if h = Hash.empty then Node.nil else Node.hashed h).getHash = h := by
  split <;> simp_all [Node.getHash]

theorem InternalNode.marshalBinary_of_sizedUnmarshalBinary {data : List UInt8} {n : Node} {size : Nat}
    (read : InternalNode.sizedUnmarshalBinary digest data = some (n, size)) :
    n.marshalBinary = some (data.take size) ∨ n.compactMarshalBinaryV0 = some (data.take size) := by
  obtain ⟨long, tag⟩ := InternalNode.sizedUnmarshalBinary_header digest read
  unfold InternalNode.sizedUnmarshalBinary at read
  split at read
  · cases read
  obtain ⟨⟨labelBitLength, _⟩, depthRead, read⟩ := Option.bind_eq_some_iff.mp read
  dsimp only at read
  split at read
  · cases read
  split at read
  · cases read
  rename_i labelRoom slotRoom
  have depth : labelBitLength = getUint16 (data.drop 1) := by
    unfold Depth.unmarshalBinary at depthRead
    split at depthRead
    · cases depthRead
    simp only [Option.some.injEq, Prod.mk.injEq] at depthRead
    exact depthRead.1.symm
  -- Everything before the leaf node slot.
  have head : [prefixInternalNode] ++ Depth.marshalBinary labelBitLength ++
      (data.drop (1 + depthSize)).take labelBitLength.toBytes = data.take (1 + depthSize + labelBitLength.toBytes) := by
    rw [List.take_add, List.take_add, take_one_of_getElem?_zero tag, Depth.marshalBinary, depth,
      putUint16_getUint16 (by simp; omega)]
  have compact : ∀ {leafNode : Node} {slotSize : Nat} (c : Bool) (hash : Hash) (left right : Node),
      (if leafNode = .nil then some [prefixNilNode] else leafNode.marshalBinary) =
        some ((data.drop (1 + depthSize + labelBitLength.toBytes)).take slotSize) →
      (Node.internal c hash ((data.drop (1 + depthSize)).take labelBitLength.toBytes) labelBitLength
        leafNode left right).compactMarshalBinaryV0 =
        some (data.take (1 + depthSize + labelBitLength.toBytes + slotSize)) := by
    intro leafNode slotSize c hash left right slot
    rw [compactMarshalBinaryV0_internal, slot, Option.map_some, head, ← List.take_add]
  have full : ∀ {leafNode : Node} {pos : Nat} (c : Bool) (hash : Hash),
      (Node.internal c hash ((data.drop (1 + depthSize)).take labelBitLength.toBytes) labelBitLength
        leafNode .nil .nil).compactMarshalBinaryV0 = some (data.take pos) →
      (Node.internal c hash ((data.drop (1 + depthSize)).take labelBitLength.toBytes) labelBitLength leafNode
        (if (data.drop pos).take hashSize = Hash.empty then .nil else .hashed ((data.drop pos).take hashSize))
        (if (data.drop (pos + hashSize)).take hashSize = Hash.empty then .nil
          else .hashed ((data.drop (pos + hashSize)).take hashSize))).marshalBinary =
        some (data.take (pos + 2 * hashSize)) := by
    intro leafNode pos c hash front
    rw [marshalBinary_internal, compactMarshalBinaryV0_internal, ← compactMarshalBinaryV0_internal c hash _ _ _
      .nil .nil, front, Option.map_some, getHash_ite_empty, getHash_ite_empty, Nat.two_mul, ← Nat.add_assoc,
      List.take_add, List.take_add]
  -- The leaf node slot holds the nil sentinel or a leaf; either way the node is read whole when
  -- the child hashes follow it, and without its children when they do not.
  split at read
  · rename_i sentinel
    have slot : (if (Node.nil : Node) = .nil then some [prefixNilNode] else Node.nil.marshalBinary) =
        some ((data.drop (1 + depthSize + labelBitLength.toBytes)).take 1) := by
      rw [if_pos rfl, take_one_of_getElem?_zero (by rw [List.getElem?_drop, Nat.add_zero]; exact sentinel)]
    simp only [Option.pure_def, Option.bind_eq_bind, Option.bind_some] at read
    split at read <;> simp only [Option.some.injEq, Prod.mk.injEq] at read <;> obtain ⟨rfl, rfl⟩ := read
    · exact .inl (full true _ (compact true Hash.zero .nil .nil slot))
    · exact .inr (compact true Hash.zero .nil .nil slot)
  · obtain ⟨⟨leafNode, leafSize⟩, leafRead, read⟩ := Option.bind_eq_some_iff.mp read
    obtain ⟨key, value, rfl, -⟩ := LeafNode.sizedUnmarshalBinary_spec digest leafRead
    have slot : (if Node.leaf true (leafNodeHash digest key value) key value = .nil then some [prefixNilNode]
        else (Node.leaf true (leafNodeHash digest key value) key value).marshalBinary) =
        some ((data.drop (1 + depthSize + labelBitLength.toBytes)).take leafSize) := by
      rw [if_neg nofun]
      exact LeafNode.marshalBinary_of_sizedUnmarshalBinary digest leafRead
    simp only [Option.pure_def, Option.bind_eq_bind, Option.bind_some] at read
    split at read <;> simp only [Option.some.injEq, Prod.mk.injEq] at read <;> obtain ⟨rfl, rfl⟩ := read
    · exact .inl (full true _ (compact true Hash.zero .nil .nil slot))
    · exact .inr (compact true Hash.zero .nil .nil slot)


theorem InternalNode.sizedUnmarshalBinary_append {label : Key} {labelBitLength : Depth}
    (sized : label.length = labelBitLength.toBytes) {slot tail : List UInt8} {leafNode : Node}
    (slotRead : (slot = [prefixNilNode] ∧ leafNode = .nil) ∨
      (slot[0]? ≠ some prefixNilNode ∧ LeafNode.sizedUnmarshalBinary digest (slot ++ tail) = some (leafNode, slot.length))) :
    InternalNode.sizedUnmarshalBinary digest
        ([prefixInternalNode] ++ Depth.marshalBinary labelBitLength ++ label ++ slot ++ tail) =
      if 2 * hashSize ≤ tail.length then
        some (.internal true (internalNodeHash digest label labelBitLength leafNode.getHash (tail.take hashSize)
            ((tail.drop hashSize).take hashSize)) label labelBitLength leafNode
          (if tail.take hashSize = Hash.empty then .nil else .hashed (tail.take hashSize))
          (if (tail.drop hashSize).take hashSize = Hash.empty then .nil else .hashed ((tail.drop hashSize).take hashSize)),
          1 + depthSize + label.length + slot.length + 2 * hashSize)
      else some (.internal true Hash.zero label labelBitLength leafNode .nil .nil, 1 + depthSize + label.length + slot.length) := by
  have slotLen : 0 < slot.length := by
    rcases slotRead with ⟨rfl, -⟩ | ⟨-, leafRead⟩
    · simp
    · cases slot with
      | nil =>
        have encoding := LeafNode.marshalBinary_of_sizedUnmarshalBinary digest leafRead
        obtain ⟨key, value, rfl, -⟩ := LeafNode.sizedUnmarshalBinary_spec digest leafRead
        simp [Node.marshalBinary, leafNodeMarshalBinary] at encoding
      | cons => simp
  have len : ([prefixInternalNode] ++ Depth.marshalBinary labelBitLength ++ label ++ slot ++ tail).length =
      1 + depthSize + label.length + slot.length + tail.length := by
    simp [Depth.marshalBinary]
    omega
  have depthRead : Depth.unmarshalBinary
      (([prefixInternalNode] ++ Depth.marshalBinary labelBitLength ++ label ++ slot ++ tail).drop 1) =
      some (labelBitLength, depthSize) := by
    simp [Depth.unmarshalBinary, Depth.marshalBinary, depthSize]
    omega
  have atLabel : ([prefixInternalNode] ++ Depth.marshalBinary labelBitLength ++ label ++ slot ++ tail).drop
      (1 + depthSize) = label ++ (slot ++ tail) := by
    simp [Depth.marshalBinary, putUint16, depthSize]
  have atSlot : ([prefixInternalNode] ++ Depth.marshalBinary labelBitLength ++ label ++ slot ++ tail).drop
      (1 + depthSize + label.length) = slot ++ tail := by
    rw [← List.drop_drop, atLabel, List.drop_left]
  have atTail : ([prefixInternalNode] ++ Depth.marshalBinary labelBitLength ++ label ++ slot ++ tail).drop
      (1 + depthSize + label.length + slot.length) = tail := by
    rw [← List.drop_drop, atSlot, List.drop_left]
  have slotHead : ([prefixInternalNode] ++ Depth.marshalBinary labelBitLength ++ label ++ slot ++ tail)[1 + depthSize + label.length]? =
      slot[0]? := by
    rw [← Nat.add_zero (1 + depthSize + label.length), ← List.getElem?_drop, atSlot,
      List.getElem?_append_left slotLen]
  have head : ([prefixInternalNode] ++ Depth.marshalBinary labelBitLength ++ label ++ slot ++ tail)[0]? =
      some prefixInternalNode := rfl
  unfold InternalNode.sizedUnmarshalBinary
  simp only [len, head, depthRead, atLabel, atSlot, slotHead, ← sized, List.take_left, bne_self_eq_false,
    Bool.or_false, decide_eq_true_eq, Option.bind_eq_bind, Option.bind_some]
  rw [if_neg (by omega), if_neg (by omega), if_neg (by omega)]
  have atRight : ([prefixInternalNode] ++ Depth.marshalBinary labelBitLength ++ label ++ slot ++ tail).drop
      (1 + depthSize + label.length + slot.length + hashSize) = tail.drop hashSize := by
    rw [← List.drop_drop, atTail]
  rcases slotRead with ⟨rfl, rfl⟩ | ⟨tag, leafRead⟩
  · simp only [List.length_singleton] at atTail atRight ⊢
    simp only [List.getElem?_singleton, if_true, Option.pure_def, Option.bind_some]
    by_cases room : 2 * hashSize ≤ tail.length
    · rw [if_pos (by omega), if_pos room]
      simp only [atTail, atRight, getHash_ite_empty]
    · rw [if_neg (by omega), if_neg room]
  · simp only [tag, if_false, leafRead, Option.pure_def, Option.bind_some]
    by_cases room : 2 * hashSize ≤ tail.length
    · rw [if_pos (by omega), if_pos room]
      simp only [atTail, atRight, getHash_ite_empty]
    · rw [if_neg (by omega), if_neg room]


/-- What the leaf node slot of an internal node can hold so that its encoding reads back: nothing,
or a clean leaf holding its hash, whose key and value lengths fit their length fields. -/
def Node.EncodableLeaf : Node → Prop
  | .nil => True
  | .leaf clean hash key value =>
    clean = true ∧ hash = leafNodeHash digest key value ∧ key.length < 2 ^ 16 ∧ value.length < 2 ^ 32
  | _ => False

theorem Node.EncodableLeaf.slotRead {leafNode : Node} (slot : leafNode.EncodableLeaf digest) (rest : List UInt8) :
    ∃ slotBytes, (if leafNode = .nil then some [prefixNilNode] else leafNode.marshalBinary) = some slotBytes ∧
      ((slotBytes = [prefixNilNode] ∧ leafNode = .nil) ∨ (slotBytes[0]? ≠ some prefixNilNode ∧
        LeafNode.sizedUnmarshalBinary digest (slotBytes ++ rest) = some (leafNode, slotBytes.length))) := by
  cases leafNode with
  | nil => exact ⟨[prefixNilNode], rfl, .inl ⟨rfl, rfl⟩⟩
  | leaf clean h key value =>
    obtain ⟨rfl, rfl, short, small⟩ := slot
    refine ⟨leafNodeMarshalBinary key value, by simp [Node.marshalBinary], .inr ⟨?_, ?_⟩⟩
    · rw [show (leafNodeMarshalBinary key value)[0]? = some prefixLeafNode from rfl]
      decide
    · exact LeafNode.sizedUnmarshalBinary_leafNodeMarshalBinary digest key value short small rest
  | internal | hashed => exact slot.elim

/-- The full form of an internal node reads back as the node with clean hash pointers in place of
its children, whatever follows it. -/
theorem InternalNode.sizedUnmarshalBinary_marshalBinary {label : Key} {labelBitLength : Depth}
    (sized : label.length = labelBitLength.toBytes) {leafNode : Node} (slot : leafNode.EncodableLeaf digest)
    {left right : Node} (leftSized : left.getHash.length = hashSize) (rightSized : right.getHash.length = hashSize)
    (c : Bool) (hash : Hash) (rest : List UInt8) :
    ∃ bytes, (Node.internal c hash label labelBitLength leafNode left right).marshalBinary = some bytes ∧
      InternalNode.sizedUnmarshalBinary digest (bytes ++ rest) =
        some (.internal true (internalNodeHash digest label labelBitLength leafNode.getHash left.getHash right.getHash)
          label labelBitLength leafNode (if left.getHash = Hash.empty then .nil else .hashed left.getHash)
          (if right.getHash = Hash.empty then .nil else .hashed right.getHash), bytes.length) := by
  obtain ⟨slotBytes, slotWritten, slotRead⟩ := slot.slotRead digest (left.getHash ++ right.getHash ++ rest)
  have hashes : 2 * hashSize ≤ (left.getHash ++ right.getHash ++ rest).length := by
    simp only [List.length_append]
    omega
  refine ⟨[prefixInternalNode] ++ Depth.marshalBinary labelBitLength ++ label ++ slotBytes ++
    (left.getHash ++ right.getHash), ?_, ?_⟩
  · rw [marshalBinary_internal, compactMarshalBinaryV0_internal, slotWritten]
    simp
  · rw [List.append_assoc _ (left.getHash ++ right.getHash), List.append_assoc left.getHash,
      ← List.append_assoc left.getHash, InternalNode.sizedUnmarshalBinary_append digest sized slotRead, if_pos hashes]
    simp [List.take_left' leftSized, List.drop_left' leftSized, List.take_left' rightSized, leftSized, rightSized,
      Depth.marshalBinary]
    omega


/-- The compact forms of an internal node read back as the node without children: with its leaf
node from the version 0 form, and without it from the version 1 form. -/
theorem InternalNode.sizedUnmarshalBinary_compactMarshalBinary {label : Key} {labelBitLength : Depth}
    (sized : label.length = labelBitLength.toBytes) {leafNode : Node} (slot : leafNode.EncodableLeaf digest)
    (c : Bool) (hash : Hash) (left right : Node) :
    (∃ bytes, (Node.internal c hash label labelBitLength leafNode left right).compactMarshalBinaryV0 = some bytes ∧
      InternalNode.sizedUnmarshalBinary digest bytes =
        some (.internal true Hash.zero label labelBitLength leafNode .nil .nil, bytes.length)) ∧
    ∃ bytes, (Node.internal c hash label labelBitLength leafNode left right).compactMarshalBinaryV1 = some bytes ∧
      InternalNode.sizedUnmarshalBinary digest bytes =
        some (.internal true Hash.zero label labelBitLength .nil .nil .nil, bytes.length) := by
  have len (slotBytes : List UInt8) : ([prefixInternalNode] ++ Depth.marshalBinary labelBitLength ++ label ++
      slotBytes).length = 1 + depthSize + label.length + slotBytes.length := by
    simp [Depth.marshalBinary]
    omega
  obtain ⟨slotBytes, slotWritten, slotRead⟩ := slot.slotRead digest []
  simp only [List.append_nil] at slotRead
  constructor
  · refine ⟨_, by rw [compactMarshalBinaryV0_internal, slotWritten, Option.map_some], ?_⟩
    rw [InternalNode.sizedUnmarshalBinary_compact digest sized slotRead, len]
  · refine ⟨_, rfl, ?_⟩
    rw [InternalNode.sizedUnmarshalBinary_compact digest sized (.inl ⟨rfl, rfl⟩), len]

theorem marshalBinary_round_trip :
    (∀ (key : Key) (value : Value), key.length < 2 ^ 16 → value.length < 2 ^ 32 →
      ∃ bytes, (Node.leaf true (leafNodeHash digest key value) key value).marshalBinary = some bytes ∧
        LeafNode.sizedUnmarshalBinary digest bytes =
          some (.leaf true (leafNodeHash digest key value) key value, bytes.length) ∧
        unmarshalBinary digest bytes = some (.leaf true (leafNodeHash digest key value) key value)) ∧
    (∀ (hash : Hash) (label : Key) (labelBitLength : Depth) (leafNode left right : Node),
      hash = internalNodeHash digest label labelBitLength leafNode.getHash left.getHash right.getHash →
      label.length = labelBitLength.toBytes → leafNode.EncodableLeaf digest →
      left.getHash.length = hashSize → right.getHash.length = hashSize →
      ∃ bytes, (Node.internal true hash label labelBitLength leafNode left right).marshalBinary = some bytes ∧
        InternalNode.sizedUnmarshalBinary digest bytes =
          some (.internal true hash label labelBitLength leafNode
            (if left.getHash = Hash.empty then .nil else .hashed left.getHash)
            (if right.getHash = Hash.empty then .nil else .hashed right.getHash), bytes.length) ∧
        unmarshalBinary digest bytes =
          some (.internal true hash label labelBitLength leafNode
            (if left.getHash = Hash.empty then .nil else .hashed left.getHash)
            (if right.getHash = Hash.empty then .nil else .hashed right.getHash))) ∧
    (∀ (c : Bool) (hash : Hash) (label : Key) (labelBitLength : Depth) (leafNode left right : Node),
      label.length = labelBitLength.toBytes → leafNode.EncodableLeaf digest →
      (∃ bytes, (Node.internal c hash label labelBitLength leafNode left right).compactMarshalBinaryV0 = some bytes ∧
        InternalNode.sizedUnmarshalBinary digest bytes =
          some (.internal true Hash.zero label labelBitLength leafNode .nil .nil, bytes.length)) ∧
      ∃ bytes, (Node.internal c hash label labelBitLength leafNode left right).compactMarshalBinaryV1 = some bytes ∧
        InternalNode.sizedUnmarshalBinary digest bytes =
          some (.internal true Hash.zero label labelBitLength .nil .nil .nil, bytes.length)) ∧
    (∀ data n size, LeafNode.sizedUnmarshalBinary digest data = some (n, size) →
      n.marshalBinary = some (data.take size)) ∧
    ∀ data n size, InternalNode.sizedUnmarshalBinary digest data = some (n, size) →
      n.marshalBinary = some (data.take size) ∨ n.compactMarshalBinaryV0 = some (data.take size) := by
  refine ⟨?_, ?_, ?_, fun _ _ _ => LeafNode.marshalBinary_of_sizedUnmarshalBinary digest,
    fun _ _ _ => InternalNode.marshalBinary_of_sizedUnmarshalBinary digest⟩
  · intro key value short small
    have read := LeafNode.sizedUnmarshalBinary_leafNodeMarshalBinary digest key value short small []
    rw [List.append_nil] at read
    exact ⟨_, rfl, read, unmarshalBinary_of_leaf digest read⟩
  · rintro hash label labelBitLength leafNode left right rfl sized slot leftSized rightSized
    obtain ⟨bytes, written, read⟩ :=
      InternalNode.sizedUnmarshalBinary_marshalBinary digest sized slot leftSized rightSized true _ []
    rw [List.append_nil] at read
    exact ⟨bytes, written, read, unmarshalBinary_of_internal digest read⟩
  · intro c hash label labelBitLength leafNode left right sized slot
    exact InternalNode.sizedUnmarshalBinary_compactMarshalBinary digest sized slot c hash left right


theorem marshalBinary_round_trip_leaf_slot :
    (∃ bytes, (Node.leaf true (leafNodeHash id [1] [2]) [1] [2]).marshalBinary = some bytes ∧
      LeafNode.sizedUnmarshalBinary id bytes = some (.leaf true (leafNodeHash id [1] [2]) [1] [2], bytes.length) ∧
      unmarshalBinary id bytes = some (.leaf true (leafNodeHash id [1] [2]) [1] [2])) ∧
    ∃ bytes, (Node.internal true (internalNodeHash id [0x80] 1 (leafNodeHash id [0x80] [2]) Hash.empty Hash.empty)
        [0x80] 1 (.leaf true (leafNodeHash id [0x80] [2]) [0x80] [2]) .nil .nil).marshalBinary = some bytes ∧
      InternalNode.sizedUnmarshalBinary id bytes =
        some (.internal true (internalNodeHash id [0x80] 1 (leafNodeHash id [0x80] [2]) Hash.empty Hash.empty)
          [0x80] 1 (.leaf true (leafNodeHash id [0x80] [2]) [0x80] [2])
          (if Node.nil.getHash = Hash.empty then .nil else .hashed Node.nil.getHash)
          (if Node.nil.getHash = Hash.empty then .nil else .hashed Node.nil.getHash), bytes.length) ∧
      unmarshalBinary id bytes =
        some (.internal true (internalNodeHash id [0x80] 1 (leafNodeHash id [0x80] [2]) Hash.empty Hash.empty)
          [0x80] 1 (.leaf true (leafNodeHash id [0x80] [2]) [0x80] [2])
          (if Node.nil.getHash = Hash.empty then .nil else .hashed Node.nil.getHash)
          (if Node.nil.getHash = Hash.empty then .nil else .hashed Node.nil.getHash)) :=
  ⟨(marshalBinary_round_trip id).1 [1] [2] (by decide) (by decide),
    (marshalBinary_round_trip id).2.1 _ [0x80] 1 _ .nil .nil rfl (by decide) ⟨rfl, rfl, by decide, by decide⟩
      (by decide) (by decide)⟩

/-- Two ways the round trip fails without the bounds above. The version 1 compact form leaves the
leaf node out, so an internal node holding a leaf reads back without it. And a leaf key of 2 ^ 16
bytes in the leaf node slot has its length written as 0, so the decoder reads an empty leaf from
the first bytes of the key, takes two more stretches of the key for the child hashes, and stops
long before the end of the encoding. -/
theorem marshalBinary_round_trip_fails_outside_bounds :
    (Node.internal true (internalNodeHash id [] 0 (leafNodeHash id [1] [2]) Hash.empty Hash.empty) [] 0
        (.leaf true (leafNodeHash id [1] [2]) [1] [2]) .nil .nil).compactMarshalBinaryV1 =
      some [prefixInternalNode, 0, 0, prefixNilNode] ∧
    InternalNode.sizedUnmarshalBinary id [prefixInternalNode, 0, 0, prefixNilNode] =
      some (.internal true Hash.zero [] 0 .nil .nil .nil, 4) ∧
    ∃ bytes n, (Node.internal true (internalNodeHash id [] 0 (leafNodeHash id (List.replicate (2 ^ 16) 0) [])
        Hash.empty Hash.empty) [] 0 (.leaf true (leafNodeHash id (List.replicate (2 ^ 16) 0) [])
          (List.replicate (2 ^ 16) 0) []) .nil .nil).marshalBinary = some bytes ∧
      InternalNode.sizedUnmarshalBinary id bytes = some (n, 74) ∧ 74 < bytes.length := by
  refine ⟨rfl, InternalNode.sizedUnmarshalBinary_compact id (show ([] : Key).length = (0 : Depth).toBytes from rfl)
    (.inl ⟨rfl, rfl⟩), ?_⟩
  -- The long leaf is written as the empty leaf followed by the rest of the key.
  have split : leafNodeMarshalBinary (List.replicate (2 ^ 16) 0) [] =
      leafNodeMarshalBinary [] [] ++ (List.replicate 65532 0 ++ putUint32 0) := by
    have wraps : (List.replicate (2 ^ 16) (0 : UInt8)).length.toUInt16 = 0 := by
      rw [List.length_replicate]
      rfl
    have key : List.replicate (2 ^ 16) (0 : UInt8) = List.replicate 4 0 ++ List.replicate 65532 0 := by
      rw [show 2 ^ 16 = 4 + 65532 from rfl, List.replicate_add]
    have emptyKey : ([] : Key).length.toUInt16 = 0 := rfl
    have emptyValue : putUint32 ([] : Value).length.toUInt32 = List.replicate 4 0 := rfl
    simp only [leafNodeMarshalBinary, Key.marshalBinary, wraps, emptyKey, emptyValue, List.append_nil]
    rw [key, show putUint32 0 = List.replicate 4 0 from rfl]
    simp only [List.append_assoc]
  have leafRead := LeafNode.sizedUnmarshalBinary_leafNodeMarshalBinary id [] [] (by decide) (by decide)
    (List.replicate 65532 0 ++ putUint32 0 ++ (Hash.empty ++ Hash.empty))
  have tag : (leafNodeMarshalBinary [] [])[0]? ≠ some prefixNilNode := by decide
  have tailLen : (List.replicate 65532 (0 : UInt8) ++ putUint32 0 ++ (Hash.empty ++ Hash.empty)).length =
      65532 + 4 + 2 * hashSize := by
    simp only [List.length_append, List.length_replicate]
    rfl
  have read := InternalNode.sizedUnmarshalBinary_append id
    (show ([] : Key).length = (0 : Depth).toBytes from rfl) (.inr ⟨tag, leafRead⟩)
  rw [if_pos (by omega)] at read
  refine ⟨_, _, ?_, read, ?_⟩
  · rw [marshalBinary_internal, compactMarshalBinaryV0_internal, if_neg nofun]
    simp only [Node.marshalBinary, split, Option.map_some, Node.getHash, List.append_assoc]
  · simp only [List.length_append, tailLen]
    decide

end Decoding

end Orphiq.Mkvs
