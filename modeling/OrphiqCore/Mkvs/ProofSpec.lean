import OrphiqCore.Mkvs.Pruning

/-!
# Soundness of the proof verifier

Whatever entries a proof holds, the verifier reads a subtree from consecutive entries and
builds only decoded nodes whose hashes it computed itself (`verifyProof_spec`). A proof it
accepts for the root hash of a tree in memory therefore describes a partial tree of that tree,
unless the digest maps two of the inputs it was applied to, or one of them and the empty input,
to one hash (`verifyProof_sound`).
-/

namespace Orphiq.Mkvs
open Node

variable (digest : List UInt8 → Hash)

theorem addLeafToWriteLog_eq {n : Node} (leafOrNil : n.isLeafOrNil = true) (log : WriteLog) :
    addLeafToWriteLog log n = log ++ n.leafEntries := by
  cases n <;> simp_all [addLeafToWriteLog, leafEntries, isLeafOrNil]

theorem Node.Decoded.isClean {v : UInt16} {n : Node} (decoded : n.Decoded digest v) : n.isClean = true := by
  cases n with
  | nil => rfl
  | hashed => rfl
  | leaf => exact decoded.1
  | internal => exact decoded.1

theorem verifyProof_spec {proof : Proof} {wl : Bool} {fuel idx : Nat} {log : WriteLog} {pos : Nat} {n : Node}
    {log' : WriteLog} (verified : verifyProof digest proof wl fuel idx log = some (pos, n, log')) :
    n.Decoded digest proof.v ∧ n.isClean = true ∧ idx < pos ∧ log' = if wl then log ++ n.leafEntries else log := by
  induction fuel generalizing idx log pos n log' with
  | zero => simp [verifyProof] at verified
  | succ fuel ih =>
    unfold verifyProof at verified
    split at verified
    · cases verified
    · simp only [Option.some.injEq, Prod.mk.injEq] at verified
      obtain ⟨rfl, rfl, rfl⟩ := verified
      simp [Decoded, leafEntries]
    · cases verified
    rename_i tag body _
    by_cases full : tag = proofEntryFull
    · rw [if_pos full] at verified
      obtain ⟨node, decoded, verified⟩ := Option.bind_eq_some_iff.mp verified
      rcases unmarshalBinary_spec digest proof.v decoded with ⟨leafOrNil, nodeDecoded⟩ |
        ⟨hash₀, label, labelBitLength, leafNode₀, left₀, right₀, rfl, sized, slotLeaf, slotDecoded⟩
      · -- A leaf, or nothing: it is the subtree.
        have clean := nodeDecoded.isClean
        cases node with
        | internal => simp [isLeafOrNil] at leafOrNil
        | hashed => simp [isLeafOrNil] at leafOrNil
        | _ =>
          simp only [Option.pure_def, Option.some.injEq, Prod.mk.injEq] at verified
          obtain ⟨rfl, rfl, rfl⟩ := verified
          refine ⟨nodeDecoded, clean, by omega, ?_⟩
          cases wl <;> simp [addLeafToWriteLog_eq leafOrNil]
      · -- An internal node: its leaf node slot, then its left and right children.
        simp only at verified
        obtain ⟨p₁, leafNode, log₁, slotAfter, slotDecoded, slotLeaf, slotLog, verified⟩ :
            ∃ p₁ leafNode log₁, idx < p₁ ∧ leafNode.Decoded digest proof.v ∧
              (proof.v = 0 → leafNode.isLeafOrNil = true) ∧ log₁ = (if wl then log ++ leafNode.leafEntries else log) ∧
              ((verifyProof digest proof wl fuel p₁ log₁).bind fun a => (verifyProof digest proof wl fuel a.1 a.2.2).bind
                fun a₁ => some (a₁.1, .internal true (internalNodeHash digest label labelBitLength leafNode.getHash
                  a.2.1.getHash a₁.2.1.getHash) label labelBitLength leafNode a.2.1 a₁.2.1, a₁.2.2)) =
                some (pos, n, log') := by
          by_cases v0 : proof.v = 0
          · -- Version 0: the leaf node came in the entry.
            simp only [v0, if_true, Option.pure_def, Option.bind_eq_bind, Option.bind_some] at verified
            refine ⟨idx + 1, leafNode₀, _, by omega, v0 ▸ slotDecoded, fun _ => slotLeaf, ?_, verified⟩
            cases wl <;> simp [addLeafToWriteLog_eq slotLeaf]
          · -- Version 1: the leaf node is the subtree of the next entries.
            by_cases v1 : proof.v = 1
            · simp only [v1, if_true, Option.bind_eq_bind] at verified
              obtain ⟨⟨p₁, leafNode, log₁⟩, slotOk, verified⟩ := Option.bind_eq_some_iff.mp verified
              obtain ⟨slotDecoded, -, slotAfter, slotLog⟩ := ih slotOk
              exact ⟨p₁, leafNode, log₁, by omega, slotDecoded, fun v0' => absurd v0' v0, slotLog, verified⟩
            · simp [v0, v1] at verified
        obtain ⟨⟨p₂, left, log₂⟩, leftOk, verified⟩ := Option.bind_eq_some_iff.mp verified
        obtain ⟨⟨p₃, right, log₃⟩, rightOk, verified⟩ := Option.bind_eq_some_iff.mp verified
        simp only [Option.some.injEq, Prod.mk.injEq] at verified
        obtain ⟨rfl, rfl, rfl⟩ := verified
        obtain ⟨leftDecoded, -, leftAfter, leftLog⟩ := ih leftOk
        obtain ⟨rightDecoded, -, rightAfter, rightLog⟩ := ih rightOk
        refine ⟨⟨rfl, rfl, sized, slotLeaf, slotDecoded, leftDecoded, rightDecoded⟩, rfl, by omega, ?_⟩
        rw [rightLog, leftLog, slotLog]
        cases wl <;> simp [leafEntries]
    · -- A hash entry: a pointer that holds only a whole hash.
      rw [if_neg full] at verified
      split_ifs at verified
      obtain ⟨h, hashOk, verified⟩ := Option.bind_eq_some_iff.mp verified
      simp only [Option.pure_def, Option.some.injEq, Prod.mk.injEq] at verified
      obtain ⟨rfl, rfl, rfl⟩ := verified
      have whole : h.length = hashSize := by
        unfold hashUnmarshalBinary at hashOk
        split_ifs at hashOk with sized
        cases hashOk
        exact sized
      exact ⟨whole, rfl, by omega, by cases wl <;> simp [leafEntries]⟩

theorem Node.Decoded.sized {v : UInt16} {n : Node} (decoded : n.Decoded digest v) : n.Sized := by
  induction n with
  | nil => trivial
  | hashed => exact decoded
  | leaf => exact lt_trans decoded.2.2.1 (by norm_num)
  | internal c h label l leafNode left right ihLeaf ihLeft ihRight =>
    obtain ⟨-, -, sized, -, leafDecoded, leftDecoded, rightDecoded⟩ := decoded
    exact ⟨sized, ihLeaf leafDecoded, ihLeft leftDecoded, ihRight rightDecoded⟩

theorem Node.Decoded.getHash_eq {v : UInt16} {n : Node} (decoded : n.Decoded digest v) :
    n.getHash = n.hashOf digest := by
  induction n with
  | nil => rfl
  | hashed => rfl
  | leaf => exact decoded.2.1
  | internal c h label l leafNode left right ihLeaf ihLeft ihRight =>
    obtain ⟨-, hash, -, -, leafDecoded, leftDecoded, rightDecoded⟩ := decoded
    rw [getHash, hash, ihLeaf leafDecoded, ihLeft leftDecoded, ihRight rightDecoded]
    rfl

theorem verifyProofOpts_eq_some {root : Hash} {proof : Proof} {wl : Bool} {res : VerifyResult}
    (verified : verifyProofOpts digest root proof wl = some res) :
    ∃ r log, verifyProof digest proof wl (proof.entries.length + 1) 0 [] = some (proof.entries.length, r, log) ∧
      r.getHash = root ∧ res.rootPtr = (if root = Hash.empty then .nil else r) ∧ res.writeLog = log := by
  unfold verifyProofOpts at verified
  split_ifs at verified
  obtain ⟨⟨idx, r, log⟩, ok, verified⟩ := Option.bind_eq_some_iff.mp verified
  simp only at verified
  split at verified
  · cases verified
  rename_i used
  split at verified
  · cases verified
  rename_i hashMatches
  simp only [Option.pure_def, Option.some.injEq] at verified
  subst verified
  have whole : idx = proof.entries.length := by simpa using used
  have rooted : r.getHash = root := by simpa using hashMatches
  subst whole
  exact ⟨r, log, ok, rooted, by simp [rooted], rfl⟩

theorem verifyProof_sound (size : ∀ m, (digest m).length = hashSize) (empty : digest [] = Hash.empty)
    {t : Node} (full : t.Full) {proof : Proof} {wl : Bool} {res : VerifyResult}
    (verified : verifyProofOpts digest (t.hashOf digest) proof wl = some res) :
    ∃ r, verifyProof digest proof wl (proof.entries.length + 1) 0 [] = some (proof.entries.length, r, res.writeLog) ∧
      (Set.InjOn digest (insert [] (r.hashInputs digest ∪ t.hashInputs digest)) →
        Prunes digest res.rootPtr t ∧ (∀ e ∈ res.writeLog, e ∈ t.leafEntries) ∧
        ∀ key bitDepth siblings value pb, doGet key res.rootPtr bitDepth ⟨none, siblings⟩ false = some (value, pb) →
          doGet key t bitDepth ⟨none, siblings⟩ false = some (value, pb)) := by
  obtain ⟨r, log, ok, rooted, rootPtr, writeLog⟩ := verifyProofOpts_eq_some digest verified
  obtain ⟨decoded, -, -, readLog⟩ := verifyProof_spec digest ok
  refine ⟨r, writeLog ▸ ok, fun free => ?_⟩
  have freeTree : Set.InjOn digest (insert [] (t.hashInputs digest)) :=
    free.mono (Set.insert_subset_insert Set.subset_union_right)
  -- The tree read from the entries has the root hash, so it is a partial tree of `t`.
  have prunes : Prunes digest r t :=
    prunes_of_hashOf_eq size empty decoded.sized full free ((decoded.getHash_eq digest).symm.trans rooted)
  have rootPrunes : Prunes digest res.rootPtr t := by
    rw [rootPtr]
    split_ifs with emptyRoot
    · rw [eq_nil_of_hashOf_eq_empty empty full freeTree emptyRoot]
      exact .nil
    · exact prunes
  refine ⟨rootPrunes, fun e mem => ?_, fun key bitDepth siblings value pb found => ?_⟩
  · rw [writeLog, readLog] at mem
    cases wl
    · simp at mem
    · exact prunes.leafEntries_subset (by simpa using mem)
  · rw [doGet_eq_lookup] at found ⊢
    obtain ⟨value', found', same⟩ := Option.map_eq_some_iff.mp found
    rw [rootPrunes.lookup empty full freeTree found']
    exact congrArg some same

theorem verifyProof_sound_leaf :
    let digest : List UInt8 → Hash := fun m => if m = [] then Hash.empty else List.replicate 31 0 ++ [m.length.toUInt8]
    let t : Node := .leaf true [] [1] [2]
    let proof : Proof := ⟨0, t.hashOf digest, [some (proofEntryFull :: leafNodeMarshalBinary [1] [2])]⟩
    let res : VerifyResult := ⟨.leaf true (t.hashOf digest) [1] [2], [⟨[1], some [2]⟩]⟩
    verifyProofOpts digest (t.hashOf digest) proof true = some res ∧
    ∃ r, verifyProof digest proof true (proof.entries.length + 1) 0 [] =
        some (proof.entries.length, r, res.writeLog) ∧
      (Set.InjOn digest (insert [] (r.hashInputs digest ∪ t.hashInputs digest)) →
        Prunes digest res.rootPtr t ∧ (∀ e ∈ res.writeLog, e ∈ t.leafEntries) ∧
        ∀ key bitDepth siblings value pb, doGet key res.rootPtr bitDepth ⟨none, siblings⟩ false = some (value, pb) →
          doGet key t bitDepth ⟨none, siblings⟩ false = some (value, pb)) := by
  intro digest t proof res
  have size : ∀ m, (digest m).length = hashSize := by
    intro m
    by_cases m = [] <;> simp_all [digest, Hash.empty, hashSize]
  have verified : verifyProofOpts digest (t.hashOf digest) proof true = some res := rfl
  have full : t.Full := show [1].length < 2 ^ 32 by decide
  exact ⟨verified, verifyProof_sound digest size rfl full verified⟩

end Orphiq.Mkvs
