import OrphiqCore.Bits.Byte

/-!
# Lexicographic order of bit strings and byte strings

Byte strings compare bytewise with a proper prefix first, as Go's `bytes.Compare` and Rust's
order on `Vec<u8>` do; bit strings compare bitwise in the same way. The two orders agree on a
byte string and its bits, most significant bit first (`ofBytes_lt_ofBytes_iff`), so that an
order between keys can be read off the bit paths of a binary trie.

The lemmas on lists of a linear order split a comparison at a position both lists reach.
-/

namespace Bits

section Lex

variable {α : Type} [LinearOrder α]

theorem append_lt_append_of_lt {p q : List α} (lt : p < q) (length : p.length = q.length)
    (u v : List α) : p ++ u < q ++ v := by
  induction p generalizing q with
  | nil =>
    cases q with
    | nil => exact absurd lt (lt_irrefl _)
    | cons => simp at length
  | cons a p ih =>
    cases q with
    | nil => simp at length
    | cons b q =>
      rcases List.cons_lt_cons_iff.mp lt with head | ⟨rfl, tail⟩
      · exact List.cons_lt_cons_iff.mpr (.inl head)
      · exact List.cons_lt_cons_iff.mpr (.inr ⟨rfl, ih tail (by simpa using length)⟩)

theorem append_lt_append_left_iff (p : List α) {u v : List α} : p ++ u < p ++ v ↔ u < v := by
  induction p with
  | nil => rfl
  | cons a p ih => simp [ih]

theorem lt_append_of_ne_nil (p : List α) {u : List α} (nonempty : u ≠ []) : p < p ++ u := by
  simpa using (append_lt_append_left_iff p (u := [])).mpr (by
    cases u with
    | nil => exact absurd rfl nonempty
    | cons => exact List.nil_lt_cons _ _)

theorem lt_iff_take_drop {a b : List α} {n : Nat} (ha : n ≤ a.length) (hb : n ≤ b.length) :
    a < b ↔ a.take n < b.take n ∨ (a.take n = b.take n ∧ a.drop n < b.drop n) := by
  have length : (a.take n).length = (b.take n).length := by simp; omega
  constructor
  · intro lt
    rcases lt_trichotomy (a.take n) (b.take n) with before | same | after
    · exact .inl before
    · refine .inr ⟨same, ?_⟩
      rwa [← List.take_append_drop n a, ← List.take_append_drop n b, same,
        append_lt_append_left_iff] at lt
    · have reverse := append_lt_append_of_lt after length.symm (b.drop n) (a.drop n)
      rw [List.take_append_drop, List.take_append_drop] at reverse
      exact absurd (lt.trans reverse) (lt_irrefl a)
  · rintro (before | ⟨same, rest⟩)
    · simpa using append_lt_append_of_lt before length (a.drop n) (b.drop n)
    · rw [← List.take_append_drop n a, ← List.take_append_drop n b, same]
      exact (append_lt_append_left_iff _).mpr rest

theorem lt_of_take_lt {a b : List α} {n : Nat} (ha : n ≤ a.length) (hb : n ≤ b.length)
    (before : a.take n < b.take n) : a < b :=
  (lt_iff_take_drop ha hb).mpr (.inl before)

end Lex

/-! ### Zero bits -/

theorem not_lt_replicate_false {n : Nat} {t : List Bool} (h : n ≤ t.length) :
    ¬ t < List.replicate n false := by
  induction n generalizing t with
  | zero => exact List.not_lt_nil t
  | succ n ih =>
    cases t with
    | nil => simp at h
    | cons b t =>
      rw [List.replicate_succ, List.cons_lt_cons_iff]
      rintro (below | ⟨rfl, tail⟩)
      · exact absurd below (by cases b <;> decide)
      · exact ih (by simpa using h) tail

theorem lt_append_replicate_false_iff {s x : List Bool} {n : Nat} (long : s.length + n ≤ x.length) :
    x < s ++ List.replicate n false ↔ x < s := by
  have length : (x.take s.length).length = s.length := by simp; omega
  have split := List.take_append_drop s.length x
  rcases lt_trichotomy (x.take s.length) s with before | same | after
  · -- `x` leaves `s` with a smaller bit: it is below `s` and below its padding.
    have below (u : List Bool) : x < s ++ u := by
      simpa [split] using append_lt_append_of_lt before length (x.drop s.length) u
    exact ⟨fun _ => by simpa using below [], fun _ => below _⟩
  · -- `x` extends `s`: it is below neither.
    have rest : ¬ x.drop s.length < List.replicate n false :=
      not_lt_replicate_false (by simp; omega)
    have notShorter : ¬ s ++ x.drop s.length < s ++ [] :=
      (append_lt_append_left_iff s).not.mpr (List.not_lt_nil _)
    rw [← split, same, append_lt_append_left_iff]
    rw [List.append_nil] at notShorter
    exact ⟨fun below => absurd below rest, fun below => absurd below notShorter⟩
  · -- `x` leaves `s` with a larger bit: it is above both.
    have above (u : List Bool) : s ++ u < x := by
      simpa [split] using append_lt_append_of_lt after length.symm u (x.drop s.length)
    exact ⟨fun below => absurd (below.trans (above _)) (lt_irrefl x),
      fun below => absurd (below.trans (by simpa using above [])) (lt_irrefl x)⟩

/-! ### Bytes and their bits -/

/-- The `n` low bits of a number, most significant first. -/
def msbBits (n a : Nat) : List Bool := (List.range n).map fun i => a.testBit (n - 1 - i)

theorem msbBits_succ (n a : Nat) : msbBits (n + 1) a = a.testBit n :: msbBits n a := by
  simp only [msbBits, List.range_succ_eq_map, List.map_cons, List.map_map]
  congr 2
  funext i
  simp only [Function.comp_apply]
  congr 1
  omega

theorem msbBits_mod (n a : Nat) : msbBits n (a % 2 ^ n) = msbBits n a := by
  apply List.map_congr_left
  intro i mem
  rw [List.mem_range] at mem
  rw [Nat.testBit_mod_two_pow, decide_eq_true (show n - 1 - i < n by omega), Bool.true_and]

theorem lt_iff_msbBits_lt {n a b : Nat} (ha : a < 2 ^ n) (hb : b < 2 ^ n) :
    a < b ↔ msbBits n a < msbBits n b := by
  induction n generalizing a b with
  | zero =>
    have : a = 0 ∧ b = 0 := by simp at ha hb; omega
    obtain ⟨rfl, rfl⟩ := this
    simp [msbBits]
  | succ n ih =>
    have low := ih (Nat.mod_lt a (Nat.two_pow_pos n)) (Nat.mod_lt b (Nat.two_pow_pos n))
    rw [msbBits_mod, msbBits_mod] at low
    rw [msbBits_succ, msbBits_succ, List.cons_lt_cons_iff, ← low,
      Nat.testBit_eq_decide_div_mod_eq, Nat.testBit_eq_decide_div_mod_eq]
    -- The top bit is the quotient by `2 ^ n`, the other bits the remainder.
    have splitA := Nat.div_add_mod a (2 ^ n)
    have splitB := Nat.div_add_mod b (2 ^ n)
    have topA : a / 2 ^ n < 2 := Nat.div_lt_of_lt_mul (by rw [← Nat.pow_succ]; exact ha)
    have topB : b / 2 ^ n < 2 := Nat.div_lt_of_lt_mul (by rw [← Nat.pow_succ]; exact hb)
    have remA := Nat.mod_lt a (Nat.two_pow_pos n)
    have remB := Nat.mod_lt b (Nat.two_pow_pos n)
    generalize a / 2 ^ n = qa at *
    generalize b / 2 ^ n = qb at *
    generalize a % 2 ^ n = ra at *
    generalize b % 2 ^ n = rb at *
    generalize 2 ^ n = m at *
    subst splitA splitB
    rcases (show qa = 0 ∨ qa = 1 by omega) with rfl | rfl <;>
      rcases (show qb = 0 ∨ qb = 1 by omega) with rfl | rfl <;>
      simp [show ¬ (true < false) by decide] <;> omega

theorem ofBytes_singleton (x : UInt8) : ofBytes [x] = msbBits 8 x.toNat := by
  apply List.ext_getElem (by simp [msbBits])
  intro i h _
  simp only [length_ofBytes, List.length_singleton] at h
  simp [msbBits, bitAt_eq_byteBit [x] (show i / 8 < 1 by omega), byteBit,
    show i / 8 = 0 by omega, show i % 8 = i by omega]

theorem byte_lt_iff (x y : UInt8) : x < y ↔ ofBytes [x] < ofBytes [y] := by
  rw [ofBytes_singleton, ofBytes_singleton, UInt8.lt_iff_toNat_lt]
  exact lt_iff_msbBits_lt x.toNat_lt y.toNat_lt

/-- Byte strings compare bytewise as their bit strings compare bitwise. -/
theorem ofBytes_lt_ofBytes_iff (a b : List UInt8) : ofBytes a < ofBytes b ↔ a < b := by
  induction a generalizing b with
  | nil =>
    cases b with
    | nil => simp [ofBytes]
    | cons y b =>
      have nonempty : ofBytes (y :: b) ≠ [] := by
        intro empty
        simpa using congrArg List.length empty
      obtain ⟨c, cs, bits⟩ := List.exists_cons_of_ne_nil nonempty
      simp only [List.nil_lt_cons, show ofBytes [] = [] from rfl, bits]
  | cons x a ih =>
    cases b with
    | nil => simp only [show ofBytes [] = [] from rfl, List.not_lt_nil]
    | cons y b =>
      have length : (ofBytes [x]).length = (ofBytes [y]).length := by simp
      rw [ofBytes_cons x, ofBytes_cons y, List.cons_lt_cons_iff, ← ih]
      rcases Nat.lt_trichotomy x.toNat y.toNat with before | same | after
      · have before : x < y := UInt8.lt_iff_toNat_lt.mpr before
        exact iff_of_true (append_lt_append_of_lt ((byte_lt_iff x y).mp before) length _ _)
          (.inl before)
      · obtain rfl := UInt8.toNat_inj.mp same
        rw [append_lt_append_left_iff]
        refine ⟨fun rest => .inr ⟨rfl, rest⟩, ?_⟩
        rintro (self | ⟨-, rest⟩)
        · rw [UInt8.lt_iff_toNat_lt] at self
          omega
        · exact rest
      · have reverse := append_lt_append_of_lt
          ((byte_lt_iff y x).mp (UInt8.lt_iff_toNat_lt.mpr after)) length.symm (ofBytes b) (ofBytes a)
        refine iff_of_false (fun below => lt_irrefl _ (below.trans reverse)) ?_
        rintro (below | ⟨rfl, -⟩)
        · rw [UInt8.lt_iff_toNat_lt] at below
          omega
        · omega

end Bits
