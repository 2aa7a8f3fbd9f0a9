import OrphiqCore.Store.Log

/-!
# Maps kept as entries in ascending order of key

An ordered map is a list of key-value entries whose keys strictly increase. `get` reads a key,
`insert` and `erase` write one, and `from s` holds the entries an iterator positioned at `s`
still visits. A write log applies to an ordered map as it does to the map it denotes
(`get_foldl_write`). Two ascending lists with disjoint keys merge into an ascending list
(`Ascending.merge`).
-/

namespace Store

variable {κ ν : Type} [LinearOrder κ]

def Ascending (entries : List (κ × ν)) : Prop := entries.Pairwise fun a b => a.1 < b.1

instance (entries : List (κ × ν)) : Decidable (Ascending entries) :=
  inferInstanceAs (Decidable (entries.Pairwise _))

section Ascending

variable {entries entries' : List (κ × ν)}

theorem Ascending.sublist (ascending : Ascending entries) (sub : entries'.Sublist entries) :
    Ascending entries' :=
  List.Pairwise.sublist sub ascending

theorem Ascending.of_cons {e : κ × ν} (ascending : Ascending (e :: entries)) : Ascending entries :=
  List.Pairwise.of_cons ascending

theorem Ascending.lt_of_mem {e x : κ × ν} (ascending : Ascending (e :: entries)) (mem : x ∈ entries) :
    e.1 < x.1 :=
  List.rel_of_pairwise_cons ascending mem

theorem Ascending.eq_of_mem (ascending : Ascending entries) {k : κ} {v w : ν} (mem : (k, v) ∈ entries)
    (mem' : (k, w) ∈ entries) : v = w := by
  induction entries with
  | nil => simp at mem
  | cons e entries ih =>
    rcases List.mem_cons.mp mem with rfl | mem <;> rcases List.mem_cons.mp mem' with same | mem'
    · exact (Prod.mk.inj same).2.symm
    · exact absurd (ascending.lt_of_mem mem') (lt_irrefl k)
    · exact absurd (ascending.lt_of_mem mem) (by rw [← same]; exact lt_irrefl k)
    · exact ih ascending.of_cons mem mem'

theorem Ascending.nodup_keys (ascending : Ascending entries) : (entries.map (·.1)).Nodup := by
  induction entries with
  | nil => exact List.nodup_nil
  | cons e entries ih =>
    refine List.nodup_cons.mpr ⟨fun mem => ?_, ih ascending.of_cons⟩
    obtain ⟨x, inEntries, same⟩ := List.mem_map.mp mem
    exact absurd (ascending.lt_of_mem inEntries) (by rw [same]; exact lt_irrefl _)

/-- Merging by key keeps keys ascending when the two lists share no key. -/
theorem Ascending.merge {left right : List (κ × ν)} (ascendingLeft : Ascending left)
    (ascendingRight : Ascending right) (disjoint : ∀ a ∈ left, ∀ b ∈ right, a.1 ≠ b.1) :
    Ascending (left.merge right fun a b => a.1 < b.1) := by
  induction left generalizing right with
  | nil => simpa using ascendingRight
  | cons a left ihLeft =>
    induction right with
    | nil => simpa using ascendingLeft
    | cons b right ihRight =>
      by_cases first : a.1 < b.1
      · rw [List.cons_merge_cons_pos _ _ _ (decide_eq_true first)]
        refine List.Pairwise.cons (fun x mem => ?_) (ihLeft ascendingLeft.of_cons ascendingRight
          fun a' mem' b' => disjoint a' (List.mem_cons_of_mem a mem') b')
        rcases List.mem_merge.mp mem with mem | mem
        · exact ascendingLeft.lt_of_mem mem
        rcases List.mem_cons.mp mem with rfl | mem
        · exact first
        · exact first.trans (ascendingRight.lt_of_mem mem)
      · -- the keys differ, so the right head is the smaller one
        have second : b.1 < a.1 :=
          lt_of_le_of_ne (not_lt.mp first) (disjoint a List.mem_cons_self b List.mem_cons_self).symm
        rw [List.cons_merge_cons_neg _ _ _ (by simpa using first)]
        refine List.Pairwise.cons (fun x mem => ?_) (ihRight ascendingRight.of_cons
          fun a' mem' b' mem'' => disjoint a' mem' b' (List.mem_cons_of_mem b mem''))
        rcases List.mem_merge.mp mem with mem | mem
        · rcases List.mem_cons.mp mem with rfl | mem
          · exact second
          · exact second.trans (ascendingLeft.lt_of_mem mem)
        · exact ascendingRight.lt_of_mem mem

end Ascending

/-- Put an entry in its place, replacing the entry of the same key. -/
def insertEntry (k : κ) (v : ν) : List (κ × ν) → List (κ × ν)
  | [] => [(k, v)]
  | e :: es => if k < e.1 then (k, v) :: e :: es else if k = e.1 then (k, v) :: es else e :: insertEntry k v es

theorem lookup_cons_eq_ite (e : κ × ν) (es : List (κ × ν)) (k : κ) :
    (e :: es).lookup k = if k = e.1 then some e.2 else es.lookup k := by
  obtain ⟨key, value⟩ := e
  by_cases same : k = key
  · rw [same, List.lookup_cons_self, if_pos rfl]
  · have differs : (k == key) = false := beq_false_of_ne same
    simp [List.lookup_cons, differs, same]

theorem lookup_insertEntry (k k' : κ) (v : ν) (es : List (κ × ν)) :
    (insertEntry k v es).lookup k' = if k' = k then some v else es.lookup k' := by
  induction es with
  | nil => simp [insertEntry, lookup_cons_eq_ite]
  | cons e es ih =>
    rw [insertEntry]
    by_cases before : k < e.1
    · rw [if_pos before, lookup_cons_eq_ite]
    rw [if_neg before]
    by_cases same : k = e.1
    · rw [if_pos same, lookup_cons_eq_ite, lookup_cons_eq_ite, ← same]
      by_cases hk : k' = k <;> simp [hk]
    · rw [if_neg same, lookup_cons_eq_ite, ih, lookup_cons_eq_ite]
      -- the entry passed over keeps its key apart from the new one
      by_cases hk : k' = e.1
      · have other : k' ≠ k := fun h => same (h ▸ hk)
        rw [if_pos hk, if_neg other, if_pos hk]
      · simp [hk]

theorem mem_insertEntry_keys {k : κ} {v : ν} {es : List (κ × ν)} {x : κ × ν} (mem : x ∈ insertEntry k v es) :
    x.1 = k ∨ x ∈ es := by
  induction es with
  | nil => simp [insertEntry] at mem; exact .inl (by rw [mem])
  | cons e es ih =>
    rw [insertEntry] at mem
    split_ifs at mem with before same
    · rcases List.mem_cons.mp mem with rfl | mem
      · exact .inl rfl
      · exact .inr mem
    · rcases List.mem_cons.mp mem with rfl | mem
      · exact .inl rfl
      · exact .inr (List.mem_cons_of_mem e mem)
    · rcases List.mem_cons.mp mem with rfl | mem
      · exact .inr List.mem_cons_self
      · exact (ih mem).imp_right (List.mem_cons_of_mem e)

theorem Ascending.insertEntry {es : List (κ × ν)} (ascending : Ascending es) (k : κ) (v : ν) :
    Ascending (insertEntry k v es) := by
  induction es with
  | nil => exact List.pairwise_singleton _ _
  | cons e es ih =>
    rw [Store.insertEntry]
    split_ifs with before same
    · exact List.Pairwise.cons (fun x mem => by
        rcases List.mem_cons.mp mem with rfl | mem
        · exact before
        · exact before.trans (ascending.lt_of_mem mem)) ascending
    · exact List.Pairwise.cons (fun x mem => same ▸ ascending.lt_of_mem mem) ascending.of_cons
    · have after : e.1 < k := lt_of_le_of_ne (not_lt.mp before) (Ne.symm same)
      refine List.Pairwise.cons (fun x mem => ?_) (ih ascending.of_cons)
      rcases mem_insertEntry_keys mem with key | mem
      · exact key ▸ after
      · exact ascending.lt_of_mem mem

theorem lookup_filter_ne (k k' : κ) (es : List (κ × ν)) :
    (es.filter fun e => e.1 ≠ k).lookup k' = if k' = k then none else es.lookup k' := by
  induction es with
  | nil => simp
  | cons e es ih =>
    by_cases kept : e.1 = k
    · rw [List.filter_cons_of_neg (by simpa using kept), ih, lookup_cons_eq_ite]
      by_cases hk : k' = k
      · simp [hk]
      · rw [if_neg hk, if_neg hk, if_neg fun h => hk (h.trans kept)]
    · rw [List.filter_cons_of_pos (by simpa using kept), lookup_cons_eq_ite, ih, lookup_cons_eq_ite]
      by_cases hk : k' = e.1
      · simp [hk, kept]
      · simp [hk]

theorem Ascending.lookup_eq_some_iff {es : List (κ × ν)} (ascending : Ascending es) {k : κ} {v : ν} :
    es.lookup k = some v ↔ (k, v) ∈ es := by
  induction es with
  | nil => simp
  | cons e es ih =>
    rw [lookup_cons_eq_ite]
    by_cases same : k = e.1
    · rw [if_pos same, Option.some.injEq]
      constructor
      · rintro rfl
        exact List.mem_cons.mpr (.inl (by rw [same]))
      · intro mem
        exact ascending.eq_of_mem (List.mem_cons.mpr (.inl (by rw [same]))) mem
    · rw [if_neg same, ih ascending.of_cons]
      simp [List.mem_cons, Prod.ext_iff, same]

/-- A map from keys to values, as its entries in ascending order of key. -/
structure SortedMap (κ ν : Type) [LinearOrder κ] where
  entries : List (κ × ν)
  ascending : Ascending entries

namespace SortedMap

def empty : SortedMap κ ν := ⟨[], List.Pairwise.nil⟩

def get (m : SortedMap κ ν) (k : κ) : Option ν := m.entries.lookup k

def insert (m : SortedMap κ ν) (k : κ) (v : ν) : SortedMap κ ν :=
  ⟨insertEntry k v m.entries, m.ascending.insertEntry k v⟩

def erase (m : SortedMap κ ν) (k : κ) : SortedMap κ ν :=
  ⟨m.entries.filter fun e => e.1 ≠ k, m.ascending.sublist List.filter_sublist⟩

/-- The entries at and after a key, in order: what an iterator positioned there visits. -/
def «from» (m : SortedMap κ ν) (s : κ) : List (κ × ν) := m.entries.dropWhile fun e => e.1 < s

def write (m : SortedMap κ ν) (w : Write κ ν) : SortedMap κ ν :=
  match w.value with
  | some v => m.insert w.key v
  | none => m.erase w.key

variable (m : SortedMap κ ν)

@[simp] theorem get_empty (k : κ) : (empty : SortedMap κ ν).get k = none := rfl

theorem get_insert (k k' : κ) (v : ν) : (m.insert k v).get k' = if k' = k then some v else m.get k' :=
  lookup_insertEntry k k' v m.entries

theorem get_erase (k k' : κ) : (m.erase k).get k' = if k' = k then none else m.get k' :=
  lookup_filter_ne k k' m.entries

theorem get_eq_some_iff {k : κ} {v : ν} : m.get k = some v ↔ (k, v) ∈ m.entries :=
  m.ascending.lookup_eq_some_iff

theorem mem_from {s : κ} {x : κ × ν} : x ∈ m.from s ↔ x ∈ m.entries ∧ s ≤ x.1 := by
  obtain ⟨entries, ascending⟩ := m
  simp only [«from»]
  induction entries with
  | nil => simp
  | cons e entries ih =>
    by_cases before : e.1 < s
    · rw [List.dropWhile_cons_of_pos (by simpa using before), ih ascending.of_cons]
      constructor
      · exact fun ⟨mem, after⟩ => ⟨List.mem_cons_of_mem e mem, after⟩
      · rintro ⟨mem, after⟩
        rcases List.mem_cons.mp mem with rfl | mem
        · exact absurd after (not_le.mpr before)
        · exact ⟨mem, after⟩
    · -- every later entry is past the first one, which is already at or after s
      rw [List.dropWhile_cons_of_neg (by simpa using before)]
      refine ⟨fun mem => ⟨mem, ?_⟩, fun ⟨mem, _⟩ => mem⟩
      rcases List.mem_cons.mp mem with rfl | mem
      · exact not_lt.mp before
      · exact (not_lt.mp before).trans (ascending.lt_of_mem mem).le

theorem ascending_from (s : κ) : Ascending (m.from s) :=
  m.ascending.sublist (List.dropWhile_sublist _)

theorem get_write (w : Write κ ν) : (m.write w).get = w.apply m.get := by
  funext k
  rw [Write.apply, Function.update_apply]
  cases value : w.value with
  | some v => simp [write, value, get_insert]
  | none => simp [write, value, get_erase]

/-- A log written into an ordered map leaves the map the log's run gives. -/
theorem get_foldl_write (ws : List (Write κ ν)) : (ws.foldl write m).get = run m.get ws := by
  induction ws generalizing m with
  | nil => rfl
  | cons w ws ih => rw [List.foldl_cons, ih, get_write]; rfl

end SortedMap

end Store
