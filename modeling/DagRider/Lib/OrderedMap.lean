import Mathlib.Data.List.Pairwise
import Mathlib.Data.List.Perm.Subperm
import Mathlib.Order.Lattice

set_option relaxedAutoImplicit false
set_option autoImplicit false

/-!
# Ordered maps

A finite map whose iteration visits the keys in increasing order, as a list of key/value
pairs with strictly increasing keys. The order is a field of the structure, so two maps with
the same entries are the same map.

## Main definitions

* `OrderedMap` — the map; `OrderedMap.find?`, `OrderedMap.set` — lookup and
  insert-or-assign; `OrderedMap.ofList` — the map of a list of assignments.

## Main results

* `OrderedMap.mem_set` — the entries after an assignment.
* `OrderedMap.find?_eq_some_iff` — lookup finds exactly the entries.
* `OrderedMap.mem_ofList_iff` — the entries of the map of a list.
-/

/-- A finite map with its entries listed by strictly increasing key. -/
@[ext] structure OrderedMap (K V : Type*) [LinearOrder K] where
  /-- The key/value pairs, in iteration order. -/
  entries : List (K × V)
  /-- The keys increase strictly along the list. -/
  sorted : entries.Pairwise fun a b => a.1 < b.1

namespace OrderedMap

variable {K V : Type*} [LinearOrder K]

instance [DecidableEq V] : DecidableEq (OrderedMap K V) := fun a b =>
  decidable_of_iff (a.entries = b.entries) OrderedMap.ext_iff.symm

/-- The map without entries. -/
def empty : OrderedMap K V := ⟨[], List.Pairwise.nil⟩

/-- The empty map has no entries. -/
@[simp] lemma entries_empty : (empty : OrderedMap K V).entries = [] := rfl

/-- The value stored under a key. -/
def find? (m : OrderedMap K V) (k : K) : Option V :=
  (m.entries.find? fun e => e.1 = k).map Prod.snd

/-- Insert a pair into a list of pairs with increasing keys, replacing the value of an
equal key. -/
def insertEntry (k : K) (v : V) : List (K × V) → List (K × V)
  | [] => [(k, v)]
  | e :: l =>
    if k < e.1 then (k, v) :: e :: l
    else if k = e.1 then (k, v) :: l
    else e :: insertEntry k v l

/-- The pairs of an insertion are the new one and the old ones with another key.

**Proof sketch.** Induction on the list. Where the new key comes first or replaces the head,
every later key is larger and so differs from it. -/
lemma mem_insertEntry {k : K} {v : V} {l : List (K × V)}
    (hl : l.Pairwise fun a b => a.1 < b.1) {e : K × V} :
    e ∈ insertEntry k v l ↔ e = (k, v) ∨ e ∈ l ∧ e.1 ≠ k := by
  induction l with
  | nil => simp [insertEntry]
  | cons a l ih =>
    obtain ⟨ha, hl⟩ := List.pairwise_cons.mp hl
    have hlater : ∀ b ∈ l, k ≤ a.1 → b.1 ≠ k := fun b hb hka hbk =>
      absurd (ha b hb) (not_lt.mpr (hbk ▸ hka))
    unfold insertEntry
    split_ifs with h1 h2
    · have hak : a.1 ≠ k := ne_of_gt h1
      simp only [List.mem_cons]
      constructor
      · rintro (rfl | rfl | he)
        · exact Or.inl rfl
        · exact Or.inr ⟨Or.inl rfl, hak⟩
        · exact Or.inr ⟨Or.inr he, hlater e he h1.le⟩
      · rintro (rfl | ⟨rfl | he, -⟩)
        · exact Or.inl rfl
        · exact Or.inr (Or.inl rfl)
        · exact Or.inr (Or.inr he)
    · simp only [List.mem_cons]
      constructor
      · rintro (rfl | he)
        · exact Or.inl rfl
        · exact Or.inr ⟨Or.inr he, hlater e he h2.le⟩
      · rintro (rfl | ⟨rfl | he, hne⟩)
        · exact Or.inl rfl
        · exact absurd h2.symm hne
        · exact Or.inr he
    · have hak : a.1 ≠ k := fun h => h2 h.symm
      rw [List.mem_cons, ih hl, List.mem_cons]
      constructor
      · rintro (rfl | rfl | ⟨he, hne⟩)
        · exact Or.inr ⟨Or.inl rfl, hak⟩
        · exact Or.inl rfl
        · exact Or.inr ⟨Or.inr he, hne⟩
      · rintro (rfl | ⟨rfl | he, hne⟩)
        · exact Or.inr (Or.inl rfl)
        · exact Or.inl rfl
        · exact Or.inr (Or.inr ⟨he, hne⟩)

/-- Insertion keeps the keys strictly increasing. -/
lemma pairwise_insertEntry {k : K} {v : V} {l : List (K × V)}
    (hl : l.Pairwise fun a b => a.1 < b.1) :
    (insertEntry k v l).Pairwise fun a b => a.1 < b.1 := by
  induction l with
  | nil => simp [insertEntry]
  | cons a l ih =>
    obtain ⟨ha, htl⟩ := List.pairwise_cons.mp hl
    unfold insertEntry
    split_ifs with h1 h2
    · refine List.pairwise_cons.mpr ⟨?_, hl⟩
      intro b hb
      rcases List.mem_cons.mp hb with rfl | hb
      · exact h1
      · exact h1.trans (ha b hb)
    · exact List.pairwise_cons.mpr ⟨fun b hb => h2 ▸ ha b hb, htl⟩
    · refine List.pairwise_cons.mpr ⟨?_, ih htl⟩
      intro b hb
      rcases (mem_insertEntry htl).mp hb with rfl | ⟨hb, -⟩
      · exact lt_of_le_of_ne (not_lt.mp h1) (Ne.symm h2)
      · exact ha b hb

/-- Insert-or-assign. -/
def set (m : OrderedMap K V) (k : K) (v : V) : OrderedMap K V :=
  ⟨insertEntry k v m.entries, pairwise_insertEntry m.sorted⟩

/-- Assigning the value that a key has changes nothing. -/
lemma set_of_mem {m : OrderedMap K V} {k : K} {v : V} (h : (k, v) ∈ m.entries) :
    m.set k v = m := by
  obtain ⟨l, hl⟩ := m
  refine OrderedMap.ext ?_
  show insertEntry k v l = l
  induction l with
  | nil => exact absurd h List.not_mem_nil
  | cons a l ih =>
    obtain ⟨ha, htl⟩ := List.pairwise_cons.mp hl
    unfold insertEntry
    rcases List.mem_cons.mp h with rfl | h
    · rw [if_neg (lt_irrefl k), if_pos rfl]
    · have hlt : a.1 < k := ha (k, v) h
      rw [if_neg hlt.asymm, if_neg hlt.ne', ih htl h]

/-- The entries after an assignment are the new one and the old ones under other keys. -/
@[simp] lemma mem_set {m : OrderedMap K V} {k : K} {v : V} {e : K × V} :
    e ∈ (m.set k v).entries ↔ e = (k, v) ∨ e ∈ m.entries ∧ e.1 ≠ k :=
  mem_insertEntry m.sorted

/-- No entry is listed twice. -/
lemma nodup_entries (m : OrderedMap K V) : m.entries.Nodup :=
  m.sorted.imp fun h heq => h.ne (congrArg Prod.fst heq)

/-- A key has at most one value. -/
lemma value_unique {m : OrderedMap K V} {k : K} {v w : V} (hv : (k, v) ∈ m.entries)
    (hw : (k, w) ∈ m.entries) : v = w := by
  by_contra hne
  have h := List.Pairwise.forall_of_forall_of_flip (R := fun a b : K × V => a ≠ b → a.1 ≠ b.1)
    (fun a _ h => absurd rfl h) (m.sorted.imp fun h _ => h.ne) (m.sorted.imp fun h _ => h.ne')
  exact h hv hw (fun he => hne (Prod.mk.inj he).2) rfl

/-- Lookup finds exactly the entries. -/
lemma find?_eq_some_iff {m : OrderedMap K V} {k : K} {v : V} :
    m.find? k = some v ↔ (k, v) ∈ m.entries := by
  unfold find?
  rw [Option.map_eq_some_iff]
  constructor
  · rintro ⟨e, he, rfl⟩
    have hk : e.1 = k := by simpa using List.find?_some he
    exact hk ▸ List.mem_of_find?_eq_some he
  · intro hv
    cases hf : m.entries.find? fun e => e.1 = k with
    | none => simpa using List.find?_eq_none.mp hf _ hv
    | some e =>
      have hk : e.1 = k := by simpa using List.find?_some hf
      have he : (k, e.2) ∈ m.entries := hk ▸ List.mem_of_find?_eq_some hf
      exact ⟨e, rfl, value_unique he hv⟩

/-- Lookup of the key just assigned. -/
@[simp] lemma find?_set_self {m : OrderedMap K V} {k : K} {v : V} :
    (m.set k v).find? k = some v :=
  find?_eq_some_iff.mpr (mem_set.mpr (Or.inl rfl))

/-- Lookup of another key is unchanged by an assignment. -/
lemma find?_set_of_ne {m : OrderedMap K V} {k k' : K} {v : V} (h : k' ≠ k) :
    (m.set k v).find? k' = m.find? k' := by
  refine Option.ext fun w => ?_
  rw [find?_eq_some_iff, find?_eq_some_iff, mem_set]
  constructor
  · rintro (he | ⟨he, -⟩)
    · exact absurd (Prod.mk.inj he).1 h
    · exact he
  · exact fun he => Or.inr ⟨he, h⟩

/-- The map without a key. -/
def erase (m : OrderedMap K V) (k : K) : OrderedMap K V :=
  ⟨m.entries.filter fun e => e.1 ≠ k, m.sorted.sublist List.filter_sublist⟩

/-- The entries that stay are those under other keys. -/
@[simp] lemma mem_erase {m : OrderedMap K V} {k : K} {e : K × V} :
    e ∈ (m.erase k).entries ↔ e ∈ m.entries ∧ e.1 ≠ k := by
  unfold erase
  rw [List.mem_filter, decide_eq_true_iff]

/-- Assigning a new key makes the map larger. -/
lemma length_lt_length_set {m : OrderedMap K V} {k : K} {v : V}
    (h : ∀ e ∈ m.entries, e.1 ≠ k) : m.entries.length < (m.set k v).entries.length := by
  have hsub : (k, v) :: m.entries ⊆ (m.set k v).entries := by
    intro e he
    rcases List.mem_cons.mp he with rfl | he
    · exact mem_set.mpr (Or.inl rfl)
    · exact mem_set.mpr (Or.inr ⟨he, h e he⟩)
  have hnodup : ((k, v) :: m.entries).Nodup :=
    List.nodup_cons.mpr ⟨fun he => h _ he rfl, m.nodup_entries⟩
  exact (hnodup.subperm hsub).length_le

/-! ## Maps from lists -/

/-- The map of a list of pairs; a later pair replaces an earlier one with the same key. -/
def ofList (l : List (K × V)) : OrderedMap K V := l.foldl (fun m e => m.set e.1 e.2) empty

/-- The entries after a list of assignments come from the map or from the list. -/
lemma mem_of_mem_foldl_set {l : List (K × V)} {m : OrderedMap K V} {e : K × V}
    (h : e ∈ (l.foldl (fun m e => m.set e.1 e.2) m).entries) : e ∈ m.entries ∨ e ∈ l := by
  induction l generalizing m with
  | nil => exact Or.inl h
  | cons a l ih =>
    rcases ih h with h | h
    · rcases mem_set.mp h with rfl | ⟨h, -⟩
      · exact Or.inr (by simp)
      · exact Or.inl h
    · exact Or.inr (by simp [h])

/-- Keys are never lost by a list of assignments, and each assigned key is present. -/
lemma exists_mem_foldl_set {l : List (K × V)} {m : OrderedMap K V} {e : K × V}
    (h : e ∈ m.entries ∨ e ∈ l) :
    ∃ v, (e.1, v) ∈ (l.foldl (fun m e => m.set e.1 e.2) m).entries := by
  induction l generalizing m e with
  | nil => exact ⟨e.2, by simpa using h⟩
  | cons a l ih =>
    rcases h with h | h
    · by_cases hk : e.1 = a.1
      · rw [hk]
        exact ih (Or.inl (mem_set.mpr (Or.inl rfl)) : (a.1, a.2) ∈ _ ∨ _)
      · exact ih (Or.inl (mem_set.mpr (Or.inr ⟨h, hk⟩)))
    · rcases List.mem_cons.mp h with rfl | h
      · exact ih (Or.inl (mem_set.mpr (Or.inl rfl)) : (e.1, e.2) ∈ _ ∨ _)
      · exact ih (Or.inr h)

/-- The entries of the map of a list are among its pairs. -/
lemma mem_of_mem_ofList {l : List (K × V)} {e : K × V} (h : e ∈ (ofList l).entries) : e ∈ l := by
  simpa using mem_of_mem_foldl_set h

/-- Every key of the list is a key of its map. -/
lemma exists_mem_ofList {l : List (K × V)} {e : K × V} (h : e ∈ l) :
    ∃ v, (e.1, v) ∈ (ofList l).entries := exists_mem_foldl_set (Or.inr h)

/-- A list without two values for one key has exactly its pairs as the entries. -/
lemma mem_ofList_iff {l : List (K × V)}
    (hl : ∀ a ∈ l, ∀ b ∈ l, a.1 = b.1 → a = b) {e : K × V} :
    e ∈ (ofList l).entries ↔ e ∈ l := by
  refine ⟨mem_of_mem_ofList, fun h => ?_⟩
  obtain ⟨v, hv⟩ := exists_mem_ofList h
  have he : (e.1, v) = e := hl _ (mem_of_mem_ofList hv) e h rfl
  exact he ▸ hv

end OrderedMap
