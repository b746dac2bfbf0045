import Mathlib.Data.List.Nodup
import Mathlib.Data.List.Perm.Basic

set_option relaxedAutoImplicit false
set_option autoImplicit false

/-!
# Unordered maps

A finite map whose iteration order is not specified: a list of key/value pairs with
distinct keys, in iteration order. Assigning to a present key keeps its place. Where a new
key lands, and how the other entries move when the table grows, is left to a `Layout`, an
arbitrary rearrangement of the entries.

## Main definitions

* `Layout` — a rearrangement of a list.
* `UnorderedMap` — the map; `UnorderedMap.find?`, `UnorderedMap.set` — lookup and
  insert-or-assign; `UnorderedMap.emplace` — insert, unless the key is present.

## Main results

* `UnorderedMap.mem_set` — the entries after an assignment, whatever the layout.
* `UnorderedMap.find?_eq_some_iff` — lookup finds exactly the entries.
* `UnorderedMap.mem_foldl_emplace` — the entries after a list of inserts under new keys.
-/

/-- A way to arrange the entries of a table: any permutation of each list. -/
structure Layout (α : Type*) where
  /-- The entries in their new places. -/
  arrange : List α → List α
  /-- No entry appears or disappears. -/
  perm : ∀ l, (arrange l).Perm l

namespace Layout

/-- Rearranging keeps the entries. -/
@[simp] lemma mem_arrange {α : Type*} (L : Layout α) {l : List α} {a : α} :
    a ∈ L.arrange l ↔ a ∈ l := (L.perm l).mem_iff

/-- The layout that puts a new entry in front and moves nothing. -/
def front (α : Type*) : Layout α := ⟨id, fun _ => List.Perm.refl _⟩

end Layout

/-- A finite map with its entries listed in iteration order. -/
@[ext] structure UnorderedMap (K V : Type*) where
  /-- The key/value pairs, in iteration order. -/
  entries : List (K × V)
  /-- The keys are distinct. -/
  nodup : (entries.map Prod.fst).Nodup

namespace UnorderedMap

variable {K V : Type*}

instance [DecidableEq K] [DecidableEq V] : DecidableEq (UnorderedMap K V) := fun a b =>
  decidable_of_iff (a.entries = b.entries) UnorderedMap.ext_iff.symm

/-- The map without entries. -/
def empty : UnorderedMap K V := ⟨[], List.nodup_nil⟩

/-- `clear`: no entries are left. -/
def clear (_ : UnorderedMap K V) : UnorderedMap K V := empty

/-- The empty map has no entries. -/
@[simp] lemma entries_empty : (empty : UnorderedMap K V).entries = [] := rfl

/-- The number of entries. -/
def size (m : UnorderedMap K V) : ℕ := m.entries.length

/-- The keys, in iteration order. -/
def keys (m : UnorderedMap K V) : List K := m.entries.map Prod.fst

/-- The values, in iteration order. -/
def values (m : UnorderedMap K V) : List V := m.entries.map Prod.snd

/-- The values are those of the entries. -/
lemma mem_values {m : UnorderedMap K V} {v : V} :
    v ∈ m.values ↔ ∃ k, (k, v) ∈ m.entries := by
  simp [values]

/-- A key has at most one value. -/
lemma value_unique {m : UnorderedMap K V} {k : K} {v w : V} (hv : (k, v) ∈ m.entries)
    (hw : (k, w) ∈ m.entries) : v = w :=
  (Prod.mk.inj (List.inj_on_of_nodup_map m.nodup hv hw rfl)).2

/-- A map has as many values as entries. -/
@[simp] lemma length_values (m : UnorderedMap K V) : m.values.length = m.size :=
  List.length_map _

variable [DecidableEq K]

/-- The value stored under a key. -/
def find? (m : UnorderedMap K V) (k : K) : Option V :=
  (m.entries.find? fun e => e.1 = k).map Prod.snd

/-- Lookup finds exactly the entries. -/
lemma find?_eq_some_iff {m : UnorderedMap K V} {k : K} {v : V} :
    m.find? k = some v ↔ (k, v) ∈ m.entries := by
  unfold find?
  rw [Option.map_eq_some_iff]
  constructor
  · rintro ⟨e, he, rfl⟩
    have hk : e.1 = k := by simpa using List.find?_some he
    exact hk ▸ List.mem_of_find?_eq_some he
  · intro hv
    cases hf : m.entries.find? fun e => e.1 = k with
    | none => simpa using List.find?_eq_none.mp hf _ hv
    | some e =>
      have hk : e.1 = k := by simpa using List.find?_some hf
      have he : (k, e.2) ∈ m.entries := hk ▸ List.mem_of_find?_eq_some hf
      exact ⟨e, rfl, value_unique he hv⟩

/-- Replace the value of one key in place. -/
def replaceEntry (k : K) (v : V) (e : K × V) : K × V := if e.1 = k then (k, v) else e

/-- Replacing a value keeps every key. -/
@[simp] lemma replaceEntry_fst (k : K) (v : V) (e : K × V) :
    (replaceEntry k v e).1 = e.1 := by
  unfold replaceEntry
  split_ifs with h
  · exact h.symm
  · rfl

/-- Insert-or-assign. A present key keeps its place, a new one is placed by the layout. -/
def set (L : Layout (K × V)) (m : UnorderedMap K V) (k : K) (v : V) : UnorderedMap K V :=
  if h : k ∈ m.entries.map Prod.fst then
    ⟨m.entries.map (replaceEntry k v), by simpa [Function.comp_def] using m.nodup⟩
  else
    ⟨L.arrange ((k, v) :: m.entries), by
      refine ((L.perm _).map Prod.fst).nodup_iff.mpr ?_
      exact List.nodup_cons.mpr ⟨h, m.nodup⟩⟩

/-- The entries after an assignment are the new one and the old ones under other keys.

**Proof sketch.** A present key has its one entry replaced; a new key is added to entries
that all have other keys, and the layout loses none of them. -/
@[simp] lemma mem_set {L : Layout (K × V)} {m : UnorderedMap K V} {k : K} {v : V}
    {e : K × V} : e ∈ (m.set L k v).entries ↔ e = (k, v) ∨ e ∈ m.entries ∧ e.1 ≠ k := by
  unfold set
  split_ifs with h
  · simp only [List.mem_map]
    constructor
    · rintro ⟨a, ha, rfl⟩
      by_cases hak : a.1 = k
      · exact Or.inl (by simp [replaceEntry, hak])
      · exact Or.inr ⟨by simpa [replaceEntry, hak] using ha, by simpa using hak⟩
    · rintro (rfl | ⟨he, hne⟩)
      · obtain ⟨a, ha, rfl⟩ := List.mem_map.mp h
        exact ⟨a, ha, by simp [replaceEntry]⟩
      · exact ⟨e, he, by simp [replaceEntry, hne]⟩
  · rw [Layout.mem_arrange, List.mem_cons]
    constructor
    · rintro (rfl | he)
      · exact Or.inl rfl
      · exact Or.inr ⟨he, fun hk => h (hk ▸ List.mem_map_of_mem he)⟩
    · rintro (rfl | ⟨he, -⟩)
      · exact Or.inl rfl
      · exact Or.inr he

/-- Assigning the value that a key has changes nothing. -/
lemma set_of_mem {L : Layout (K × V)} {m : UnorderedMap K V} {k : K} {v : V}
    (h : (k, v) ∈ m.entries) : m.set L k v = m := by
  unfold set
  rw [dif_pos (List.mem_map_of_mem (f := Prod.fst) h)]
  refine UnorderedMap.ext ?_
  show m.entries.map (replaceEntry k v) = m.entries
  refine (List.map_congr_left fun e he => ?_).trans (List.map_id _)
  unfold replaceEntry
  split_ifs with hk
  · exact Prod.ext hk.symm (value_unique (hk ▸ h) he)
  · rfl

/-- Lookup of the key just assigned. -/
@[simp] lemma find?_set_self {L : Layout (K × V)} {m : UnorderedMap K V} {k : K} {v : V} :
    (m.set L k v).find? k = some v :=
  find?_eq_some_iff.mpr (mem_set.mpr (Or.inl rfl))

/-- Lookup of another key is unchanged by an assignment. -/
lemma find?_set_of_ne {L : Layout (K × V)} {m : UnorderedMap K V} {k k' : K} {v : V}
    (h : k' ≠ k) : (m.set L k v).find? k' = m.find? k' := by
  refine Option.ext fun w => ?_
  rw [find?_eq_some_iff, find?_eq_some_iff, mem_set]
  constructor
  · rintro (he | ⟨he, -⟩)
    · exact absurd (Prod.mk.inj he).1 h
    · exact he
  · exact fun he => Or.inr ⟨he, h⟩

/-- Insert, unless the key is present. -/
def emplace (L : Layout (K × V)) (m : UnorderedMap K V) (k : K) (v : V) : UnorderedMap K V :=
  if k ∈ m.entries.map Prod.fst then m else m.set L k v

/-- The entries after an insert under a new key. -/
lemma mem_emplace {L : Layout (K × V)} {m : UnorderedMap K V} {k : K} {v : V} {e : K × V}
    (h : k ∉ m.entries.map Prod.fst) :
    e ∈ (m.emplace L k v).entries ↔ e = (k, v) ∨ e ∈ m.entries := by
  unfold emplace
  rw [if_neg h, mem_set]
  constructor
  · exact Or.imp_right And.left
  · exact Or.imp_right fun he => ⟨he, fun hk => h (hk ▸ List.mem_map_of_mem he)⟩

/-- The entries after inserts under distinct new keys. -/
lemma mem_foldl_emplace {L : Layout (K × V)} {l : List (K × V)} (hl : (l.map Prod.fst).Nodup)
    {m : UnorderedMap K V} (hm : ∀ e ∈ l, e.1 ∉ m.entries.map Prod.fst) {e : K × V} :
    e ∈ (l.foldl (fun m e => m.emplace L e.1 e.2) m).entries ↔ e ∈ l ∨ e ∈ m.entries := by
  induction l generalizing m with
  | nil => simp
  | cons a l ih =>
    obtain ⟨ha, hl⟩ := List.nodup_cons.mp hl
    have hnew := hm a List.mem_cons_self
    have hrest : ∀ b ∈ l, b.1 ∉ (m.emplace L a.1 a.2).entries.map Prod.fst := by
      intro b hb hmem
      obtain ⟨c, hc, hcb⟩ := List.mem_map.mp hmem
      rcases (mem_emplace hnew).mp hc with rfl | hc
      · exact ha (List.mem_map.mpr ⟨b, hb, hcb.symm⟩)
      · exact hm b (List.mem_cons_of_mem a hb) (List.mem_map.mpr ⟨c, hc, hcb⟩)
    rw [List.foldl_cons, ih hl hrest, mem_emplace hnew, List.mem_cons]
    tauto

/-- An assignment never makes the map smaller. -/
lemma size_le_size_set {L : Layout (K × V)} {m : UnorderedMap K V} {k : K} {v : V} :
    m.size ≤ (m.set L k v).size := by
  unfold set size
  split_ifs with h
  · simp
  · simp [(L.perm _).length_eq]

end UnorderedMap
