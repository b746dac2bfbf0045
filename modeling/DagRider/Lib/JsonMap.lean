import DagRider.Lib.Json
import DagRider.Lib.UnorderedMap

set_option relaxedAutoImplicit false
set_option autoImplicit false

/-!
# Unordered maps as JSON

A map whose keys are not strings is an array of `[key, value]` pairs, in iteration order. Reading
clears the target map and inserts the pairs one after another; of two pairs with one key the first
stays.

## Main definitions

* `UnorderedMap.toJson` — a map as JSON; `UnorderedMap.getTo` — a map read into another one.

## Main results

* `UnorderedMap.getTo_toJson` — what was written is read back, whatever the target held.
-/

namespace UnorderedMap

variable {K V ε : Type} [DecidableEq K]

/-- `to_json` of a map, with the JSON of keys and values. -/
def toJson (key : K → Json) (value : V → Json) (m : UnorderedMap K V) : Json :=
  .array (m.entries.map fun e => .array [key e.1, value e.2])

/-- Read one pair and insert it. `err` makes an exception of an error of typed access. -/
def insertPair (err : Json.Error → ε) (L : Layout (K × V)) (getKey : Json → Except ε K)
    (getValue : Json → Except ε V) (m : UnorderedMap K V) : Json → Except ε (UnorderedMap K V)
  | .array pair => do
    let k ← getKey (← (Json.element pair 0).mapError err)
    let v ← getValue (← (Json.element pair 1).mapError err)
    return m.emplace L k v
  | p => .error (err (p.mustBe "array"))

/-- `get_to(target)`. -/
def getTo (err : Json.Error → ε) (L : Layout (K × V)) (getKey : Json → Except ε K)
    (getValue : Json → Except ε V) (j : Json) (target : UnorderedMap K V) :
    Except ε (UnorderedMap K V) :=
  match j with
  | .array pairs => pairs.foldlM (insertPair err L getKey getValue) target.clear
  | j => .error (err (j.mustBe "array"))

variable {err : Json.Error → ε} {L : Layout (K × V)} {getKey : Json → Except ε K}
  {getValue : Json → Except ε V} {key : K → Json} {value : V → Json}

/-- Pairs that can be read are inserted one after another. -/
lemma foldlM_insertPair (hkey : ∀ k, getKey (key k) = .ok k)
    (hvalue : ∀ v, getValue (value v) = .ok v) (l : List (K × V)) (m : UnorderedMap K V) :
    (l.map fun e => Json.array [key e.1, value e.2]).foldlM (insertPair err L getKey getValue) m =
      .ok (l.foldl (fun m e => m.emplace L e.1 e.2) m) := by
  induction l generalizing m with
  | nil => rfl
  | cons e l ih =>
    have hpair : insertPair err L getKey getValue m (.array [key e.1, value e.2]) =
        .ok (m.emplace L e.1 e.2) := by
      show (do
        let k ← getKey (key e.1)
        let v ← getValue (value e.2)
        return m.emplace L k v) = _
      rw [hkey, hvalue]
      rfl
    rw [List.map_cons, List.foldlM_cons, hpair]
    exact ih (m.emplace L e.1 e.2)

/-- **What was written is read back**, whatever the target held and however the tables are laid
out: the two maps have the same keys, with the same values. -/
theorem getTo_toJson (hkey : ∀ k, getKey (key k) = .ok k)
    (hvalue : ∀ v, getValue (value v) = .ok v) (m target : UnorderedMap K V) :
    ∃ m', getTo err L getKey getValue (m.toJson key value) target = .ok m' ∧
      ∀ k, m'.find? k = m.find? k := by
  refine ⟨_, foldlM_insertPair hkey hvalue m.entries target.clear, fun k => Option.ext fun v => ?_⟩
  rw [find?_eq_some_iff, find?_eq_some_iff, mem_foldl_emplace m.nodup (by simp [clear])]
  simp [clear]

end UnorderedMap
