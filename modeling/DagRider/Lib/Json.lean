import Mathlib.Data.List.Forall2
import Mathlib.Data.List.GetD
import Mathlib.Data.List.Infix
import Mathlib.Data.UInt

set_option relaxedAutoImplicit false
set_option autoImplicit false

/-!
# JSON values

JSON values as a C++ library keeps them: strings and keys are bytes, numbers remember whether
they are unsigned, signed or floating. Typed access fails the way such a library throws, and
containers of bytes are arrays of numbers. Of the text of a value only the shape is described:
where brackets and commas stand.

## Main definitions

* `Json` — values; `Json.Error` — what typed access throws.
* `Json.at'`, `Json.element`, `Json.getString`, `Json.getUInt8`, `Json.getUInt32`,
  `Json.getUInt64`, `Json.getVector`, `Json.getArray`, `Json.items` — typed access.
* `Json.replace` — an object with another value under a key.
* `Json.Codec` — the text functions of a library.
* `Json.Writes` — a text has the shape of a value's text.

## Main results

* `Json.getArray_ofBytes` — an array of bytes is read back.
* `Json.Writes.le_length` — the text of an array has two bytes for each element, and one more.
-/

/-- `std::string` and other sequences of bytes. -/
abbrev Bytes := List UInt8

/-- The bytes of a string of ASCII characters. -/
def ascii (s : String) : Bytes := s.toList.map fun c => UInt8.ofNat c.toNat

/-- A JSON value. -/
inductive Json where
  | null
  | boolean (value : Bool)
  /-- A non-negative integer (`number_unsigned`). -/
  | unsigned (value : ℕ)
  /-- A negative integer (`number_integer`). -/
  | integer (value : ℤ)
  /-- A floating-point number, as the integer that a cast cuts it off to. -/
  | float (truncated : ℤ)
  | string (value : Bytes)
  | array (elements : List Json)
  | object (members : List (Bytes × Json))

namespace Json

/-- What typed access throws. -/
inductive Error where
  /-- `type_error`: the value has another type than the access asks for. -/
  | typeError (what : String)
  /-- `out_of_range`: no member with this key. -/
  | missingKey (key : Bytes)
  /-- `out_of_range`: no element with this index. -/
  | missingIndex (index : ℕ)
deriving DecidableEq

/-- The name of a value's type. -/
def typeName : Json → String
  | null => "null"
  | boolean _ => "boolean"
  | unsigned _ | integer _ | float _ => "number"
  | string _ => "string"
  | array _ => "array"
  | object _ => "object"

/-- The error of an access that asks for another type. -/
def mustBe (type : String) (j : Json) : Error :=
  .typeError s!"type must be {type}, but is {j.typeName}"

/-- `at(key)`. -/
def at' (key : String) : Json → Except Error Json
  | object members =>
    match members.find? fun m => m.1 = ascii key with
    | some m => .ok m.2
    | none => .error (.missingKey (ascii key))
  | j => .error (.typeError s!"cannot use at() with {j.typeName}")

/-- `at(index)` of an array. -/
def element (elements : List Json) (index : ℕ) : Except Error Json :=
  match elements[index]? with
  | some j => .ok j
  | none => .error (.missingIndex index)

/-- `get<std::string>()`. -/
def getString : Json → Except Error Bytes
  | string value => .ok value
  | j => .error (j.mustBe "string")

/-- `get<uint64_t>()`: any number, cast. -/
def getUInt64 : Json → Except Error ℕ
  | unsigned n => .ok (n % 2 ^ 64)
  | integer z | float z => .ok (z % 2 ^ 64).toNat
  | j => .error (j.mustBe "number")

/-- `get<uint32_t>()`: any number or boolean, cast. -/
def getUInt32 : Json → Except Error (Fin (2 ^ 32))
  | unsigned n => .ok (Fin.ofNat _ n)
  | integer z | float z => .ok (Fin.ofNat _ (z % 2 ^ 32).toNat)
  | boolean b => .ok (Fin.ofNat _ b.toNat)
  | j => .error (j.mustBe "number")

/-- `get<uint8_t>()`: any number or boolean, cast. -/
def getUInt8 : Json → Except Error UInt8
  | unsigned n => .ok (UInt8.ofNat n)
  | integer z | float z => .ok (UInt8.ofNat (z % 256).toNat)
  | boolean b => .ok (UInt8.ofNat b.toNat)
  | j => .error (j.mustBe "number")

/-- `get<std::vector<T>>()`, with the access to an element. -/
def getVector {α : Type} (get : Json → Except Error α) : Json → Except Error (List α)
  | array elements => elements.mapM get
  | j => .error (j.mustBe "array")

/-- `get<std::array<uint8_t, n>>()`: the first `n` elements; more are ignored. -/
def getArray (n : ℕ) : Json → Except Error Bytes
  | array elements => (List.range n).mapM fun i =>
    match elements[i]? with
    | some j => j.getUInt8
    | none => .error (.missingIndex i)
  | j => .error (j.mustBe "array")

/-- `items()`: the members of an object; the elements of an array under their indices, in
decimal; any other value but `null` under the empty key. -/
def items : Json → List (Bytes × Json)
  | object members => members
  | array elements => elements.zipIdx.map fun e => (ascii (toString e.2), e.1)
  | null => []
  | j => [([], j)]

/-- `std::array<uint8_t, n>` and `std::vector<uint8_t>` are arrays of numbers. -/
def ofBytes (bytes : Bytes) : Json := array (bytes.map fun b => unsigned b.toNat)

/-- An object with another value under a key that it has. -/
def replace (j : Json) (key : String) (value : Json) : Json :=
  match j with
  | object members => object (members.map fun m => if m.1 = ascii key then (m.1, value) else m)
  | j => j

/-- The member that another value was given to. -/
lemma find?_replace (key : String) (value : Json) (members : List (Bytes × Json)) (k : Bytes) :
    (members.map fun m => if m.1 = ascii key then (m.1, value) else m).find? (fun m => m.1 = k) =
      (members.find? fun m => m.1 = k).map fun m =>
        if m.1 = ascii key then (m.1, value) else m := by
  rw [List.find?_map]
  refine congrArg (fun p => Option.map _ (members.find? p)) (funext fun m => ?_)
  show decide ((if m.1 = ascii key then (m.1, value) else m).1 = k) = decide (m.1 = k)
  split_ifs <;> rfl

/-- Under the key stands the other value. -/
lemma at'_replace {key : String} {j x : Json} (h : j.at' key = .ok x) (value : Json) :
    (j.replace key value).at' key = .ok value := by
  cases j with
  | object members =>
    simp only [at'] at h
    simp only [replace, at', find?_replace]
    cases hm : members.find? fun m => m.1 = ascii key with
    | none =>
      rw [hm] at h
      cases h
    | some m =>
      have hkey : m.1 = ascii key := by simpa using List.find?_some hm
      rw [Option.map_some, if_pos hkey]
  | null | boolean | unsigned | integer | float | string | array => cases h

/-- Under another key stands what stood there. -/
lemma at'_replace_of_ne {key key' : String} (h : ascii key' ≠ ascii key) (j value : Json) :
    (j.replace key value).at' key' = j.at' key' := by
  cases j with
  | object members =>
    simp only [replace, at', find?_replace]
    cases hm : members.find? fun m => m.1 = ascii key' with
    | none => rfl
    | some m =>
      have hkey : m.1 = ascii key' := by simpa using List.find?_some hm
      rw [Option.map_some, if_neg (hkey ▸ h)]
  | null | boolean | unsigned | integer | float | string | array => rfl

/-- What a successful computation has gone through. -/
lemma bind_eq_ok {ε α β : Type} {x : Except ε α} {f : α → Except ε β} {b : β} :
    (x >>= f) = .ok b ↔ ∃ a, x = .ok a ∧ f a = .ok b := by
  cases x with
  | error e =>
    constructor
    · intro h
      cases h
    · rintro ⟨a, h, -⟩
      cases h
  | ok a =>
    constructor
    · exact fun h => ⟨a, rfl, h⟩
    · rintro ⟨a', h, hb⟩
      obtain rfl := Except.ok.inj h
      exact hb

/-- A test that throws was passed. -/
lemma ite_throw_eq_ok {ε α β : Type} {p : Prop} [Decidable p] {e : ε} {f : β → Except ε α}
    {x : Except ε α} {a : α} :
    (if p then (throw e : Except ε β) >>= f else x) = .ok a ↔ ¬ p ∧ x = .ok a := by
  by_cases hp : p
  · rw [if_pos hp]
    constructor
    · intro h
      cases h
    · exact fun h => absurd hp h.1
  · rw [if_neg hp]
    exact ⟨fun h => ⟨hp, h⟩, fun h => h.2⟩

/-- A computation whose error is put into another type succeeds when it does itself. -/
lemma mapError_eq_ok {ε ε' α : Type} {f : ε → ε'} {x : Except ε α} {a : α} :
    x.mapError f = .ok a ↔ x = .ok a := by
  cases x with
  | error e =>
    constructor <;> intro h <;> cases h
  | ok a' =>
    show Except.ok a' = .ok a ↔ _
    rw [Except.ok.injEq, Except.ok.injEq]

/-- Only a string is read as one. -/
lemma getString_eq_ok {j : Json} {s : Bytes} : j.getString = .ok s ↔ j = string s := by
  cases j with
  | string s' =>
    show Except.ok s' = .ok s ↔ _
    rw [Except.ok.injEq, string.injEq]
  | null | boolean | unsigned | integer | float | array | object =>
    constructor <;> intro h <;> cases h

/-- Reading succeeds when it does for each element. -/
lemma mapM_eq_ok {ε α β : Type} {get : α → Except ε β} {f : α → β} {xs : List α}
    (h : ∀ x ∈ xs, get x = .ok (f x)) : xs.mapM get = .ok (xs.map f) := by
  induction xs with
  | nil => rfl
  | cons x xs ih =>
    rw [List.mapM_cons, h x List.mem_cons_self, ih fun y hy => h y (List.mem_cons_of_mem x hy)]
    rfl

/-- Reading succeeds only if it does for each element. -/
lemma isOk_mapM_iff {ε α β : Type} {get : α → Except ε β} {xs : List α} :
    (∃ ys, xs.mapM get = .ok ys) ↔ ∀ x ∈ xs, ∃ y, get x = .ok y := by
  induction xs with
  | nil => exact ⟨fun _ x hx => absurd hx List.not_mem_nil, fun _ => ⟨[], rfl⟩⟩
  | cons x xs ih =>
    simp only [List.mapM_cons, bind_eq_ok]
    constructor
    · rintro ⟨_, y, hy, ys, hys, -⟩ z hz
      rcases List.mem_cons.mp hz with rfl | hz
      · exact ⟨y, hy⟩
      · exact ih.mp ⟨ys, hys⟩ z hz
    · intro h
      obtain ⟨y, hy⟩ := h x List.mem_cons_self
      obtain ⟨ys, hys⟩ := ih.mpr fun z hz => h z (List.mem_cons_of_mem x hz)
      exact ⟨y :: ys, y, hy, ys, hys, rfl⟩

/-- **An array of bytes is read back.** -/
theorem getArray_ofBytes (bytes : Bytes) : (ofBytes bytes).getArray bytes.length = .ok bytes := by
  have hread : ∀ i ∈ List.range bytes.length,
      (match (bytes.map fun b => unsigned b.toNat)[i]? with
        | some j => j.getUInt8
        | none => .error (.missingIndex i)) = .ok (bytes.getD i 0) := by
    intro i hi
    have hi : i < bytes.length := List.mem_range.mp hi
    rw [List.getElem?_map, List.getElem?_eq_getElem hi, List.getD_eq_getElem _ _ hi]
    show Except.ok (UInt8.ofNat bytes[i].toNat) = _
    rw [UInt8.ofNat_toNat]
  have hlist : (List.range bytes.length).map (fun i => bytes.getD i 0) = bytes := by
    refine List.ext_getElem (by simp) fun i _ hi => ?_
    rw [List.getElem_map, List.getElem_range, List.getD_eq_getElem _ _ hi]
  show List.mapM _ (List.range bytes.length) = _
  rw [mapM_eq_ok hread, hlist]

/-- A list that was read element by element has as many elements as there were. -/
lemma length_of_mapM {α : Type} {get : Json → Except Error α} {elements : List Json} {xs : List α}
    (h : elements.mapM get = .ok xs) : xs.length = elements.length := by
  induction elements generalizing xs with
  | nil =>
    obtain rfl := Except.ok.inj h
    rfl
  | cons j elements ih =>
    rw [List.mapM_cons] at h
    cases hj : get j with
    | error x =>
      rw [hj] at h
      cases h
    | ok x =>
      cases htail : elements.mapM get with
      | error y =>
        rw [hj, htail] at h
        cases h
      | ok ys =>
        rw [hj, htail] at h
        obtain rfl := Except.ok.inj h
        rw [List.length_cons, List.length_cons, ih htail]

/-- A vector is read from an array of the same length. -/
lemma exists_of_getVector {α : Type} {get : Json → Except Error α} {j : Json} {xs : List α}
    (h : j.getVector get = .ok xs) :
    ∃ elements, j = array elements ∧ xs.length = elements.length := by
  cases j with
  | array elements => exact ⟨elements, rfl, length_of_mapM h⟩
  | null | boolean | unsigned | integer | float | string | object => cases h

/-! ## Texts -/

/-- The text functions of a JSON library: `dump`, and `parse`, which is `none` when it throws
`parse_error`. -/
structure Codec where
  dump : Json → Bytes
  parse : Bytes → Option Json

/-- Texts with commas between them. -/
def commas : List Bytes → Bytes
  | [] => []
  | [s] => s
  | s :: t :: ss => s ++ ascii "," ++ commas (t :: ss)

/-- `Writes s j`: the bytes `s` have the shape of a JSON text for `j`. Which number, string or
literal a token stands for is not part of the shape, and neither are the members of objects. -/
inductive Writes : Bytes → Json → Prop where
  /-- A literal, a number, a string or an object. -/
  | token {s : Bytes} {j : Json} (h : s ≠ []) (hj : ∀ xs, j ≠ array xs) : Writes s j
  /-- Elements in brackets. -/
  | array {ss : List Bytes} {xs : List Json} (h : List.Forall₂ Writes ss xs) :
    Writes (ascii "[" ++ commas ss ++ ascii "]") (array xs)
  /-- White space in the brackets of an empty array. -/
  | blank (s : Bytes) : Writes (ascii "[" ++ s ++ ascii "]") (Json.array [])
  /-- White space around a text. -/
  | pad {s : Bytes} {j : Json} (before after : Bytes) (h : Writes s j) :
    Writes (before ++ s ++ after) j

/-- No text is empty. -/
lemma Writes.length_pos : ∀ {s : Bytes} {j : Json}, Writes s j → 1 ≤ s.length
  | _, _, .token h _ => List.length_pos_iff.mpr h
  | _, _, .array _ => by simp [ascii]
  | _, _, .blank _ => by simp [ascii]
  | _, _, .pad _ _ h => by
    have hs := h.length_pos
    simp only [List.length_append]
    omega

/-- Non-empty texts with commas between them. -/
lemma le_length_commas {ss : List Bytes} (h : ∀ s ∈ ss, 1 ≤ s.length) :
    2 * ss.length ≤ (commas ss).length + 1 := by
  induction ss with
  | nil => simp
  | cons s ss ih =>
    have hs : 1 ≤ s.length := h s (by simp)
    have hss := ih fun t ht => h t (by simp [ht])
    cases ss with
    | nil =>
      simp only [commas, List.length_cons, List.length_nil]
      omega
    | cons t ss =>
      have hcomma : (ascii ",").length = 1 := rfl
      simp only [commas, List.length_append, List.length_cons, hcomma] at hss ⊢
      omega

/-- **The text of an array is long**: two bytes for each element, and one more. -/
theorem Writes.le_length : ∀ {s : Bytes} {j : Json}, Writes s j → ∀ {xs : List Json},
    j = Json.array xs → 2 * xs.length + 1 ≤ s.length
  | _, _, .token _ hj, xs, hx => absurd hx (hj xs)
  | _, _, @Writes.array ss _ h, _, hx => by
    obtain rfl := Json.array.inj hx
    have hpos : ∀ s ∈ ss, 1 ≤ s.length :=
      ((List.forall₂_and_left _ _).mp
        (h.imp fun _ _ hs => ⟨hs.length_pos, hs⟩)).1
    have hcommas := le_length_commas hpos
    have hlen := h.length_eq
    simp only [List.length_append]
    have hopen : (ascii "[").length = 1 := rfl
    have hclose : (ascii "]").length = 1 := rfl
    omega
  | _, _, .blank _, _, hx => by
    obtain rfl := Json.array.inj hx
    simp [ascii]
  | _, _, .pad _ _ h, _, hx => by
    have hs := h.le_length hx
    simp only [List.length_append]
    omega

/-- A parser accepts JSON texts only: somewhere in the bytes, before any `NUL`, stands a text
of the value it returns. (A byte order mark may come first, and a `NUL` ends the input.) -/
def Codec.Conforms (T : Codec) : Prop :=
  ∀ s j, T.parse s = some j → ∃ t, t <:+: s ∧ (0 : UInt8) ∉ t ∧ Writes t j

end Json
