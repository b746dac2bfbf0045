import DagRider.Model.Pipeline

set_option relaxedAutoImplicit false
set_option autoImplicit false

/-!
# What becomes of a vertex on the wire

`to_json` writes arrays where `from_json` reads strings, so no vertex survives its own encoding;
and the promise between the receiver and the broadcaster of vertices serves once.

## Main definitions

* `DagRider.Vertex.RoundTrips` — the text of a vertex decodes to it.
* `DagRider.VertexPipeline.Forwards` — every vertex is handed over, taken and broadcast once.

## Main results

* `DagRider.Vertex.not_roundTrips` — no vertex does.
* `DagRider.VertexPipeline.forwards_iff` — exactly when a pipeline forwards what arrives.
-/

namespace DagRider

/-! ## The round trip -/

namespace Vertex

/-- The text of a vertex decodes to the vertex. -/
def RoundTrips (T : Json.Codec) (v : Vertex) : Prop :=
  decode T (T.dump v.toJson) = .ok v

/-- What `to_json` writes `from_json` rejects at the hash: it is an array of numbers and must
be a string. -/
lemma fromJson_toJson (v : Vertex) :
    fromJson v.toJson = .error (.json (.typeError "type must be string, but is array")) := by
  rfl

/-- The text of a vertex is not decoded. -/
lemma decode_dump {T : Json.Codec} {v : Vertex}
    (htext : T.parse (T.dump v.toJson) = some v.toJson) :
    decode T (T.dump v.toJson) =
      .error (.json (.typeError "type must be string, but is array")) := by
  unfold decode parse
  rw [htext]
  exact fromJson_toJson v

/-- **No vertex survives the wire.** Whatever the text functions do, as long as they invert each
other on it, the text that `to_json` gives for a vertex is not decoded to the vertex. -/
theorem not_roundTrips (T : Json.Codec) (v : Vertex)
    (htext : T.parse (T.dump v.toJson) = some v.toJson) : ¬ v.RoundTrips T := by
  intro h
  unfold RoundTrips at h
  rw [decode_dump htext] at h
  exact absurd h (by simp)

/-- A vertex with a block and two parents. -/
def sample : Vertex := ⟨5, 1, ⟨[[1, 2]], 7⟩, OrderedMap.ofList [(3, 1), (4, 2)], 3⟩

/-- A library that reads the text of the vertex. -/
def sampleCodec : Json.Codec := Sample.codec [sample.toJson]

/-- The library inverts its own text. -/
lemma parse_sample : sampleCodec.parse (sampleCodec.dump sample.toJson) = some sample.toJson := by
  simp [sampleCodec, Sample.codec]

/-- The vertex does not survive. -/
theorem not_roundTrips_sample : ¬ sample.RoundTrips sampleCodec :=
  not_roundTrips sampleCodec sample parse_sample

/-- What is sent for the vertex is not decoded to it. -/
theorem decode_dump_ne_ok :
    decode sampleCodec (sampleCodec.dump sample.toJson) ≠ .ok sample := by
  intro h
  exact absurd ((decode_dump parse_sample).symm.trans h) (by simp)

end Vertex

/-! ## The pipeline -/

namespace VertexPipeline

variable {T : Json.Codec} {committee : Committee} {s s' t : VertexPipeline} {e : Event}
  {es : List Event}

/-- The vertices that arrive in an event. -/
def arrivals (T : Json.Codec) : Event → List Vertex
  | .message _ serialized => (Vertex.decode T serialized).toOption.toList
  | .turn => []

/-- A message is decoded successfully. -/
def WellFormed (T : Json.Codec) : Event → Prop
  | .message _ serialized => ∃ v, Vertex.decode T serialized = .ok v
  | .turn => True

instance : DecidablePred (WellFormed T)
  | .message _ serialized => decidable_of_iff ((Vertex.decode T serialized).isOk = true) (by
      unfold WellFormed
      cases h : Vertex.decode T serialized <;> simp [h, Except.isOk, Except.toBool])
  | .turn => isTrue trivial

/-- Every vertex was handed over once, in order; no connection was closed; and the broadcaster
has taken every vertex, in order, and spawned one call of `send` for it and each address. -/
structure Forwards (committee : Committee) (vertices : List Vertex) (s : VertexPipeline) :
    Prop where
  handedOver : s.handedOver = vertices
  closed : s.closed = []
  taken : s.taken = vertices
  sends : (s.sends.map fun send => (send.1, send.2.1)) =
    vertices.flatMap fun v => committee.getNodeAddresses.map fun address => (v, address)

/-- Where the pipeline is after the given vertices have arrived. -/
structure Flow (committee : Committee) (vertices : List Vertex) (s : VertexPipeline) : Prop where
  /-- The first vertex is the value of the promise. -/
  promise : s.promise = vertices.head?
  /-- It is the only one that was handed over. -/
  handedOver : s.handedOver = vertices.head?.toList
  /-- The broadcaster takes it when it asks the future. -/
  taken : s.taken = if s.futureValid = true then [] else vertices.head?.toList
  /-- The future is asked when there is a value. -/
  futureValid : s.futureValid = false → vertices ≠ []
  /-- The program ends only after that. -/
  terminated : s.terminated = true → s.futureValid = false
  /-- Another vertex closes its connection. -/
  closed : s.closed ≠ [] → 2 ≤ vertices.length
  /-- No call of `send` is ever spawned. -/
  sends : s.sends = []

/-- A promise that was set throws. -/
lemma setValue_of_some {v w : Vertex} (h : s.promise = some w) :
    s.setValue v = .error .futureError := by
  unfold setValue
  rw [h]

/-- A promise is set once. -/
lemma setValue_of_none {v : Vertex} (h : s.promise = none) :
    s.setValue v = .ok { s with promise := some v, handedOver := s.handedOver ++ [v] } := by
  unfold setValue
  rw [h]

/-- Nothing has arrived. -/
lemma flow_init : Flow committee [] init where
  promise := rfl
  handedOver := rfl
  taken := rfl
  futureValid := by simp [init]
  terminated := by simp [init]
  closed := by simp [init]
  sends := rfl

/-- A vertex arrives that is not the first one: nothing is handed over. -/
lemma Flow.of_promise {vertices : List Vertex} (h : Flow committee vertices s)
    (hne : vertices ≠ []) (v : Vertex) (closed : List ℕ) :
    Flow committee (vertices ++ [v]) { s with closed := closed } := by
  have hhead : (vertices ++ [v]).head? = vertices.head? := List.head?_append_of_ne_nil _ hne
  refine ⟨?_, ?_, ?_, ?_, h.terminated, ?_, h.sends⟩
  · rw [hhead]
    exact h.promise
  · rw [hhead]
    exact h.handedOver
  · rw [hhead]
    exact h.taken
  · exact fun _ => by simp
  · intro _
    have hpos := List.length_pos_iff.mpr hne
    rw [List.length_append, List.length_singleton]
    omega

/-- A well-formed message. -/
lemma Flow.message {vertices : List Vertex} (h : Flow committee vertices s) {v : Vertex}
    {connection : ℕ} {serialized : Bytes} (hv : Vertex.decode T serialized = .ok v) :
    Flow committee (vertices ++ [v]) (s.message T connection serialized) := by
  have hdispatch : s.dispatch T serialized = s.setValue v := by
    unfold dispatch
    rw [hv]
    rfl
  unfold VertexPipeline.message
  rw [hdispatch]
  split_ifs with hclosed
  · -- nobody reads the message
    have hne : vertices ≠ [] := by
      rcases hclosed with hterm | hmem
      · exact h.futureValid (h.terminated hterm)
      · have htwo := h.closed (List.ne_nil_of_mem hmem)
        exact List.length_pos_iff.mp (by omega)
    exact h.of_promise hne v s.closed
  · rcases Option.eq_none_or_eq_some s.promise with hp | ⟨w, hp⟩
    · -- the first vertex
      obtain rfl : vertices = [] := List.head?_eq_none_iff.mp (h.promise.symm.trans hp)
      have hfuture : s.futureValid = true := by
        by_contra hf
        exact h.futureValid (by simpa using hf) rfl
      rw [setValue_of_none hp]
      refine ⟨rfl, ?_, ?_, ?_, h.terminated, ?_, h.sends⟩
      · rw [h.handedOver]
        rfl
      · rw [h.taken]
        simp [hfuture]
      · simp
      · intro hne
        exact absurd (h.closed hne) (by simp)
    · have hne : vertices ≠ [] := by
        rintro rfl
        exact absurd (hp.symm.trans h.promise) (by simp)
      rw [setValue_of_some hp]
      exact h.of_promise hne v (connection :: s.closed)

/-- A turn of the broadcaster. -/
lemma Flow.turn {vertices : List Vertex} (h : Flow committee vertices s)
    (hs : s.turn committee = some s') : Flow committee vertices s' := by
  unfold VertexPipeline.turn at hs
  split_ifs at hs with hterm hfuture
  · cases hp : s.promise with
    | none => simp [hp] at hs
    | some v =>
      simp only [hp, Option.some.injEq] at hs
      have hhead : vertices.head? = some v := h.promise.symm.trans hp
      have htaken : s.taken = [] := by rw [h.taken, if_pos hfuture]
      have hne : vertices ≠ [] := by
        rintro rfl
        simp at hhead
      -- the conversion to a string throws before the first call of `send`
      cases haddr : committee.getNodeAddresses with
      | nil =>
        rw [haddr] at hs
        subst hs
        refine ⟨hhead.symm, h.handedOver, ?_, fun _ => hne, fun _ => rfl, h.closed, h.sends⟩
        simp [broadcast, htaken, hhead]
      | cons address addresses =>
        rw [haddr] at hs
        subst hs
        refine ⟨hhead.symm, h.handedOver, ?_, fun _ => hne, fun _ => rfl, h.closed, h.sends⟩
        simp [broadcast, Vertex.toJson, Json.getString, htaken, hhead]
  · obtain rfl := Option.some.inj hs
    have hfuture : s.futureValid = false := by simpa using hfuture
    exact ⟨h.promise, h.handedOver, h.taken, h.futureValid, fun _ => hfuture, h.closed, h.sends⟩

/-- **Every run of well-formed messages.** -/
lemma flow (hok : ∀ e ∈ es, WellFormed T e)
    (h : Run.exec (step T committee) init es = some t) :
    Flow committee (es.flatMap (arrivals T)) t := by
  refine Run.prefix_induction (J := fun es t => Flow committee (es.flatMap (arrivals T)) t)
    flow_init ?_ h
  intro p t e u hpre _ hflow hu
  rw [List.flatMap_append, List.flatMap_singleton]
  cases e with
  | message connection serialized =>
    obtain ⟨v, hv⟩ := hok (.message connection serialized) (hpre.subset (by simp))
    obtain rfl := Option.some.inj hu
    have harrive : arrivals T (.message connection serialized) = [v] := by
      simp only [arrivals, hv]
      rfl
    rw [harrive]
    exact hflow.message hv
  | turn =>
    rw [show arrivals T .turn = [] from rfl, List.append_nil]
    exact hflow.turn hu

/-- **When a pipeline forwards what arrives.** In every run of well-formed messages, on any
connections, that ends when the broadcaster waits or the program has ended, every vertex is
handed over, taken and broadcast exactly when nothing arrives, or one vertex and the committee
has no addresses to broadcast it to.

**Proof sketch.** Only the first vertex is handed over, and no call of `send` is ever spawned
(`flow`), so more than one vertex, or one vertex and an address, are too much. A broadcaster that
neither waits nor goes on has ended the program, and so has taken the vertex. -/
theorem forwards_iff (T : Json.Codec) (committee : Committee) {es : List Event}
    {t : VertexPipeline} (hok : ∀ e ∈ es, WellFormed T e)
    (h : Run.exec (step T committee) init es = some t) (hend : t.turn committee = none) :
    Forwards committee (es.flatMap (arrivals T)) t ↔
      es.flatMap (arrivals T) = [] ∨
        (es.flatMap (arrivals T)).length = 1 ∧ committee.getNodeAddresses = [] := by
  have hflow := flow hok h
  generalize es.flatMap (arrivals T) = vertices at hflow ⊢
  constructor
  · intro hforwards
    cases vertices with
    | nil => exact Or.inl rfl
    | cons v vertices =>
      have hhanded := hforwards.handedOver.symm.trans hflow.handedOver
      obtain rfl : vertices = [] := by simpa using hhanded
      refine Or.inr ⟨rfl, ?_⟩
      have hsends := hforwards.sends
      rw [hflow.sends] at hsends
      simpa using hsends
  · rintro (rfl | ⟨hone, haddr⟩)
    · refine ⟨hflow.handedOver, ?_, ?_, by simp [hflow.sends]⟩
      · by_contra hne
        exact absurd (hflow.closed hne) (by simp)
      · simpa using hflow.taken
    · obtain ⟨v, rfl⟩ := List.length_eq_one_iff.mp hone
      have hfuture : t.futureValid = false := by
        by_contra hvalid
        have hvalid : t.futureValid = true := by simpa using hvalid
        have hterm : t.terminated ≠ true := fun hterm =>
          absurd (hvalid.symm.trans (hflow.terminated hterm)) (by simp)
        simp [VertexPipeline.turn, hterm, hvalid, hflow.promise] at hend
      refine ⟨hflow.handedOver, ?_, ?_, by simp [hflow.sends, haddr]⟩
      · by_contra hne
        exact absurd (hflow.closed hne) (by simp)
      · rw [hflow.taken, if_neg (by simp [hfuture])]
        rfl

/-- The text of a vertex as `from_json` reads it, with strings for its keys. -/
def sampleText (round : ℕ) : Json :=
  let key := String.ofList (List.replicate 32 'k')
  .object [
    (ascii "block", .object [(ascii "hash", .ofBytes (List.replicate 32 0)),
      (ascii "transactions", .array [])]),
    (ascii "hash", .string (ascii key)), (ascii "owner", .string (ascii key)),
    (ascii "parents", .object [(ascii key, .unsigned 1)]), (ascii "round", .unsigned round)]

/-- A library that reads the texts of two vertices. -/
def sampleCodec : Json.Codec := Sample.codec [sampleText 2, sampleText 3]

/-- A committee without members. -/
def noCommittee : Committee := ⟨UnorderedMap.empty⟩

/-- One vertex, and nobody to broadcast it to. -/
theorem forwards_iff_sample :
    ∃ t : VertexPipeline, Run.exec (step sampleCodec noCommittee) init
        [.message 0 (Sample.print (sampleText 2)), .turn, .turn] = some t ∧
      Forwards noCommittee ([.message 0 (Sample.print (sampleText 2)), .turn, .turn].flatMap
        (arrivals sampleCodec)) t := by
  have hrun : (Run.exec (step sampleCodec noCommittee) init
      [.message 0 (Sample.print (sampleText 2)), .turn, .turn]).any
        (fun t => (t.turn noCommittee).isNone) = true := by
    decide +kernel
  obtain ⟨t, ht, hend⟩ := Run.exists_exec_of_any hrun
  exact ⟨t, ht, (forwards_iff sampleCodec noCommittee (by decide +kernel) ht
    (Option.isNone_iff_eq_none.mp hend)).mpr (Or.inr ⟨by decide +kernel, rfl⟩)⟩

/-- The hard-coded committee. -/
def hardCoded : Committee := Committee.new (Layout.front _) fun _ => 0

/-- Two vertices on two connections: the second connection is closed. -/
theorem not_forwards :
    ∃ (es : List Event) (t : VertexPipeline), (∀ e ∈ es, WellFormed sampleCodec e) ∧
      Run.exec (step sampleCodec hardCoded) init es = some t ∧ t.turn hardCoded = none ∧
      t.closed = [1] ∧ ¬ Forwards hardCoded (es.flatMap (arrivals sampleCodec)) t := by
  have hrun : (Run.exec (step sampleCodec hardCoded) init
      [.message 0 (Sample.print (sampleText 2)), .message 1 (Sample.print (sampleText 3)),
        .turn]).any (fun t => (t.turn hardCoded).isNone && t.closed = [1]) = true := by
    decide +kernel
  obtain ⟨t, ht, hend⟩ := Run.exists_exec_of_any hrun
  rw [Bool.and_eq_true, Option.isNone_iff_eq_none, decide_eq_true_iff] at hend
  refine ⟨_, t, ?_, ht, hend.1, hend.2, fun hforwards => ?_⟩
  · decide +kernel
  · exact absurd (hend.2.symm.trans hforwards.closed) (by simp)

end VertexPipeline

end DagRider
