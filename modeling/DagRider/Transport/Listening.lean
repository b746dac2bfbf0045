import DagRider.Model.Coordinator
import DagRider.Transport.Pipeline
import DagRider.Transport.Serving

set_option relaxedAutoImplicit false
set_option autoImplicit false

/-!
# A vertex coordinator listens first

`VertexCoordinator::spawn` starts its receiver with a call that blocks, so the broadcaster comes
after the last connection; and the promise that the two share takes one vertex, so every connection
soon ends with an exception.

## Main definitions

* `DagRider.VertexCoordinator.log` — the messages that were dispatched in a run.
* `DagRider.VertexCoordinator.Listening` — how the promise and the connections stand.

## Main results

* `DagRider.VertexCoordinator.listens_first` — what a coordinator dispatches, hands over and
  broadcasts.
-/

namespace DagRider

/-! ## Turns of the broadcaster -/

namespace VertexPipeline

variable {committee : Committee} {s s' : VertexPipeline}

/-- The loop over the addresses ends the program at the first of them: `to_json` gives an object,
not a string. -/
lemma broadcast_toJson (v : Vertex) (s : VertexPipeline) (addresses : List Endpoint) :
    broadcast v v.toJson s addresses = s ∨
      broadcast v v.toJson s addresses = { s with terminated := true } := by
  cases addresses with
  | nil => exact Or.inl rfl
  | cons endpoint addresses => exact Or.inr rfl

/-- **A turn** leaves the promise and what was handed over, and sends nothing. -/
lemma turn_frame (h : s.turn committee = some s') :
    s'.promise = s.promise ∧ s'.handedOver = s.handedOver ∧ s'.sends = s.sends := by
  unfold turn at h
  split_ifs at h with hterm hfuture
  · split at h
    · cases h
    · rename_i v hv
      obtain rfl := Option.some.inj h
      rcases broadcast_toJson v { s with futureValid := false, taken := s.taken ++ [v] }
        committee.getNodeAddresses with heq | heq <;> simp [heq]
  · obtain rfl := Option.some.inj h
    exact ⟨rfl, rfl, rfl⟩

end VertexPipeline

namespace VertexCoordinator

variable {T : Json.Codec} {committee : Committee} {s t : VertexCoordinator} {e : Event}
  {es : List Event}

/-! ## Runs -/

/-- What a step dispatches. -/
def dispatches (s : VertexCoordinator) : Event → List (ℕ × Bytes)
  | .network e => Handler.calls (s.receiver.shows e)
  | .startReturns | .turn => []

/-- The messages that were dispatched in a run, each with its connection. -/
def log (T : Json.Codec) (committee : Committee) (es : List Event) : List (ℕ × Bytes) :=
  Run.trace (step T committee) dispatches spawn es

/-- One more step. -/
lemma log_concat (h : Run.exec (step T committee) spawn es = some s) :
    log T committee (es ++ [e]) = log T committee es ++ s.dispatches e :=
  Run.trace_concat h

/-- The steps of the receiver. -/
def network (es : List Event) : List (Receiver.Event Empty) :=
  es.filterMap fun
    | .network e => some e
    | .startReturns | .turn => none

/-- The steps of the receiver in a run in two parts. -/
lemma network_append {fs : List Event} : network (es ++ fs) = network es ++ network fs :=
  List.filterMap_append

/-- The vertices among some messages. -/
def vertices (T : Json.Codec) (messages : List (ℕ × Bytes)) : List Vertex :=
  messages.filterMap fun p => (Vertex.decode T p.2).toOption

/-- One more message. -/
lemma vertices_concat (messages : List (ℕ × Bytes)) (p : ℕ × Bytes) :
    vertices T (messages ++ [p]) =
      vertices T messages ++ (Vertex.decode T p.2).toOption.toList := by
  unfold vertices
  rw [List.filterMap_append]
  cases hv : (Vertex.decode T p.2).toOption <;> simp [hv]

/-- How the promise and the connections stand after some messages. -/
structure Listening (T : Json.Codec) (messages : List (ℕ × Bytes)) (s : VertexCoordinator) :
    Prop where
  /-- Each message but one has ended its connection. -/
  counted : messages.length ≤
    s.receiver.connections.countP hasEnded + s.pipeline.handedOver.length
  promise : s.pipeline.promise = (vertices T messages).head?
  handedOver : s.pipeline.handedOver = (vertices T messages).head?.toList
  sends : s.pipeline.sends = []
  taken : s.spawned = false → s.pipeline.taken = []
  returns : s.spawned = true → s.returns = true

/-- Nothing was dispatched. -/
lemma listening_spawn : Listening T [] spawn where
  counted := by simp
  promise := rfl
  handedOver := rfl
  sends := rfl
  taken _ := rfl
  returns h := by simp [spawn] at h

/-- How many connections have ended after a change of one that has not. -/
lemma countP_set {c : Connection Empty} {i : ℕ} {cs : List (Connection Empty)}
    (hi : cs[i]? = some c) (hc : hasEnded c = false) (c' : Connection Empty) :
    (cs.set i c').countP hasEnded = cs.countP hasEnded + if hasEnded c' then 1 else 0 := by
  obtain ⟨hlen, rfl⟩ := List.getElem?_eq_some_iff.mp hi
  rw [List.countP_set hlen, hc]
  simp

/-- A connection that is read from has not ended. -/
lemma hasEnded_of_reading {c : Connection Empty} (h : c.place = .reading) :
    hasEnded c = false := by
  simp [hasEnded, h]

/-- **What a call of `dispatch` does**: it hands over the first vertex, and throws otherwise. -/
lemma dispatch_cases (T : Json.Codec) (p : VertexPipeline) (i : ℕ) (message : Bytes) :
    (∃ v, Vertex.decode T message = .ok v ∧ p.promise = none ∧
      (VertexReceiverHandler.handler T).dispatch p i message =
        ({ p with promise := some v, handedOver := p.handedOver ++ [v] }, .returned)) ∨
    (((Vertex.decode T message).toOption = none ∨ p.promise ≠ none) ∧
      (VertexReceiverHandler.handler T).dispatch p i message = (p, .threw)) := by
  simp only [VertexReceiverHandler.handler, VertexPipeline.dispatch]
  cases hv : Vertex.decode T message with
  | error x => exact Or.inr ⟨Or.inl rfl, rfl⟩
  | ok v =>
    cases hp : p.promise with
    | none => exact Or.inl ⟨v, rfl, rfl, by simp [VertexPipeline.setValue, hp, bind, Except.bind]⟩
    | some w =>
      exact Or.inr ⟨Or.inr (by simp), by simp [VertexPipeline.setValue, hp, bind, Except.bind]⟩

/-- A step of the receiver that does not call the handler. -/
lemma Listening.keep {messages : List (ℕ × Bytes)} (h : Listening T messages s)
    (hspawned : s.spawned = false) {receiver : Receiver VertexPipeline Empty}
    (hhandler : receiver.handler = s.receiver.handler)
    (hcount : s.receiver.connections.countP hasEnded ≤ receiver.connections.countP hasEnded) :
    Listening T messages { s with receiver := receiver } := by
  have hpipeline : ({ s with receiver := receiver } : VertexCoordinator).pipeline = s.pipeline :=
    hhandler
  refine ⟨?_, ?_, ?_, ?_, fun _ => ?_, fun hs => absurd (hspawned.symm.trans hs) (by simp)⟩
  · rw [hpipeline]
    exact h.counted.trans (Nat.add_le_add_right hcount _)
  · rw [hpipeline, h.promise]
  · rw [hpipeline, h.handedOver]
  · rw [hpipeline, h.sends]
  · rw [hpipeline, h.taken hspawned]

/-- **A call of `dispatch`** on a connection: it hands over the first vertex, or ends the
connection. -/
lemma Listening.turn {messages : List (ℕ × Bytes)} (h : Listening T messages s)
    (hspawned : s.spawned = false) {i : ℕ} {c : Connection Empty}
    (hi : s.receiver.connections[i]? = some c) (hc : c.Ready) :
    let call := (VertexReceiverHandler.handler T).dispatch s.pipeline i c.message
    Listening T (messages ++ [(i, c.message)])
      { s with receiver := s.receiver.update i call.1 ⟨c.rest, call.2.place⟩ } := by
  intro call
  have hcounted := h.counted
  have hcount := countP_set hi (hasEnded_of_reading hc.1)
  have hspawn : ∀ {P : Prop}, s.spawned = true → P := fun hs =>
    absurd (hspawned.symm.trans hs) (by simp)
  rcases dispatch_cases T s.pipeline i c.message with
    ⟨v, hv, hnone, hcall⟩ | ⟨hno, hcall⟩
  · -- the first vertex
    change call = _ at hcall
    have hempty : vertices T messages = [] := List.head?_eq_none_iff.mp (h.promise.symm.trans hnone)
    have hvertices : vertices T (messages ++ [(i, c.message)]) = [v] := by
      rw [vertices_concat, hempty, hv]
      rfl
    have hhanded : s.pipeline.handedOver = [] := by rw [h.handedOver, hempty]; rfl
    refine ⟨?_, ?_, ?_, ?_, fun _ => ?_, hspawn⟩
    · show (messages ++ [(i, c.message)]).length ≤
        (s.receiver.connections.set i _).countP hasEnded + call.1.handedOver.length
      rw [hcount, hcall, hhanded]
      rw [hhanded] at hcounted
      simp only [List.length_append, List.length_nil, List.length_singleton] at hcounted ⊢
      omega
    · rw [hvertices]
      show call.1.promise = _
      rw [hcall]
      rfl
    · rw [hvertices]
      show call.1.handedOver = _
      rw [hcall, hhanded]
      rfl
    · show call.1.sends = []
      rw [hcall]
      exact h.sends
    · show call.1.taken = []
      rw [hcall]
      exact h.taken hspawned
  · -- the connection ends
    change call = _ at hcall
    have hvertices : (vertices T (messages ++ [(i, c.message)])).head? =
        (vertices T messages).head? := by
      rw [vertices_concat]
      rcases hno with hno | hsome
      · rw [hno, Option.toList_none, List.append_nil]
      · refine List.head?_append_of_ne_nil _ fun hnil => hsome ?_
        rw [h.promise, hnil]
        rfl
    refine ⟨?_, ?_, ?_, ?_, fun _ => ?_, hspawn⟩
    · show (messages ++ [(i, c.message)]).length ≤
        (s.receiver.connections.set i _).countP hasEnded + call.1.handedOver.length
      rw [hcount, hcall, List.length_append]
      simp only [Dispatch.place, hasEnded, List.length_singleton, if_true]
      omega
    · rw [hvertices]
      show call.1.promise = _
      rw [hcall]
      exact h.promise
    · rw [hvertices]
      show call.1.handedOver = _
      rw [hcall]
      exact h.handedOver
    · show call.1.sends = []
      rw [hcall]
      exact h.sends
    · show call.1.taken = []
      rw [hcall]
      exact h.taken hspawned

/-- **A step of the receiver.** -/
lemma Listening.network {messages : List (ℕ × Bytes)} (h : Listening T messages s)
    (hspawned : s.spawned = false) {e : Receiver.Event Empty}
    {receiver : Receiver VertexPipeline Empty}
    (hstep : Receiver.Step (VertexReceiverHandler.handler T) s.receiver e receiver) :
    Listening T (messages ++ Handler.calls (s.receiver.shows e))
      { s with receiver := receiver } := by
  cases hstep with
  | accept =>
    rw [show Handler.calls (s.receiver.shows .accept) = [] from rfl, List.append_nil]
    exact h.keep hspawned rfl (by simp)
  | acceptFails =>
    rw [show Handler.calls (s.receiver.shows .acceptFails) = [] from rfl, List.append_nil]
    exact h.keep hspawned rfl le_rfl
  | @receive i chunk c hi hc =>
    rw [show Handler.calls (s.receiver.shows (.receive i chunk)) = [] from rfl, List.append_nil]
    refine h.keep hspawned rfl ?_
    rw [Receiver.update, countP_set hi (hasEnded_of_reading hc.1)]
    exact Nat.le_add_right _ _
  | @readFails i c hi hc =>
    rw [show Handler.calls (s.receiver.shows (.readFails i)) = [] from rfl, List.append_nil]
    refine h.keep hspawned rfl ?_
    rw [Receiver.update, countP_set hi (hasEnded_of_reading hc.1)]
    exact Nat.le_add_right _ _
  | @turn i c hi hc =>
    rw [show Handler.calls (s.receiver.shows (.turn i)) = [(i, c.message)] by
      simp [Receiver.shows, hi, Handler.calls]]
    exact h.turn hspawned hi hc
  | @resume i r c k p d hi hc hd => exact k.elim

/-- **One step** of the coordinator. -/
lemma Listening.step {messages : List (ℕ × Bytes)} (h : Listening T messages s)
    (hstep : s.step T committee e = some t) : Listening T (messages ++ s.dispatches e) t := by
  cases e with
  | network e =>
    simp only [VertexCoordinator.step] at hstep
    split_ifs at hstep with hspawned
    obtain ⟨receiver, hreceiver, rfl⟩ := Option.map_eq_some_iff.mp hstep
    exact h.network (by simpa using hspawned) (Receiver.Step.of_step hreceiver)
  | startReturns =>
    simp only [VertexCoordinator.step] at hstep
    split_ifs at hstep with hreturns
    obtain rfl := Option.some.inj hstep
    rw [Bool.and_eq_true] at hreturns
    rw [show s.dispatches .startReturns = [] from rfl, List.append_nil]
    exact ⟨h.counted, h.promise, h.handedOver, h.sends, fun hs => by simp at hs,
      fun _ => hreturns.2⟩
  | turn =>
    simp only [VertexCoordinator.step] at hstep
    split_ifs at hstep with hspawned
    obtain ⟨pipeline, hturn, rfl⟩ := Option.map_eq_some_iff.mp hstep
    obtain ⟨hpromise, hhanded, hsends⟩ := VertexPipeline.turn_frame hturn
    rw [show s.dispatches .turn = [] from rfl, List.append_nil]
    refine ⟨?_, hpromise.trans h.promise, hhanded.trans h.handedOver, hsends.trans h.sends,
      fun hs => absurd (hspawned.symm.trans hs) (by simp), fun _ => h.returns hspawned⟩
    show messages.length ≤ s.receiver.connections.countP hasEnded + pipeline.handedOver.length
    rw [hhanded]
    exact h.counted

/-- **Every run** of the coordinator. -/
lemma listening (h : Run.exec (step T committee) spawn es = some s) :
    Listening T (log T committee es) s := by
  refine Run.history_induction (J := fun es s => Listening T (log T committee es) s)
    listening_spawn (fun p t e u hp ht hu => ?_) h
  rw [log_concat hp]
  exact ht.step hu

/-! ## What a coordinator does -/

/-- What a connection has taken of its stream. -/
lemma taken (h : Run.exec (step T committee) spawn es = some s) (i : ℕ) :
    Framing.Taken Receiver.newline (Receiver.arrived i (network es))
      (Merge.part i (log T committee es)) (s.receiver.data i) := by
  refine Run.history_induction (J := fun es s => Framing.Taken Receiver.newline
    (Receiver.arrived i (network es)) (Merge.part i (log T committee es)) (s.receiver.data i))
    Framing.Taken.nil (fun p t e u hp ht hu => ?_) h
  rw [log_concat hp, Merge.part_append, network_append, Receiver.arrived_append]
  cases e with
  | network e =>
    simp only [step] at hu
    split_ifs at hu
    obtain ⟨receiver, hreceiver, rfl⟩ := Option.map_eq_some_iff.mp hu
    exact (Receiver.Step.of_step hreceiver).taken ht
  | startReturns =>
    simp only [step] at hu
    split_ifs at hu
    obtain rfl := Option.some.inj hu
    simpa [dispatches, network, Receiver.arrived] using ht
  | turn =>
    simp only [step] at hu
    split_ifs at hu
    obtain ⟨pipeline, -, rfl⟩ := Option.map_eq_some_iff.mp hu
    simpa [dispatches, network, Receiver.arrived, Receiver.data] using ht

/-- **A vertex coordinator listens first.** In every run, whatever its peers send on any number of
connections: on each connection it dispatches the first segments of the stream; in all it
dispatches at most one message for each connection, and one more; it hands over the first vertex
among these messages and no other. The broadcaster takes nothing before the receiver has stopped to
accept and every connection has ended; and nothing is ever sent.

**Proof sketch.** A message that does not bring the first vertex throws, and so ends its connection
(`dispatch_cases`); the ended connections and the vertex account for all messages (`listening`). -/
theorem listens_first (T : Json.Codec) (committee : Committee) {es : List Event}
    {s : VertexCoordinator} (h : Run.exec (step T committee) spawn es = some s) :
    (∀ i, Merge.part i (log T committee es) ++
        (Framing.split Receiver.newline (s.receiver.data i)).1 =
      (Framing.split Receiver.newline (Receiver.arrived i (network es))).1) ∧
      (log T committee es).length ≤ s.receiver.connections.length + 1 ∧
      s.pipeline.handedOver = (vertices T (log T committee es)).head?.toList ∧
      (s.pipeline.taken ≠ [] → s.receiver.accepting = false ∧
        ∀ c ∈ s.receiver.connections, c.place = .ended) ∧
      s.pipeline.sends = [] := by
  have hlistening := listening h
  refine ⟨fun i => ?_, ?_, hlistening.handedOver, fun htaken => ?_, hlistening.sends⟩
  · rw [(taken h i).split_eq]
  · have hone : s.pipeline.handedOver.length ≤ 1 := by
      rw [hlistening.handedOver]
      cases (vertices T (log T committee es)).head? <;> simp
    exact hlistening.counted.trans (Nat.add_le_add List.countP_le_length hone)
  · have hspawned : s.spawned = true := by
      by_contra hnot
      exact htaken (hlistening.taken (by simpa using hnot))
    have hreturns := hlistening.returns hspawned
    rw [returns, Bool.and_eq_true, List.all_eq_true] at hreturns
    refine ⟨by simpa using hreturns.1, fun c hc => ?_⟩
    have hended := hreturns.2 c hc
    unfold hasEnded at hended
    split at hended
    · assumption
    all_goals simp at hended

/-- A library that reads the texts of two vertices and the newline after them. -/
def lineCodec : Json.Codec :=
  ⟨Sample.print, fun text => [VertexPipeline.sampleText 2, VertexPipeline.sampleText 3].find?
    fun j => Sample.print j ++ [Receiver.newline] = text⟩

/-- Two peers that send vertices, the first one twice the same, and a third that says nothing; then
`async_accept` fails and the third connection breaks. -/
def sampleEvents : List Event :=
  let line (round : ℕ) := Sample.print (VertexPipeline.sampleText round) ++ [Receiver.newline]
  [.network .accept, .network .accept, .network .accept, .network (.receive 0 (line 2 ++ line 2)),
    .network (.turn 0), .network (.receive 1 (line 3)), .network (.turn 1), .network (.turn 0),
    .network .acceptFails, .network (.readFails 2), .startReturns, .turn]

/-- Three messages are dispatched on three connections, one vertex is handed over, and taken when
all is over. -/
theorem listens_first_sample :
    ∃ s, Run.exec (step lineCodec VertexPipeline.hardCoded) spawn sampleEvents = some s ∧
      (log lineCodec VertexPipeline.hardCoded sampleEvents).length = 3 ∧
      s.pipeline.handedOver.length = 1 ∧ s.pipeline.taken.length = 1 ∧
      s.receiver.accepting = false ∧ s.pipeline.sends = [] := by
  have hrun : (Run.exec (step lineCodec VertexPipeline.hardCoded) spawn sampleEvents).any
      (fun s => decide (s.pipeline.taken.length = 1)) = true := by
    decide +kernel
  have hlog : (log lineCodec VertexPipeline.hardCoded sampleEvents).length = 3 ∧
      (vertices lineCodec (log lineCodec VertexPipeline.hardCoded sampleEvents)).length = 3 := by
    decide +kernel
  obtain ⟨s, hs, htaken⟩ := Run.exists_exec_of_any hrun
  have htaken : s.pipeline.taken.length = 1 := of_decide_eq_true htaken
  obtain ⟨-, -, hhanded, hover, hsends⟩ :=
    listens_first lineCodec VertexPipeline.hardCoded hs
  have hne : s.pipeline.taken ≠ [] := List.ne_nil_of_length_eq_add_one htaken
  refine ⟨s, hs, hlog.1, ?_, htaken, (hover hne).1, hsends⟩
  rw [hhanded]
  obtain ⟨u, v, w, hvertices⟩ := List.length_eq_three.mp hlog.2
  rw [hvertices]
  rfl

end VertexCoordinator

end DagRider
