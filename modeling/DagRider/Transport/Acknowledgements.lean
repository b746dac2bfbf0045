import DagRider.Transport.Serving

set_option relaxedAutoImplicit false
set_option autoImplicit false

/-!
# Acknowledgements

What a receiver with the plain `MessageHandler` writes back on each of its connections, however
the connections and the partial writes interleave. A response repeats the message, with its
newline, and adds a newline of its own, so the peer sees two lines for each message.

## Main definitions

* `DagRider.MessageHandler.Answered` — how the responses to a connection stand.

## Main results

* `DagRider.MessageHandler.split_responses` — responses are two lines each.
* `DagRider.MessageHandler.acknowledged_lines` — what the peer of each connection reads.
-/

namespace DagRider

namespace MessageHandler

/-! ## Lines -/

/-- **Responses are two lines each**: the message after what acknowledges it, and an empty
line. -/
lemma split_responses {messages : List Bytes}
    (h : ∀ m ∈ messages, ∃ s, Receiver.newline ∉ s ∧ m = s ++ [Receiver.newline]) :
    Framing.split Receiver.newline (messages.flatMap response) =
      (messages.flatMap fun m => [acknowledged ++ m, [Receiver.newline]], []) := by
  refine Framing.isSplit_iff.mp ⟨?_, fun m hm => ?_, List.not_mem_nil⟩
  · rw [List.append_nil, List.flatten_eq_flatMap, List.flatMap_assoc]
    refine List.flatMap_congr fun m hm => ?_
    simp [response]
  · obtain ⟨m', hm', hm⟩ := List.mem_flatMap.mp hm
    obtain ⟨s, hs, rfl⟩ := h m' hm'
    rcases List.mem_cons.mp hm with rfl | hm
    · refine ⟨acknowledged ++ s, ?_, by simp⟩
      have hfree : Receiver.newline ∉ acknowledged := by decide
      simp [hfree, hs]
    · exact ⟨[], List.not_mem_nil, by simpa using hm⟩

/-! ## Responses -/

variable {s t : Receiver (ℕ → Bytes) Writing} {e : Receiver.Event WriteResult}
  {es : List (Receiver.Event WriteResult)}

/-- How the responses to the messages of a connection stand: all were written, or all but the rest
of the last one, or some when a write has failed. -/
def Answered (s : Receiver (ℕ → Bytes) Writing) (messages : List Bytes) (i : ℕ) : Prop :=
  match s.connections[i]?.map Connection.place with
  | none => s.handler i = [] ∧ messages = []
  | some .reading => s.handler i = messages.flatMap response
  | some (.dispatching w) => w.writer = i ∧ s.handler i ++ w.rest = messages.flatMap response
  | some .ended => s.handler i <+: messages.flatMap response

/-- What was written is the beginning of the responses. -/
lemma Answered.isPrefix {messages : List Bytes} {i : ℕ} (h : Answered s messages i) :
    s.handler i <+: messages.flatMap response := by
  unfold Answered at h
  split at h
  · rw [h.1]
    exact List.nil_prefix
  · rw [h]
  · rw [← h.2]
    exact List.prefix_append _ _
  · exact h

/-- A connection whose handler and place are as they were. -/
lemma Answered.of_eq {messages : List Bytes} {i : ℕ} (h : Answered s messages i)
    (hhandler : t.handler i = s.handler i)
    (hplace : t.connections[i]?.map Connection.place = s.connections[i]?.map Connection.place) :
    Answered t messages i := by
  unfold Answered
  rw [hplace, hhandler]
  exact h

/-- A connection that others take a step beside. -/
lemma Answered.update_of_ne {messages : List Bytes} {i j : ℕ} {c : Connection Writing}
    {written : ℕ → Bytes} (h : Answered s messages i) (hj : j ≠ i)
    (hwritten : written i = s.handler i) : Answered (s.update j written c) messages i :=
  h.of_eq hwritten (by rw [Receiver.update_of_ne hj])

/-- **One step** of the responses to every connection.

**Proof sketch.** Only the connection that takes the step has its responses changed: a call of
`dispatch` owes a whole response, a write pays some of the rest of the last one, and leaves the
other sockets alone. -/
lemma answered_step (h : Receiver.Step handler s e t) {messages : ℕ → List Bytes}
    (hs : ∀ i, Answered s (messages i) i) (i : ℕ) :
    Answered t (messages i ++ Merge.part i (Handler.calls (s.shows e))) i := by
  have hi := hs i
  cases h with
  | accept =>
    simp only [Receiver.shows, Handler.calls, List.flatMap_nil, Merge.part_nil, List.append_nil]
    by_cases hlt : i < s.connections.length
    · exact hi.of_eq rfl (by rw [List.getElem?_append_left hlt])
    · unfold Answered at hi ⊢
      rw [List.getElem?_eq_none (not_lt.mp hlt)] at hi
      obtain ⟨hempty, hnone⟩ : s.handler i = [] ∧ messages i = [] := hi
      rw [List.getElem?_append_right (not_lt.mp hlt)]
      cases i - s.connections.length <;> simp [hempty, hnone]
  | acceptFails =>
    simp only [Receiver.shows, Handler.calls, List.flatMap_nil, Merge.part_nil, List.append_nil]
    exact hi.of_eq rfl rfl
  | @receive j chunk c hj hc =>
    simp only [Receiver.shows, Handler.calls, List.flatMap_nil, Merge.part_nil, List.append_nil]
    by_cases hji : j = i
    · subst hji
      exact hi.of_eq rfl (by rw [Receiver.update_self hj, hj]; rfl)
    · exact hi.update_of_ne hji rfl
  | @readFails j c hj hc =>
    simp only [Receiver.shows, Handler.calls, List.flatMap_nil, Merge.part_nil, List.append_nil]
    by_cases hji : j = i
    · subst hji
      unfold Answered
      rw [Receiver.update_self hj]
      exact hi.isPrefix
    · exact hi.update_of_ne hji rfl
  | @turn j c hj hc =>
    by_cases hji : j = i
    · subst hji
      unfold Answered at hi ⊢
      rw [hj, Option.map_some, hc.1] at hi
      rw [Receiver.update_self hj]
      have hi : s.handler j = (messages j).flatMap response := hi
      simp [Receiver.shows, hj, Handler.calls, handler, Dispatch.place, hi]
    · have hnone : Merge.part i (Handler.calls (ρ := WriteResult) (s.shows (.turn j))) = [] := by
        simp [Receiver.shows, hj, Handler.calls, hji]
      rw [hnone, List.append_nil]
      exact hi.update_of_ne hji rfl
  | @resume j r c w written d hj hc hd =>
    have hnone : Merge.part i (Handler.calls (s.shows (.resume j r))) = [] := by
      simp [Receiver.shows, hj, hc, Handler.calls]
    rw [hnone, List.append_nil]
    -- the connection that has written
    have hown := hs j
    unfold Answered at hown
    rw [hj, Option.map_some, hc] at hown
    obtain ⟨rfl, hrest⟩ : w.writer = j ∧ s.handler j ++ w.rest = (messages j).flatMap response :=
      hown
    cases r with
    | failed =>
      obtain ⟨rfl, rfl⟩ := Prod.mk.inj (Option.some.inj hd)
      by_cases hji : w.writer = i
      · subst hji
        unfold Answered
        rw [Receiver.update_self hj]
        exact ⟨w.rest, hrest⟩
      · exact hi.update_of_ne hji rfl
    | wrote n =>
      simp only [handler, Option.ite_none_right_eq_some, Option.some.injEq, Prod.mk.injEq] at hd
      obtain ⟨hn, rfl, rfl⟩ := hd
      by_cases hji : w.writer = i
      · subst hji
        unfold Answered
        rw [Receiver.update_self hj]
        split_ifs with hall
        · simp [Dispatch.place, ← hrest, hall]
        · simp [Dispatch.place, ← hrest]
      · exact hi.update_of_ne hji (Function.update_of_ne (Ne.symm hji) _ _)

/-- **The responses of a run.** -/
lemma answered (h : Run.exec (Receiver.step handler) (Receiver.start fun _ => []) es = some s)
    (i : ℕ) : Answered s (Merge.part i (Receiver.log handler (fun _ => []) es)) i := by
  revert i
  refine Run.history_induction (J := fun es s => ∀ i,
    Answered s (Merge.part i (Receiver.log handler (fun _ => []) es)) i)
    (fun i => ?_) (fun p t e u hp ht hu i => ?_) h
  · exact show _ ∧ _ from ⟨rfl, rfl⟩
  · rw [Receiver.log, Run.trace_concat hp, Handler.calls_append, Merge.part_append]
    exact answered_step (Receiver.Step.of_step hu) ht i

/-- **What the peers read.** In every run of a receiver with the plain handler, with any number of
connections and however their writes interleave, the peer of a connection is written a beginning
of the responses to the segments of its own stream, in order. When the connection waits for its
stream, all of these were written, and they are two lines for each segment.

**Proof sketch.** What was dispatched are the first segments of the stream (`Receiver.taken`), and
the responses to them are written one after the other (`answered`); each is two lines
(`split_responses`). -/
theorem acknowledged_lines
    (h : Run.exec (Receiver.step handler) (Receiver.start fun _ => []) es = some s) (i : ℕ) :
    s.handler i <+:
        (Framing.split Receiver.newline (Receiver.arrived i es)).1.flatMap response ∧
      ∀ c, s.connections[i]? = some c → c.Waits →
        Framing.split Receiver.newline (s.handler i) =
          ((Framing.split Receiver.newline (Receiver.arrived i es)).1.flatMap fun m =>
            [acknowledged ++ m, [Receiver.newline]], []) := by
  have hanswered := answered h i
  have hpart := Receiver.part_append h i
  refine ⟨?_, fun c hi hc => ?_⟩
  · rw [← hpart, List.flatMap_append]
    exact hanswered.isPrefix.trans (List.prefix_append _ _)
  · have hdata : Receiver.newline ∉ s.data i := by
      rw [Receiver.data_of_getElem? hi]
      exact hc.2
    rw [Framing.split_of_notMem hdata, List.append_nil] at hpart
    unfold Answered at hanswered
    rw [hi, Option.map_some, hc.1] at hanswered
    have hwritten : s.handler i =
        (Merge.part i (Receiver.log handler (fun _ => []) es)).flatMap response := hanswered
    rw [hwritten, split_responses (Receiver.taken h i).segment, hpart]

/-- Two peers, and a response that is written in two pieces. -/
def peerEvents : List (Receiver.Event WriteResult) :=
  [.accept, .accept, .receive 1 (ascii "b\n"), .receive 0 (ascii "a\nc"), .turn 0, .turn 1,
    .resume 0 (.wrote 3), .resume 1 (.wrote 17), .resume 0 (.wrote 14)]

/-- The peers read two lines each. -/
theorem acknowledged_lines_peers :
    ∃ s, Run.exec (Receiver.step handler) (Receiver.start fun _ => []) peerEvents = some s ∧
      Framing.split Receiver.newline (s.handler 0) =
        ([ascii "Acknowledged: a\n", ascii "\n"], []) := by
  have hrun : (Run.exec (Receiver.step handler) (Receiver.start fun _ => []) peerEvents).any
      (fun s => (s.connections[0]?).any fun c => decide c.Waits) = true := by
    decide +kernel
  obtain ⟨s, hs, hend⟩ := Run.exists_exec_of_any hrun
  obtain ⟨c, hi, hc⟩ := (Option.any_eq_true _ _).mp hend
  have hlines := (acknowledged_lines hs 0).2 c hi (of_decide_eq_true hc)
  refine ⟨s, hs, hlines.trans ?_⟩
  decide

end MessageHandler

end DagRider
