import DagRider.Lib.Merge
import DagRider.Lib.Simulation
import DagRider.Model.Receiver

set_option relaxedAutoImplicit false
set_option autoImplicit false

/-!
# Many connections, one handler

What a handler is given when any number of connections share it, for every handler and every
interleaving of the connections. The handler goes through a run of its own, in which each
connection calls it with the segments of its stream, in order.

## Main definitions

* `DagRider.Receiver.shows` — what a step shows of the handler.
* `DagRider.Receiver.arrived` — the stream of a connection.
* `DagRider.Handler.calls` — the messages of the calls that one connection has made.

## Main results

* `DagRider.Receiver.handler_run` — the handler goes through the run that the steps show.
* `DagRider.Receiver.taken` — a connection has taken segments of its stream and nothing else.
* `DagRider.Receiver.part_append` — the segments that it has not taken are in its buffer.
* `DagRider.Receiver.part_eq_of_quiet` — and there are none left when the receiver is quiet.
* `DagRider.Receiver.handler_eq_handleConnection` — with one connection, and calls that never wait,
  the receiver refines the plain loop.
-/

namespace DagRider

variable {σ κ ρ : Type} {H : Handler σ κ ρ}

/-- The calls in a run of a handler: who has made them, and with which messages. -/
def Handler.calls (es : List (Handler.Event κ ρ)) : List (ℕ × Bytes) :=
  es.flatMap fun
    | .call i message => [(i, message)]
    | .resumed _ _ => []

/-- Calls come one after the other. -/
@[simp] lemma Handler.calls_append {es fs : List (Handler.Event κ ρ)} :
    Handler.calls (es ++ fs) = Handler.calls es ++ Handler.calls fs :=
  List.flatMap_append

/-- No exception leaves the handler. -/
structure Handler.Catches (H : Handler σ κ ρ) : Prop where
  dispatch : ∀ s i message, (H.dispatch s i message).2.place ≠ .ended
  resume : ∀ {s k r h d}, H.resume s k r = some (h, d) → d.place ≠ .ended

/-- A connection with a message takes the first segment of its data. -/
lemma Connection.Ready.take_drop {c : Connection κ} (h : c.Ready) :
    c.message = c.data.take (c.data.idxOf Receiver.newline + 1) ∧
      c.rest = c.data.drop (c.data.idxOf Receiver.newline + 1) := by
  have hne : c.data ≠ [] := List.ne_nil_of_mem h.2
  simp [Connection.message, Connection.rest, Connection.bytesTransferred, hne]

/-- One delimiter less is left. -/
lemma Connection.Ready.count_rest {c : Connection κ} (h : c.Ready) :
    c.rest.count Receiver.newline = c.data.count Receiver.newline - 1 := by
  obtain ⟨s, rest, hs, hdata, hn⟩ := Framing.exists_split_of_mem h.2
  rw [h.take_drop.2, hn, hdata, List.drop_length_add_append, List.count_append,
    List.count_eq_zero.mpr hs]
  simp

namespace Receiver

variable {s t : Receiver σ κ} {e : Event ρ} {es : List (Event ρ)} {handler : σ}

/-! ## One step -/

/-- What a step shows of the handler. -/
def shows (s : Receiver σ κ) : Event ρ → List (Handler.Event κ ρ)
  | .turn i => (s.connections[i]?.map fun c => Handler.Event.call i c.message).toList
  | .resume i r => s.connections[i]?.toList.flatMap fun c =>
    match c.place with
    | .dispatching k => [.resumed k r]
    | .reading | .ended => []
  | .accept | .acceptFails | .receive _ _ | .readFails _ => []

/-- The steps of a receiver, one line for each kind. -/
inductive Step (H : Handler σ κ ρ) (s : Receiver σ κ) : Event ρ → Receiver σ κ → Prop
  | accept : Step H s .accept { s with connections := s.connections ++ [⟨[], .reading⟩] }
  | acceptFails : Step H s .acceptFails { s with accepting := false }
  | receive {i : ℕ} {chunk : Bytes} {c : Connection κ} (hi : s.connections[i]? = some c)
      (hc : c.Waits) :
      Step H s (.receive i chunk) (s.update i s.handler { c with data := c.data ++ chunk })
  | readFails {i : ℕ} {c : Connection κ} (hi : s.connections[i]? = some c) (hc : c.Waits) :
      Step H s (.readFails i) (s.update i s.handler { c with place := .ended })
  | turn {i : ℕ} {c : Connection κ} (hi : s.connections[i]? = some c) (hc : c.Ready) :
      Step H s (.turn i) (s.update i (H.dispatch s.handler i c.message).1
        ⟨c.rest, (H.dispatch s.handler i c.message).2.place⟩)
  | resume {i : ℕ} {r : ρ} {c : Connection κ} {k : κ} {h : σ} {d : Dispatch κ}
      (hi : s.connections[i]? = some c) (hc : c.place = .dispatching k)
      (hd : H.resume s.handler k r = some (h, d)) :
      Step H s (.resume i r) (s.update i h { c with place := d.place })

/-- Every step is in the table. -/
theorem Step.of_step (h : s.step H e = some t) : Step H s e t := by
  cases e with
  | accept =>
    simp only [step, Option.ite_none_right_eq_some, Option.some.injEq] at h
    obtain ⟨-, rfl⟩ := h
    exact .accept
  | acceptFails =>
    simp only [step, Option.ite_none_right_eq_some, Option.some.injEq] at h
    obtain ⟨-, rfl⟩ := h
    exact .acceptFails
  | receive i chunk =>
    simp only [step, Option.bind_eq_bind, Option.bind_eq_some_iff, Option.ite_none_right_eq_some,
      Option.some.injEq] at h
    obtain ⟨c, hi, hc, rfl⟩ := h
    exact .receive hi hc
  | readFails i =>
    simp only [step, Option.bind_eq_bind, Option.bind_eq_some_iff, Option.ite_none_right_eq_some,
      Option.some.injEq] at h
    obtain ⟨c, hi, hc, rfl⟩ := h
    exact .readFails hi hc
  | turn i =>
    simp only [step, Option.bind_eq_bind, Option.bind_eq_some_iff, Option.ite_none_right_eq_some,
      Option.some.injEq] at h
    obtain ⟨c, hi, hc, rfl⟩ := h
    exact .turn hi hc
  | resume i r =>
    simp only [step, Option.bind_eq_bind, Option.bind_eq_some_iff] at h
    obtain ⟨c, hi, h⟩ := h
    split at h
    · rename_i k hc
      simp only [Option.bind_eq_some_iff, Option.some.injEq] at h
      obtain ⟨⟨handler, d⟩, hd, rfl⟩ := h
      exact .resume hi hc hd
    all_goals cases h

/-- The handler after a change of a connection. -/
@[simp] lemma update_handler {i : ℕ} {c : Connection κ} :
    (s.update i handler c).handler = handler := rfl

/-- No connection is added by a change. -/
@[simp] lemma length_update {i : ℕ} {c : Connection κ} :
    (s.update i handler c).connections.length = s.connections.length :=
  List.length_set

/-- A changed connection is the new one. -/
lemma update_self {i : ℕ} {c c' : Connection κ} (hi : s.connections[i]? = some c) :
    (s.update i handler c').connections[i]? = some c' :=
  List.getElem?_set_self (List.getElem?_eq_some_iff.mp hi).1

/-- The other connections are as they were. -/
lemma update_of_ne {i j : ℕ} {c : Connection κ} (h : i ≠ j) :
    (s.update i handler c).connections[j]? = s.connections[j]? :=
  List.getElem?_set_ne h

/-- **The handler takes the steps that are shown.** -/
theorem simulates : Run.Simulates (step H) H.step (fun _ => True) Receiver.handler shows where
  keeps _ _ := trivial
  follows := by
    rintro s e t - hstep
    cases Step.of_step hstep with
    | accept => rfl
    | acceptFails => rfl
    | receive hi hc => rfl
    | readFails hi hc => rfl
    | turn hi hc => simp [shows, hi, Run.exec, Handler.step]
    | resume hi hc hd => simp [shows, hi, hc, Run.exec, Handler.step, hd]

/-! ## Runs -/

/-- **The handler goes through the run that the steps show.** -/
theorem handler_run (h : Run.exec (step H) (start handler) es = some s) :
    Run.exec H.step handler (Run.trace (step H) shows (start handler) es) = some s.handler :=
  simulates.exec (s := start handler) trivial h

/-- The bytes that have arrived on a connection. -/
def arrived (i : ℕ) (es : List (Event ρ)) : Bytes :=
  es.flatMap fun
    | .receive j chunk => if j = i then chunk else []
    | .accept | .acceptFails | .readFails _ | .turn _ | .resume _ _ => []

/-- Bytes arrive one after the other. -/
lemma arrived_append {i : ℕ} {es fs : List (Event ρ)} :
    arrived i (es ++ fs) = arrived i es ++ arrived i fs :=
  List.flatMap_append

/-- What a connection has read and not taken; nothing, before it was accepted. -/
def data (s : Receiver σ κ) (i : ℕ) : Bytes := (s.connections[i]?.map Connection.data).getD []

/-- The messages that were dispatched in a run, each with its connection. -/
def log (H : Handler σ κ ρ) (handler : σ) (es : List (Event ρ)) : List (ℕ × Bytes) :=
  Handler.calls (Run.trace (step H) shows (start handler) es)

/-- The data of a connection. -/
lemma data_of_getElem? {i : ℕ} {c : Connection κ} (hi : s.connections[i]? = some c) :
    s.data i = c.data := by
  simp [data, hi]

/-- The data of a changed connection. -/
lemma data_update_self {i : ℕ} {c c' : Connection κ} (hi : s.connections[i]? = some c) :
    (s.update i handler c').data i = c'.data :=
  data_of_getElem? (update_self hi)

/-- The data of the other connections. -/
lemma data_update_of_ne {i j : ℕ} {c : Connection κ} (h : i ≠ j) :
    (s.update i handler c).data j = s.data j := by
  simp only [data, update_of_ne h]

/-- **One step** of the stream of a connection. -/
lemma Step.taken (h : Step H s e t) {i : ℕ} {stream : Bytes} {segments : List Bytes}
    (hs : Framing.Taken newline stream segments (s.data i)) :
    Framing.Taken newline (stream ++ arrived i [e])
      (segments ++ Merge.part i (Handler.calls (shows s e))) (t.data i) := by
  cases h with
  | accept =>
    have hdata : ({ s with connections := s.connections ++ [⟨[], .reading⟩] } :
        Receiver σ κ).data i = s.data i := by
      simp only [data, List.getElem?_append]
      split_ifs with hlt
      · rfl
      · rw [List.getElem?_eq_none (not_lt.mp hlt)]
        cases i - s.connections.length <;> simp
    simpa [arrived, shows, Handler.calls, hdata] using hs
  | acceptFails => simpa [arrived, shows, Handler.calls, data] using hs
  | @receive j chunk c hi hc =>
    by_cases hj : j = i
    · subst hj
      rw [data_of_getElem? hi] at hs
      rw [data_update_self hi]
      simpa [arrived, shows, Handler.calls] using hs.read chunk
    · rw [data_update_of_ne hj]
      simpa [arrived, shows, Handler.calls, hj] using hs
  | @readFails j c hi hc =>
    by_cases hj : j = i
    · subst hj
      rw [data_of_getElem? hi] at hs
      rw [data_update_self hi]
      simpa [arrived, shows, Handler.calls] using hs
    · rw [data_update_of_ne hj]
      simpa [arrived, shows, Handler.calls] using hs
  | @turn j c hi hc =>
    by_cases hj : j = i
    · subst hj
      rw [data_of_getElem? hi] at hs
      obtain ⟨hmessage, hrest⟩ := hc.take_drop
      rw [data_update_self hi, hrest]
      simpa [arrived, shows, Handler.calls, hi, hmessage] using hs.take hc.2
    · rw [data_update_of_ne hj]
      simpa [arrived, shows, Handler.calls, hi, hj] using hs
  | @resume j r c k h d hi hc hd =>
    by_cases hj : j = i
    · subst hj
      rw [data_of_getElem? hi] at hs
      rw [data_update_self hi]
      simpa [arrived, shows, Handler.calls, hi, hc] using hs
    · rw [data_update_of_ne hj]
      simpa [arrived, shows, Handler.calls, hi, hc] using hs

/-- **What a connection has taken.** The messages it has dispatched are segments of its stream,
and what is left of the stream is in its buffer. -/
theorem taken (h : Run.exec (step H) (start handler) es = some s) (i : ℕ) :
    Framing.Taken newline (arrived i es) (Merge.part i (log H handler es)) (s.data i) := by
  refine Run.history_induction (J := fun es s => Framing.Taken newline (arrived i es)
    (Merge.part i (log H handler es)) (s.data i)) Framing.Taken.nil (fun p t e u hp ht hu => ?_) h
  have hstep := (Step.of_step hu).taken ht
  rw [log, Run.trace_concat hp, Handler.calls_append, Merge.part_append, arrived_append]
  exact hstep

/-- **What a connection has not taken** of the segments of its stream are those in its buffer. -/
theorem part_append (h : Run.exec (step H) (start handler) es = some s) (i : ℕ) :
    Merge.part i (log H handler es) ++ (Framing.split newline (s.data i)).1 =
      (Framing.split newline (arrived i es)).1 := by
  rw [(taken h i).split_eq]

/-- Only connections that were accepted call the handler. -/
lemma lt_of_mem_log (h : Run.exec (step H) (start handler) es = some s) {p : ℕ × Bytes}
    (hp : p ∈ log H handler es) : p.1 < s.connections.length := by
  revert p
  refine Run.history_induction (J := fun es s => ∀ {p : ℕ × Bytes}, p ∈ log H handler es →
    p.1 < s.connections.length) (fun hp => absurd hp List.not_mem_nil) ?_ h
  intro es t e u hrun ih hu p hp
  rw [log, Run.trace_concat hrun, Handler.calls_append, List.mem_append] at hp
  have hlen : t.connections.length ≤ u.connections.length := by
    cases Step.of_step hu <;> simp [update]
  rcases hp with hp | hp
  · exact (ih hp).trans_le hlen
  · refine lt_of_lt_of_le ?_ hlen
    cases Step.of_step hu with
    | accept | acceptFails | receive hi hc | readFails hi hc =>
      exact absurd hp List.not_mem_nil
    | turn hi hc =>
      simp only [Handler.calls, shows, hi, Option.map_some, Option.toList_some,
        List.flatMap_singleton, List.mem_singleton] at hp
      rw [hp]
      exact (List.getElem?_eq_some_iff.mp hi).1
    | resume hi hc hd =>
      simp [Handler.calls, shows, hi, hc] at hp

/-! ## Quiet receivers -/

/-- Nothing is left to do before more arrives: each loop waits for its stream, or was left. -/
def Quiet (s : Receiver σ κ) : Prop := ∀ c ∈ s.connections, c.Waits ∨ c.place = .ended

/-- A loop is left only when it has nothing to dispatch, if the handler catches everything. -/
lemma notMem_of_ended (hH : H.Catches) (h : Run.exec (step H) (start handler) es = some s)
    {c : Connection κ} (hc : c ∈ s.connections) (hended : c.place = .ended) :
    newline ∉ c.data := by
  revert c
  refine Run.invariant (I := fun s : Receiver σ κ => ∀ {c : Connection κ}, c ∈ s.connections →
    c.place = .ended → newline ∉ c.data) ?_ (fun hc => absurd hc List.not_mem_nil) h
  intro t e u ih hu c hc hended
  cases Step.of_step hu with
  | accept =>
    rcases List.mem_append.mp hc with hc | hc
    · exact ih hc hended
    · rw [List.mem_singleton.mp hc] at hended
      cases hended
  | acceptFails => exact ih hc hended
  | receive hi hwait =>
    rcases List.mem_or_eq_of_mem_set hc with hc | rfl
    · exact ih hc hended
    · exact absurd (hwait.1.symm.trans hended) (by simp)
  | readFails hi hwait =>
    rcases List.mem_or_eq_of_mem_set hc with hc | rfl
    · exact ih hc hended
    · exact hwait.2
  | turn hi hready =>
    rcases List.mem_or_eq_of_mem_set hc with hc | rfl
    · exact ih hc hended
    · exact absurd hended (hH.dispatch _ _ _)
  | resume hi hplace hd =>
    rcases List.mem_or_eq_of_mem_set hc with hc | rfl
    · exact ih hc hended
    · exact absurd hended (hH.resume hd)

/-- **A quiet receiver has dispatched everything**, if its handler catches everything: on each
connection all segments of the stream, also on those that were left. -/
theorem part_eq_of_quiet (hH : H.Catches) (h : Run.exec (step H) (start handler) es = some s)
    (hquiet : s.Quiet) (i : ℕ) :
    Merge.part i (log H handler es) = (Framing.split newline (arrived i es)).1 := by
  have hnone : newline ∉ s.data i := by
    unfold data
    cases hi : s.connections[i]? with
    | none => simp
    | some c =>
      have hc := List.mem_of_getElem? hi
      rcases hquiet c hc with hwait | hended
      · exact hwait.2
      · exact notMem_of_ended hH h hc hended
  rw [← part_append h i, Framing.split_of_notMem hnone, List.append_nil]

end Receiver

/-! ## One connection whose calls never wait -/

/-- A handler whose calls never wait, given as the plain loop of `handle_connection` takes it:
`none` is an exception. -/
def Handler.atOnce (dispatch : σ → Bytes → Option σ) : Handler σ Empty Empty where
  dispatch s _ message :=
    match dispatch s message with
    | some s' => (s', .returned)
    | none => (s, .threw)
  resume _ k _ := k.elim

namespace Receiver

variable {dispatch : σ → Bytes → Option σ} {s t : Receiver σ Empty} {e : Event Empty}
  {es : List (Event Empty)} {handler : σ} {segments : List Bytes}

/-- What the first connection hands over in a step. -/
abbrev handed (s : Receiver σ Empty) (e : Event Empty) : List Bytes :=
  Merge.part 0 (Handler.calls (shows s e))

/-- The plain loop has dispatched the segments and goes on from the state of the handler. -/
def GoesOn (dispatch : σ → Bytes → Option σ) (handler : σ) (segments : List Bytes)
    (s : Receiver σ Empty) : Prop :=
  (∀ more, Framing.dispatchAll dispatch handler (segments ++ more) =
    Framing.dispatchAll dispatch s.handler more) ∧
  ∀ c ∈ s.connections, c.place = .ended → newline ∉ c.data

/-- An exception has ended the plain loop at the last of the segments. -/
def Broken (dispatch : σ → Bytes → Option σ) (handler : σ) (segments : List Bytes)
    (s : Receiver σ Empty) : Prop :=
  (∀ more, Framing.dispatchAll dispatch handler (segments ++ more) = s.handler) ∧
  ∃ c, s.connections = [c] ∧ c.place = .ended

/-- Handing over one more message. -/
lemma dispatchAll_concat {message : Bytes} {s' : σ} {more : List Bytes}
    (h : ∀ more, Framing.dispatchAll dispatch handler (segments ++ more) =
      Framing.dispatchAll dispatch s' more) :
    Framing.dispatchAll dispatch handler (segments ++ [message] ++ more) =
      match dispatch s' message with
      | none => s'
      | some s'' => Framing.dispatchAll dispatch s'' more := by
  rw [List.append_assoc, h]
  rfl

/-- **One step** of the one connection there is: the plain loop follows. -/
lemma GoesOn.step (h : GoesOn dispatch handler segments s)
    (hstep : Step (Handler.atOnce dispatch) s e t) (hone : t.connections.length ≤ 1) :
    GoesOn dispatch handler (segments ++ handed s e) t ∨
      Broken dispatch handler (segments ++ handed s e) t := by
  obtain ⟨hgo, hended⟩ := h
  have hfirst : ∀ {i : ℕ} {c c' : Connection Empty} {h : σ}, s.connections[i]? = some c →
      (s.update i h c').connections.length ≤ 1 → i = 0 ∧ s.connections = [c] := by
    intro i c c' h hi hlen
    rw [length_update] at hlen
    have hlt : i < s.connections.length := (List.getElem?_eq_some_iff.mp hi).1
    obtain rfl : i = 0 := by omega
    obtain ⟨d, hd⟩ := List.length_eq_one_iff.mp (show s.connections.length = 1 by omega)
    rw [hd, List.getElem?_cons_zero, Option.some.injEq] at hi
    exact ⟨rfl, hi ▸ hd⟩
  cases hstep with
  | accept =>
    left
    have hnil : handed s .accept = [] := rfl
    rw [hnil, List.append_nil]
    refine ⟨hgo, fun c hc hplace => ?_⟩
    rcases List.mem_append.mp hc with hc | hc
    · exact hended c hc hplace
    · rw [List.mem_singleton.mp hc] at hplace
      cases hplace
  | acceptFails =>
    left
    have hnil : handed s .acceptFails = [] := rfl
    rw [hnil, List.append_nil]
    exact ⟨hgo, hended⟩
  | @receive i chunk c hi hc =>
    left
    have hnil : handed s (.receive i chunk) = [] := rfl
    rw [hnil, List.append_nil]
    refine ⟨hgo, fun d hd hplace => ?_⟩
    rcases List.mem_or_eq_of_mem_set hd with hd | rfl
    · exact hended d hd hplace
    · exact absurd (hc.1.symm.trans hplace) (by simp)
  | @readFails i c hi hc =>
    left
    have hnil : handed s (.readFails i) = [] := rfl
    rw [hnil, List.append_nil]
    refine ⟨hgo, fun d hd hplace => ?_⟩
    rcases List.mem_or_eq_of_mem_set hd with hd | rfl
    · exact hended d hd hplace
    · exact hc.2
  | @turn i c hi hc =>
    obtain ⟨rfl, hconn⟩ := hfirst hi hone
    have hpart : handed s (.turn 0) = [c.message] := by
      simp [handed, shows, hi, Handler.calls]
    rw [hpart]
    cases hd : dispatch s.handler c.message with
    | none =>
      right
      refine ⟨fun more => ?_, ⟨c.rest, .ended⟩, ?_, rfl⟩
      · rw [dispatchAll_concat hgo, hd]
        simp [Handler.atOnce, hd]
      · simp [update, hconn, Handler.atOnce, hd, Dispatch.place]
    | some s' =>
      left
      refine ⟨fun more => ?_, fun d hmem hplace => ?_⟩
      · rw [dispatchAll_concat hgo, hd]
        simp [Handler.atOnce, hd]
      · rcases List.mem_or_eq_of_mem_set hmem with hmem | rfl
        · exact hended d hmem hplace
        · simp [Handler.atOnce, hd, Dispatch.place] at hplace
  | @resume i r c k h d hi hc hd => exact k.elim

/-- **The receiver refines the plain loop.** With one connection, and a handler whose calls never
wait, a quiet receiver has the handler in the state to which `handle_connection` brings it, given
the stream at once; also where a read or a call has ended the loop.

**Proof sketch.** Induction over the run: the plain loop has dispatched what the connection has
taken, and goes on from the state of the handler, or an exception has ended both. -/
theorem handler_eq_handleConnection
    (h : Run.exec (step (Handler.atOnce dispatch)) (start handler) es = some s)
    (hone : s.connections.length ≤ 1) (hquiet : s.Quiet) :
    s.handler = handleConnection dispatch handler [arrived 0 es] := by
  have hinv : GoesOn dispatch handler (Merge.part 0 (log (Handler.atOnce dispatch) handler es)) s ∨
      Broken dispatch handler (Merge.part 0 (log (Handler.atOnce dispatch) handler es)) s := by
    refine Run.history_induction (J := fun es s => s.connections.length ≤ 1 →
      (GoesOn dispatch handler (Merge.part 0 (log (Handler.atOnce dispatch) handler es)) s ∨
      Broken dispatch handler (Merge.part 0 (log (Handler.atOnce dispatch) handler es)) s))
      (fun _ => Or.inl ⟨fun _ => rfl, fun c hc => absurd hc List.not_mem_nil⟩) ?_ h hone
    intro p t e u hp ih hstep hlen
    have hstep := Step.of_step hstep
    have hle : t.connections.length ≤ u.connections.length := by
      cases hstep <;> simp [update]
    have hlog : Merge.part 0 (log (Handler.atOnce dispatch) handler (p ++ [e])) =
        Merge.part 0 (log (Handler.atOnce dispatch) handler p) ++
          handed t e := by
      rw [log, Run.trace_concat hp, Handler.calls_append, Merge.part_append]
      rfl
    rw [hlog]
    rcases ih (hle.trans hlen) with hgo | ⟨hbroken, c, hc, hplace⟩
    · exact hgo.step hstep hlen
    · right
      have hplaces : ∀ {i : ℕ} {d : Connection Empty}, t.connections[i]? = some d →
          d.place = .ended := by
        intro i d hi
        have hd : d ∈ [c] := hc ▸ List.mem_of_getElem? hi
        rw [List.mem_singleton.mp hd]
        exact hplace
      cases hstep with
      | accept =>
        rw [List.length_append, hc] at hlen
        simp at hlen
      | acceptFails =>
        have hnil : handed t .acceptFails = [] := rfl
        rw [hnil, List.append_nil]
        exact ⟨hbroken, c, hc, hplace⟩
      | receive hi hwait => exact absurd (hwait.1.symm.trans (hplaces hi)) (by simp)
      | readFails hi hwait => exact absurd (hwait.1.symm.trans (hplaces hi)) (by simp)
      | turn hi hready => exact absurd (hready.1.symm.trans (hplaces hi)) (by simp)
      | @resume i r c k h d hi hc hd => exact k.elim
  unfold handleConnection
  rw [Framing.serve_eq, List.nil_append, List.flatten_singleton, ← part_append h 0]
  rcases hinv with ⟨hgo, hended⟩ | ⟨hbroken, -⟩
  · have hnone : newline ∉ s.data 0 := by
      unfold data
      cases hi : s.connections[0]? with
      | none => simp
      | some c =>
        have hc := List.mem_of_getElem? hi
        exact (hquiet c hc).elim And.right (hended c hc)
    rw [Framing.split_of_notMem hnone, hgo]
    rfl
  · rw [hbroken]

/-- A handler that keeps lines of at most three bytes, and throws at a longer one. -/
def keepShort (lines : List Bytes) (line : Bytes) : Option (List Bytes) :=
  if line.length ≤ 3 then some (lines ++ [line]) else none

/-- Two short lines in two chunks, a long one, and a short one that is never dispatched. -/
def shortLines : List (Event Empty) :=
  [.accept, .receive 0 [1, 2], .receive 0 [10, 3, 10, 4, 4, 4, 10, 5, 10], .turn 0, .turn 0,
    .turn 0, .acceptFails]

/-- Both loops end at the long line. -/
theorem handler_eq_handleConnection_short :
    ∃ s, Run.exec (step (Handler.atOnce keepShort)) (start []) shortLines = some s ∧
      s.handler = [[1, 2, 10], [3, 10]] ∧
      s.handler = handleConnection keepShort [] [arrived 0 shortLines] := by
  have hrun : (Run.exec (step (Handler.atOnce keepShort)) (start []) shortLines).any
      (fun s => decide (s.connections.length ≤ 1 ∧ s.handler = [[1, 2, 10], [3, 10]] ∧
        ∀ c ∈ s.connections, c.isReading = false)) = true := by
    decide +kernel
  obtain ⟨s, hs, hend⟩ := Run.exists_exec_of_any hrun
  obtain ⟨hone, hkept, hleft⟩ := of_decide_eq_true hend
  refine ⟨s, hs, hkept, handler_eq_handleConnection hs hone fun c hc => Or.inr ?_⟩
  have hplace := hleft c hc
  cases hc : c.place with
  | reading => simp [Connection.isReading, hc] at hplace
  | dispatching k => exact k.elim
  | ended => rfl

end Receiver

end DagRider
