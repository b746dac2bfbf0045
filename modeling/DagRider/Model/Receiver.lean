import DagRider.Model.Transactions

set_option relaxedAutoImplicit false
set_option autoImplicit false

/-!
# The receiver with all its connections

`src/network/receiver.hpp`. One `io_context` runs the coroutine `run`, which accepts connections,
and one `handle_connection` for each of them; all share the handler. A coroutine is suspended in
`async_read_until` and in what `dispatch` waits for; between two suspensions it runs alone. Here
every resumption is a step, with the outcome that the operating system gives.

`async_read_until` reads only when the buffer has no delimiter yet, and leaves in the buffer what
it has read beyond the first one.

## Main definitions

* `DagRider.Handler` — a handler, as the template `Receiver` uses it.
* `DagRider.Receiver`, `DagRider.Receiver.step` — the receiver as a transition system.
* `DagRider.TxReceiverHandler.handler`, `DagRider.MessageHandler.handler` — two handlers.
-/

namespace DagRider

/-! ## Handlers -/

/-- How a call of `dispatch` stands. -/
inductive Dispatch (κ : Type) where
  /-- It has returned. -/
  | returned
  /-- An exception has left it. -/
  | threw
  /-- It is suspended; `k` tells where. -/
  | suspended (k : κ)

/-- A handler with state `σ`. A call is suspended at a `κ`, and resumed with a `ρ`. -/
structure Handler (σ κ ρ : Type) where
  /-- A call of `dispatch` up to its first suspension, with the connection whose socket is the
  writer. -/
  dispatch : σ → ℕ → Bytes → σ × Dispatch κ
  /-- A suspended call goes on. -/
  resume : σ → κ → ρ → Option (σ × Dispatch κ)

namespace Handler

variable {σ κ ρ : Type}

/-- What happens to a handler. -/
inductive Event (κ ρ : Type) where
  /-- A connection calls `dispatch`. -/
  | call (i : ℕ) (message : Bytes)
  /-- A suspended call goes on. -/
  | resumed (k : κ) (r : ρ)

/-- One step of a handler. -/
def step (H : Handler σ κ ρ) (s : σ) : Event κ ρ → Option σ
  | .call i message => some (H.dispatch s i message).1
  | .resumed k r => (H.resume s k r).map Prod.fst

end Handler

/-! ## Connections -/

/-- Where the loop of `handle_connection` is. -/
inductive Connection.Place (κ : Type) where
  /-- Suspended in `async_read_until`. -/
  | reading
  /-- Suspended in `dispatch`. -/
  | dispatching (k : κ)
  /-- The loop was left. -/
  | ended

/-- After a call of `dispatch` the loop goes on, unless the call threw. -/
def Dispatch.place {κ : Type} : Dispatch κ → Connection.Place κ
  | returned => .reading
  | threw => .ended
  | suspended k => .dispatching k

/-- One `handle_connection`. -/
structure Connection (κ : Type) where
  /-- What was read and not yet taken. -/
  data : Bytes
  place : Connection.Place κ

namespace Connection

variable {κ : Type}

/-- The loop waits for more of the stream. -/
def Waits (c : Connection κ) : Prop := c.place = .reading ∧ Receiver.newline ∉ c.data

/-- The loop has a message to dispatch. -/
def Ready (c : Connection κ) : Prop := c.place = .reading ∧ Receiver.newline ∈ c.data

/-- The loop is suspended in `async_read_until`. -/
def isReading (c : Connection κ) : Bool :=
  match c.place with
  | .reading => true
  | .dispatching _ | .ended => false

/-- The test for the place of the loop. -/
@[simp] lemma isReading_iff {c : Connection κ} : c.isReading = true ↔ c.place = .reading := by
  unfold isReading
  cases c.place <;> simp

instance (c : Connection κ) : Decidable c.Waits :=
  decidable_of_iff (c.isReading = true ∧ Receiver.newline ∉ c.data) (by simp [Waits])

instance (c : Connection κ) : Decidable c.Ready :=
  decidable_of_iff (c.isReading = true ∧ Receiver.newline ∈ c.data) (by simp [Ready])

/-- `bytes_transferred`: how far the first delimiter reaches. -/
def bytesTransferred (c : Connection κ) : ℕ := c.data.idxOf Receiver.newline + 1

/-- The message that the loop dispatches next. -/
def message (c : Connection κ) : Bytes :=
  if c.data = [] then [] else c.data.take c.bytesTransferred

/-- What is left of the data. -/
def rest (c : Connection κ) : Bytes :=
  if c.data = [] then [] else c.data.drop c.bytesTransferred

end Connection

/-! ## The receiver -/

/-- `Receiver`: the handler, whether `run` accepts, and the connections it has accepted. -/
structure Receiver (σ κ : Type) where
  handler : σ
  accepting : Bool
  connections : List (Connection κ)

namespace Receiver

variable {σ κ ρ : Type}

/-- A receiver that was started. -/
def start (handler : σ) : Receiver σ κ := ⟨handler, true, []⟩

/-- What happens next. -/
inductive Event (ρ : Type) where
  /-- `async_accept` returns a socket. -/
  | accept
  /-- `async_accept` throws, which ends `run`. -/
  | acceptFails
  /-- More of the stream is read on a connection. -/
  | receive (i : ℕ) (chunk : Bytes)
  /-- The stream of a connection ends, or its read fails. -/
  | readFails (i : ℕ)
  /-- A connection has read a message and calls `dispatch`. -/
  | turn (i : ℕ)
  /-- What the call of a connection waits for is done. -/
  | resume (i : ℕ) (r : ρ)

/-- Change a connection, and the handler. -/
def update (s : Receiver σ κ) (i : ℕ) (handler : σ) (c : Connection κ) : Receiver σ κ :=
  { s with handler := handler, connections := s.connections.set i c }

/-- One step. -/
def step (H : Handler σ κ ρ) (s : Receiver σ κ) : Event ρ → Option (Receiver σ κ)
  | .accept =>
    if s.accepting then some { s with connections := s.connections ++ [⟨[], .reading⟩] } else none
  | .acceptFails => if s.accepting then some { s with accepting := false } else none
  | .receive i chunk => do
    let c ← s.connections[i]?
    if c.Waits then some (s.update i s.handler { c with data := c.data ++ chunk }) else none
  | .readFails i => do
    let c ← s.connections[i]?
    if c.Waits then some (s.update i s.handler { c with place := .ended }) else none
  | .turn i => do
    let c ← s.connections[i]?
    if c.Ready then
      let (handler, call) := H.dispatch s.handler i c.message
      some (s.update i handler ⟨c.rest, call.place⟩)
    else none
  | .resume i r => do
    let c ← s.connections[i]?
    match c.place with
    | .dispatching k =>
      let (handler, call) ← H.resume s.handler k r
      some (s.update i handler { c with place := call.place })
    | .reading | .ended => none

end Receiver

/-! ## Two handlers -/

/-- How a call with a number stands: it is suspended as long as its loop over the endpoints is. -/
def TxReceiverHandler.call (s : TxReceiverHandler) (i : ℕ) : Dispatch ℕ :=
  match s.dispatches[i]? with
  | some (_, some _) => .suspended i
  | some (_, none) | none => .returned

/-- `TxReceiverHandler`, which catches all exceptions. -/
def TxReceiverHandler.handler (E : Environment) : Handler TxReceiverHandler ℕ IoResult where
  dispatch s _ message :=
    let s' := s.dispatch E message
    (s', s'.call s.dispatches.length)
  resume s i r := (s.step E (.io i r)).map fun s' => (s', s'.call i)

namespace MessageHandler

/-- Where a call is suspended in `async_write`: on which socket, with the rest of the response. -/
structure Writing where
  writer : ℕ
  rest : Bytes

/-- The outcome of the write that a call waits for. -/
inductive WriteResult where
  /-- The next `n` bytes are taken. -/
  | wrote (n : ℕ)
  | failed

/-- `"Acknowledged: "`. -/
def acknowledged : Bytes := ascii "Acknowledged: "

/-- The response to a message. -/
def response (message : Bytes) : Bytes := acknowledged ++ message ++ [Receiver.newline]

/-- `MessageHandler`. Its state is what was written on the socket of each connection. -/
def handler : Handler (ℕ → Bytes) Writing WriteResult where
  dispatch s writer message := (s, .suspended ⟨writer, response message⟩)
  resume s w
    | .wrote n =>
      if n ≤ w.rest.length ∧ 0 < n then
        some (Function.update s w.writer (s w.writer ++ w.rest.take n),
          if n = w.rest.length then .returned else .suspended ⟨w.writer, w.rest.drop n⟩)
      else none
    | .failed => some (s, .threw)

end MessageHandler

end DagRider
