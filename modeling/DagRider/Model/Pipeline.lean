import DagRider.Lib.Run
import DagRider.Model.Wire

set_option relaxedAutoImplicit false
set_option autoImplicit false

/-!
# The vertex pipeline

`src/vertex/vertex_message_handler.cpp` and `vertex_broadcaster.cpp`: a handler that receives
vertices on any number of connections, and the loop that is to broadcast them, with one promise
between them. `std::promise::set_value` throws when the value was set before, and
`std::future::get` waits for the value and invalidates the future; on an invalid future it
throws. An exception closes the connection on which a message came (`handle_connection`), and
ends the program when it leaves the broadcaster's thread.

## Main definitions

* `DagRider.VertexPipeline` — the state of both sides.
* `DagRider.VertexPipeline.dispatch` — `VertexReceiverHandler::dispatch`.
* `DagRider.VertexPipeline.turn` — one turn of the loop of `VertexBroadcaster::run`.
* `DagRider.VertexPipeline.step` — both, as a transition system.
-/

namespace DagRider

/-- The promise and its future, and what became of messages and vertices. -/
structure VertexPipeline where
  /-- The value of the promise. -/
  promise : Option Vertex
  /-- Whether the future can still be asked for it. -/
  futureValid : Bool
  /-- An exception has left the broadcaster's thread. -/
  terminated : Bool
  /-- The connections that were closed. -/
  closed : List ℕ
  /-- The vertices that were handed over, in order. -/
  handedOver : List Vertex
  /-- The vertices that the broadcaster has taken, in order. -/
  taken : List Vertex
  /-- The calls of `send` that the broadcaster has spawned, in order. -/
  sends : List (Vertex × Endpoint × Bytes)

namespace VertexPipeline

/-- The promise was not set yet. -/
def init : VertexPipeline := ⟨none, true, false, [], [], [], []⟩

/-- `std::promise::set_value`. -/
def setValue (s : VertexPipeline) (vertex : Vertex) : Except Exn VertexPipeline :=
  match s.promise with
  | some _ => .error .futureError
  | none => .ok { s with promise := some vertex, handedOver := s.handedOver ++ [vertex] }

/-- `VertexReceiverHandler::dispatch`. -/
def dispatch (T : Json.Codec) (s : VertexPipeline) (serialized : Bytes) :
    Except Exn VertexPipeline := do
  let vertex ← Vertex.decode T serialized
  s.setValue vertex

/-- A message arrives on a connection: nobody reads it when the connection was closed or the
program has ended; an exception of `dispatch` closes the connection. -/
def message (T : Json.Codec) (s : VertexPipeline) (connection : ℕ) (serialized : Bytes) :
    VertexPipeline :=
  if s.terminated = true ∨ connection ∈ s.closed then s
  else match s.dispatch T serialized with
    | .ok s' => s'
    | .error _ => { s with closed := connection :: s.closed }

/-- The loop over the addresses. `send` takes a string, so the JSON value is converted to one,
which throws unless it is a string. -/
def broadcast (vertex : Vertex) (bytes : Json) (s : VertexPipeline) :
    List Endpoint → VertexPipeline
  | [] => s
  | endpoint :: addresses =>
    match bytes.getString with
    | .ok data =>
      broadcast vertex bytes { s with sends := s.sends ++ [(vertex, endpoint, data)] } addresses
    | .error _ => { s with terminated := true }

/-- One turn of the loop of `VertexBroadcaster::run`; `none` while `get` waits. -/
def turn (committee : Committee) (s : VertexPipeline) : Option VertexPipeline :=
  if s.terminated = true then none
  else if s.futureValid = true then
    match s.promise with
    | none => none
    | some vertex =>
      let addresses := committee.getNodeAddresses
      let bytes := vertex.toJson
      some (broadcast vertex bytes
        { s with futureValid := false, taken := s.taken ++ [vertex] } addresses)
  else some { s with terminated := true }

/-- What happens next. -/
inductive Event where
  /-- A message arrives on the connection with this number. -/
  | message (connection : ℕ) (serialized : Bytes)
  /-- The broadcaster's loop takes a turn. -/
  | turn

/-- One step. -/
def step (T : Json.Codec) (committee : Committee) (s : VertexPipeline) :
    Event → Option VertexPipeline
  | .message connection serialized => some (s.message T connection serialized)
  | .turn => s.turn committee

end VertexPipeline

end DagRider
