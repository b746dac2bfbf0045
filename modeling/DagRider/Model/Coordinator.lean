import DagRider.Model.Pipeline
import DagRider.Model.Receiver

set_option relaxedAutoImplicit false
set_option autoImplicit false

/-!
# The vertex coordinator and the receiver of blocks

`src/vertex/vertex_coordinator.cpp`, and `BlockReceiverHandler` of
`src/transaction/coordinator.cpp`. `VertexCoordinator::spawn` starts a receiver of vertices and then
spawns the broadcaster. `start` returns when `io_context::run` does, and this returns when no
coroutine is left: when the receiver accepts no more and every connection has ended. No coroutine of
the receiver runs after that.

## Main definitions

* `DagRider.VertexReceiverHandler.handler` — the handler of the receiver of vertices.
* `DagRider.VertexCoordinator` — the receiver, and whether the broadcaster was spawned.
* `DagRider.BlockReceiverHandler.handler` — the handler of the receiver of blocks.
-/

namespace DagRider

/-! ## Vertices -/

/-- `VertexReceiverHandler`, whose exceptions reach the loop of the connection. A call is never
suspended. -/
def VertexReceiverHandler.handler (T : Json.Codec) : Handler VertexPipeline Empty Empty where
  dispatch s _ message :=
    match s.dispatch T message with
    | .ok s' => (s', .returned)
    | .error _ => (s, .threw)
  resume _ k _ := k.elim

/-- What `VertexCoordinator::spawn` has started: the receiver, whose handler shares the promise
with the broadcaster, and the broadcaster, when it was spawned. -/
structure VertexCoordinator where
  receiver : Receiver VertexPipeline Empty
  spawned : Bool

namespace VertexCoordinator

/-- The receiver was started. -/
def spawn : VertexCoordinator := ⟨Receiver.start VertexPipeline.init, false⟩

/-- What the two sides share. -/
def pipeline (s : VertexCoordinator) : VertexPipeline := s.receiver.handler

/-- Whether a connection has ended. -/
def hasEnded (c : Connection Empty) : Bool :=
  match c.place with
  | .ended => true
  | .reading | .dispatching _ => false

/-- No coroutine of the receiver is left. -/
def returns (s : VertexCoordinator) : Bool :=
  !s.receiver.accepting && s.receiver.connections.all hasEnded

/-- What happens next. -/
inductive Event where
  /-- A step of the receiver. -/
  | network (e : Receiver.Event Empty)
  /-- `start` returns, and the broadcaster is spawned. -/
  | startReturns
  /-- The broadcaster's loop takes a turn. -/
  | turn

/-- One step. -/
def step (T : Json.Codec) (committee : Committee) (s : VertexCoordinator) :
    Event → Option VertexCoordinator
  | .network e =>
    if s.spawned then none
    else (s.receiver.step (VertexReceiverHandler.handler T) e).map fun receiver =>
      { s with receiver := receiver }
  | .startReturns => if !s.spawned && s.returns then some { s with spawned := true } else none
  | .turn =>
    if s.spawned then (s.pipeline.turn committee).map fun pipeline =>
      { s with receiver := { s.receiver with handler := pipeline } }
    else none

end VertexCoordinator

/-! ## Blocks -/

/-- What `BlockReceiverHandler::dispatch` makes of a message: `json::parse` and
`get_to(block)`. -/
def Block.decode (T : Json.Codec) (message : Bytes) : Except Exn Block := do
  let j ← parse T message
  Block.fromJson j

/-- `BlockReceiverHandler`, which catches all exceptions and is never suspended. Its state are the
blocks whose size it has printed. -/
def BlockReceiverHandler.handler (T : Json.Codec) : Handler (List Block) Empty Empty where
  dispatch s _ message :=
    match Block.decode T message with
    | .ok block => (s ++ [block], .returned)
    | .error _ => (s, .returned)
  resume _ k _ := k.elim

end DagRider
