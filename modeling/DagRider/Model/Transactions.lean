import DagRider.Lib.Framing
import DagRider.Model.Broadcaster
import DagRider.Model.Wire

set_option relaxedAutoImplicit false
set_option autoImplicit false

/-!
# Clients, transactions and blocks

`src/network/receiver.hpp`, `src/transaction/coordinator.cpp`, `src/transaction/block_builder.cpp`
and `src/node/client.cpp`. `TxReceiverHandler` and `BlockBuilder` put transactions into a queue,
make a block of every four and send it to the committee. Their coroutines are suspended only in
`Broadcaster::send`; between two suspensions they run alone. The blocks that were built are
kept, in order, to have something to compare with.

## Main definitions

* `DagRider.Receiver.handleConnection`.
* `DagRider.Batches` — a queue of transactions and the blocks built from it.
* `DagRider.Broadcasting`, `DagRider.broadcast` — the loop over the endpoints.
* `DagRider.TxReceiverHandler`, `DagRider.BlockBuilder` — as transition systems.
* `DagRider.Client.doSend`.
-/

namespace DagRider

/-! ## Receivers -/

namespace Receiver

/-- The delimiter of messages. -/
def newline : UInt8 := 10

/-- `Receiver::handle_connection`, with the chunks in which the stream arrives: it reads up to
a newline and dispatches what it has read, until the stream ends or `dispatch` throws. -/
def handleConnection {σ : Type} (dispatch : σ → Bytes → Option σ) (s : σ)
    (chunks : List Bytes) : σ :=
  Framing.serve newline dispatch s [] chunks

end Receiver

/-! ## Batches -/

/-- `Block::Block(transactions)`, with the digest of the transactions. -/
def Block.new (digest : List Transaction → Bytes32) (transactions : List Transaction) : Block :=
  ⟨transactions, digest transactions⟩

/-- `BATCH_SIZE`. -/
def batchSize : ℕ := 4

/-- A queue of transactions, and the blocks that were built from it so far. -/
structure Batches where
  transactionQueue : List Transaction
  blocks : List Block

namespace Batches

/-- Nothing is queued or built. -/
def empty : Batches := ⟨[], []⟩

/-- Push a transaction. A queue that has reached the batch size is emptied into a block. -/
def push (digest : List Transaction → Bytes32) (b : Batches) (transaction : Transaction) :
    Batches × Option Block :=
  let transactionQueue := b.transactionQueue ++ [transaction]
  if batchSize ≤ transactionQueue.length then
    let block := Block.new digest transactionQueue
    (⟨[], b.blocks ++ [block]⟩, some block)
  else (⟨transactionQueue, b.blocks⟩, none)

end Batches

/-! ## The loop over the endpoints -/

/-- Where the loop is suspended: in a call of `send`, with the endpoints still to come. -/
structure Broadcasting where
  data : Bytes
  send : Send
  endpoints : List Endpoint

/-- Send data to the endpoints, one after the other, up to the first suspension. -/
def broadcast (valid : String → Bool) (data : Bytes) :
    Broadcaster → List Endpoint → Broadcaster × Option Broadcasting
  | b, [] => (b, none)
  | b, endpoint :: endpoints =>
    match b.send valid endpoint.addressToString endpoint.port data with
    | (b', send) =>
      if send.Returned then broadcast valid data b' endpoints
      else (b', some ⟨data, send, endpoints⟩)

/-- The operation that the loop waits for completes. -/
def Broadcasting.resume (valid : String → Bool) (b : Broadcaster) (w : Broadcasting)
    (r : IoResult) : Option (Broadcaster × Option Broadcasting) := do
  let (b', send) ← b.resume w.send r
  return if send.Returned then broadcast valid w.data b' w.endpoints
    else (b', some { w with send := send })

/-! ## Transactions from the network -/

/-- What the handlers use from elsewhere. -/
structure Environment where
  /-- The JSON library. -/
  codec : Json.Codec
  /-- `blake3` of the `cbor` of a list of transactions. -/
  digest : List Transaction → Bytes32
  /-- The strings that `make_address` accepts. -/
  valid : String → Bool
  committee : Committee

/-- `TxReceiverHandler`, with the calls of `dispatch` made on it. Each call that has built a
block has a broadcaster of its own. -/
structure TxReceiverHandler where
  batches : Batches
  /-- For each call, where it is suspended; `none` when it has returned. -/
  dispatches : List (Broadcaster × Option Broadcasting)

namespace TxReceiverHandler

/-- A new handler. -/
def new : TxReceiverHandler := ⟨Batches.empty, []⟩

/-- `TxReceiverHandler::dispatch` up to its first suspension. Exceptions are caught. -/
def dispatch (E : Environment) (s : TxReceiverHandler) (message : Bytes) : TxReceiverHandler :=
  match Transaction.decode E.codec message with
  | .error _ => ⟨s.batches, s.dispatches ++ [(Broadcaster.new, none)]⟩
  | .ok transaction =>
    match s.batches.push E.digest transaction with
    | (batches, none) => ⟨batches, s.dispatches ++ [(Broadcaster.new, none)]⟩
    | (batches, some block) =>
      let serializedBlock := E.codec.dump block.toJson
      ⟨batches, s.dispatches ++ [broadcast E.valid serializedBlock Broadcaster.new
        E.committee.getBlockReceiverAddresses]⟩

/-- What happens next. -/
inductive Event where
  /-- A message is dispatched. -/
  | dispatch (message : Bytes)
  /-- The operation that the call with this number waits for completes. -/
  | io (i : ℕ) (result : IoResult)

/-- One step. -/
def step (E : Environment) (s : TxReceiverHandler) : Event → Option TxReceiverHandler
  | .dispatch message => some (s.dispatch E message)
  | .io i result => do
    let (b, w) ← s.dispatches[i]?
    let (b, w) ← (← w).resume E.valid b result
    return { s with dispatches := s.dispatches.set i (b, w) }

end TxReceiverHandler

/-! ## Transactions from within -/

/-- Where the loop of `BlockBuilder::run` is. -/
inductive RunLoop where
  /-- Spawned, but not started. -/
  | spawned
  /-- At the head of the loop; nothing else runs before its next turn. -/
  | turning
  /-- Suspended in the call of `handle_transaction`. -/
  | suspended (w : Broadcasting)

/-- After a call of `handle_transaction` up to a suspension, or to its end. -/
def RunLoop.ofCall : Option Broadcasting → RunLoop
  | none => .turning
  | some w => .suspended w

/-- `BlockBuilder`, with its loop `run` and the calls of `handle_transaction` that others made.
All calls share the broadcaster. -/
structure BlockBuilder where
  batches : Batches
  network : Broadcaster
  loop : RunLoop
  /-- For each call of others, where it is suspended; `none` when it has returned. -/
  calls : List (Option Broadcasting)

namespace BlockBuilder

/-- A builder whose loop has been spawned. In the source `spawn` holds the only `shared_ptr` to it,
and the coroutine of `run` keeps no more than `this`, so the builder is destroyed when `spawn`
returns; here it lives on. -/
def spawn : BlockBuilder := ⟨Batches.empty, Broadcaster.new, .spawned, []⟩

/-- `BlockBuilder::handle_transaction` up to its first suspension. -/
def handleTransaction (E : Environment) (s : BlockBuilder) (transaction : Transaction) :
    BlockBuilder × Option Broadcasting :=
  match s.batches.push E.digest transaction with
  | (batches, none) => ({ s with batches := batches }, none)
  | (batches, some block) =>
    let serializedBlock := E.codec.dump block.toJson
    match broadcast E.valid serializedBlock s.network E.committee.getBlockReceiverAddresses with
    | (network, w) => ({ s with batches := batches, network := network }, w)

/-- What happens next. -/
inductive Event where
  /-- The loop starts. -/
  | start
  /-- One turn of the loop. -/
  | turn
  /-- Someone else calls `handle_transaction`. -/
  | submit (transaction : Transaction)
  /-- The operation that the loop waits for completes. -/
  | ioLoop (result : IoResult)
  /-- The operation that the call with this number waits for completes. -/
  | io (i : ℕ) (result : IoResult)

/-- One step. While the loop is at its head it has control, and only it can go on. -/
def step (E : Environment) (s : BlockBuilder) : Event → Option BlockBuilder
  | .start =>
    match s.loop with
    | .spawned => some { s with loop := .turning }
    | .turning | .suspended _ => none
  | .turn =>
    match s.loop with
    | .turning =>
      let transaction : Transaction := []
      let (s', w) := s.handleTransaction E transaction
      some { s' with loop := RunLoop.ofCall w }
    | .spawned | .suspended _ => none
  | .submit transaction =>
    match s.loop with
    | .turning => none
    | .spawned | .suspended _ =>
      let (s', w) := s.handleTransaction E transaction
      some { s' with calls := s.calls ++ [w] }
  | .ioLoop result =>
    match s.loop with
    | .suspended w => do
      let (network, w) ← w.resume E.valid s.network result
      return { s with network := network, loop := RunLoop.ofCall w }
    | .spawned | .turning => none
  | .io i result =>
    match s.loop with
    | .turning => none
    | .spawned | .suspended _ => do
      let w ← s.calls[i]?
      let (network, w) ← (← w).resume E.valid s.network result
      return { s with network := network, calls := s.calls.set i w }

end BlockBuilder

/-! ## The client -/

namespace Client

/-- A transaction of `Client::do_send`: `0`, the counter with its low byte first, and 55 bytes
that were never written. -/
def record (count : ℕ) (uninitialized : Fin 55 → UInt8) : Bytes :=
  0 :: ((List.range 8).map fun i => UInt8.ofNat (count / 256 ^ i)) ++ List.ofFn uninitialized

/-- `Client::do_send(count)`: the bytes written for the transactions from `count` on, when every
write succeeds. -/
def doSend (uninitialized : ℕ → Fin 55 → UInt8) (transactionCount count : ℕ) : Bytes :=
  if transactionCount ≤ count then []
  else record count (uninitialized count) ++ doSend uninitialized transactionCount (count + 1)
termination_by transactionCount - count

end Client

end DagRider
