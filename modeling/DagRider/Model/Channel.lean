import DagRider.Node.Drain
import DagRider.Lib.Run
import Mathlib.Algebra.BigOperators.Group.Finset.Basic
import Mathlib.Data.Fintype.Basic

set_option relaxedAutoImplicit false
set_option autoImplicit false

/-!
# A channel and its threads

`src/consensus/communication.hpp`: the queue of a `Receiver` behind `mutex_`, the condition
variable `cv_` on which `receive` waits, and `cout_mutex`. Any number of threads are inside its
member functions at once; a `Sender` only hands its calls on. Each lock, unlock, evaluation of the
predicate, access to the queue, wait and notification is one step, and the steps of the threads
come in any order.

A waiting thread is woken by `notify_one`, which chooses one of the waiting threads, or without
cause. To take the front of an empty queue is undefined, so it is no step here.

## Main definitions

* `DagRider.Channel.Place` — where a thread is in its call.
* `DagRider.Channel`, `DagRider.Channel.Event`, `DagRider.Channel.step`.
* `DagRider.AtomicQueue`, `DagRider.AtomicQueue.step` — a queue whose operations take effect at
  once, between a call and its return.
* `DagRider.Channel.view`, `DagRider.Channel.shows` — the queue that the threads of a channel see,
  and what they do to it.
-/

namespace DagRider

namespace Channel

/-- Where a thread is. -/
inductive Place (α : Type)
  /-- In no member function. -/
  | outside
  /-- `receive`, before it locks `mutex_`. -/
  | atReceive
  /-- `receive`, before it locks `cout_mutex`. -/
  | atCoutLock
  /-- `receive`, before it unlocks `cout_mutex`. -/
  | atCoutUnlock
  /-- `receive`, about to evaluate the predicate of the wait. -/
  | atPredicate
  /-- `receive`, blocked in the wait. -/
  | asleep
  /-- `receive`, woken, before it locks `mutex_` again. -/
  | woken
  /-- `receive`, before `queue_.front()`. -/
  | atFront
  /-- `receive`, before `queue_.pop()`, with the item it read. -/
  | atPop (item : α)
  /-- `receive`, before it unlocks `mutex_` and returns the item. -/
  | atReturn (item : α)
  /-- `send`, before it locks `mutex_`. -/
  | atSend (item : α)
  /-- `send`, before `queue_.push(item)`. -/
  | atPush (item : α)
  /-- `send`, before it unlocks `mutex_`. -/
  | atUnlock
  /-- `send`, before `cv_.notify_one()`. -/
  | atNotify
  /-- `printContents`, before it locks `mutex_`. -/
  | atPrintLock
  /-- `printContents`, before it unlocks `mutex_`. -/
  | atPrint

namespace Place

variable {α : Type} {p : Place α}

/-- The thread may call a member function. -/
def isOutside : Place α → Bool
  | outside => true
  | _ => false

/-- The thread is blocked in the wait. -/
def isAsleep : Place α → Bool
  | asleep => true
  | _ => false

/-- The thread is about to notify. -/
def isAtNotify : Place α → Bool
  | atNotify => true
  | _ => false

@[simp] lemma isOutside_iff : p.isOutside = true ↔ p = outside := by
  cases p <;> simp [isOutside]

@[simp] lemma isAsleep_iff : p.isAsleep = true ↔ p = asleep := by
  cases p <;> simp [isAsleep]

@[simp] lemma isAtNotify_iff : p.isAtNotify = true ↔ p = atNotify := by
  cases p <;> simp [isAtNotify]

end Place

end Channel

/-- A `Receiver`, with the threads that hold its mutexes and the places of all threads. -/
structure Channel (θ α : Type) where
  queue : List α
  mutex : Option θ
  coutMutex : Option θ
  place : θ → Channel.Place α

namespace Channel

/-- A step of one thread. -/
inductive Event (θ α : Type)
  /-- The thread calls `receive`. -/
  | receive (thread : θ)
  /-- The thread calls `send`. -/
  | send (thread : θ) (item : α)
  /-- The thread calls `printContents`. -/
  | printContents (thread : θ)
  /-- The thread goes on in its call. -/
  | resume (thread : θ)
  /-- The thread calls `notify_one`, which wakes a waiting thread if there is one. -/
  | notify (thread : θ) (wakes : Option θ)
  /-- The wait of the thread ends without a notification. -/
  | spurious (thread : θ)

variable {θ α : Type} [DecidableEq θ]

/-- The channel when a thread has come to another place. -/
def goto (s : Channel θ α) (t : θ) (p : Place α) : Channel θ α :=
  { s with place := Function.update s.place t p }

@[simp] lemma goto_queue {s : Channel θ α} {t : θ} {p : Place α} : (s.goto t p).queue = s.queue :=
  rfl

/-- Lock `mutex_`, if it is free. -/
def lock (s : Channel θ α) (t : θ) (p : Place α) : Option (Channel θ α) :=
  if s.mutex = none then some { s.goto t p with mutex := some t } else none

/-- Unlock `mutex_`. -/
def unlock (s : Channel θ α) (t : θ) (p : Place α) : Channel θ α :=
  { s.goto t p with mutex := none }

/-- A thread goes on in its call. -/
def resume (s : Channel θ α) (t : θ) : Option (Channel θ α) :=
  match s.place t with
  | .atReceive => s.lock t .atCoutLock
  | .atCoutLock =>
    if s.coutMutex = none then some { s.goto t .atCoutUnlock with coutMutex := some t } else none
  | .atCoutUnlock => some { s.goto t .atPredicate with coutMutex := none }
  | .atPredicate => some (if s.queue.isEmpty then s.unlock t .asleep else s.goto t .atFront)
  | .woken => s.lock t .atPredicate
  | .atFront => s.queue.head?.map fun item => s.goto t (.atPop item)
  | .atPop item => some { s.goto t (.atReturn item) with queue := s.queue.tail }
  | .atReturn _ => some (s.unlock t .outside)
  | .atSend item => s.lock t (.atPush item)
  | .atPush item => some { s.goto t .atUnlock with queue := s.queue ++ [item] }
  | .atUnlock => some (s.unlock t .atNotify)
  | .atPrintLock => s.lock t .atPrint
  | .atPrint => some (s.unlock t .outside)
  | .outside | .asleep | .atNotify => none

/-- One step. -/
def step [Fintype θ] (s : Channel θ α) : Event θ α → Option (Channel θ α)
  | .receive t => if (s.place t).isOutside then some (s.goto t .atReceive) else none
  | .send t item => if (s.place t).isOutside then some (s.goto t (.atSend item)) else none
  | .printContents t => if (s.place t).isOutside then some (s.goto t .atPrintLock) else none
  | .resume t => s.resume t
  | .notify t (some u) =>
    if (s.place t).isAtNotify ∧ (s.place u).isAsleep then
      some ((s.goto t .outside).goto u .woken)
    else none
  | .notify t none =>
    if (s.place t).isAtNotify ∧ ∀ u, (s.place u).isAsleep = false then some (s.goto t .outside)
    else none
  | .spurious t => if (s.place t).isAsleep then some (s.goto t .woken) else none

/-- A new channel. -/
def init (θ α : Type) : Channel θ α := ⟨[], none, none, fun _ => .outside⟩

end Channel

/-! ## The queue without the locks -/

namespace AtomicQueue

/-- Where a thread is. -/
inductive Status (α : Type)
  /-- In no operation. -/
  | idle
  /-- It called `receive`. -/
  | receiving
  /-- Its `receive` took this item. -/
  | received (item : α)
  /-- It called `send`. -/
  | sending (item : α)
  /-- Its `send` took effect. -/
  | sent
deriving DecidableEq

/-- The calls, effects and returns of the operations. -/
inductive Op (θ α : Type)
  /-- The thread calls `receive`. -/
  | receive (thread : θ)
  /-- The `receive` of the thread takes effect. -/
  | take (thread : θ)
  /-- The `receive` of the thread returns the item. -/
  | received (thread : θ) (item : α)
  /-- The thread calls `send`. -/
  | send (thread : θ) (item : α)
  /-- The `send` of the thread takes effect. -/
  | put (thread : θ)
  /-- The `send` of the thread returns. -/
  | sent (thread : θ)

end AtomicQueue

/-- A queue, and what the threads are doing with it. -/
structure AtomicQueue (θ α : Type) where
  queue : List α
  status : θ → AtomicQueue.Status α

namespace AtomicQueue

variable {θ α : Type} [DecidableEq θ]

/-- The queue when a thread is elsewhere. -/
def goto (s : AtomicQueue θ α) (t : θ) (st : Status α) : AtomicQueue θ α :=
  { s with status := Function.update s.status t st }

/-- One step: an operation takes effect at once, `receive` as `Channel.receive` does. -/
def step [DecidableEq α] (s : AtomicQueue θ α) : Op θ α → Option (AtomicQueue θ α)
  | .receive t => if s.status t = .idle then some (s.goto t .receiving) else none
  | .take t =>
    match s.status t, Channel.receive s.queue with
    | .receiving, some (some item, queue) => some { s.goto t (.received item) with queue }
    | _, _ => none
  | .received t item => if s.status t = .received item then some (s.goto t .idle) else none
  | .send t item => if s.status t = .idle then some (s.goto t (.sending item)) else none
  | .put t =>
    match s.status t with
    | .sending item => some { s.goto t .sent with queue := s.queue ++ [item] }
    | _ => none
  | .sent t => if s.status t = .sent then some (s.goto t .idle) else none

/-- A new queue. -/
def init (θ α : Type) : AtomicQueue θ α := ⟨[], fun _ => .idle⟩

end AtomicQueue

namespace Channel

variable {θ α : Type}

/-- What a thread at a place is doing with the queue. -/
def Place.status : Place α → AtomicQueue.Status α
  | outside | atPrintLock | atPrint => .idle
  | atReceive | atCoutLock | atCoutUnlock | atPredicate | asleep | woken | atFront | atPop _ =>
    .receiving
  | atReturn item => .received item
  | atSend item | atPush item => .sending item
  | atUnlock | atNotify => .sent

/-- The queue the threads see. -/
def view (s : Channel θ α) : AtomicQueue θ α := ⟨s.queue, fun t => (s.place t).status⟩

/-- What a step does to the queue the threads see. -/
def shows (s : Channel θ α) : Event θ α → List (AtomicQueue.Op θ α)
  | .receive t => [.receive t]
  | .send t item => [.send t item]
  | .resume t =>
    match s.place t with
    | .atPop _ => [.take t]
    | .atReturn item => [.received t item]
    | .atPush _ => [.put t]
    | _ => []
  | .notify t _ => [.sent t]
  | .printContents _ | .spurious _ => []

/-- The item a step puts into the queue. -/
def puts (s : Channel θ α) : Event θ α → List α
  | .resume t =>
    match s.place t with
    | .atPush item => [item]
    | _ => []
  | _ => []

/-- The item a step returns to the caller of `receive`. -/
def returns (s : Channel θ α) : Event θ α → List α
  | .resume t =>
    match s.place t with
    | .atReturn item => [item]
    | _ => []
  | _ => []

end Channel

end DagRider
