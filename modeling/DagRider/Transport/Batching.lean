import DagRider.Lib.Run
import DagRider.Model.Transactions

set_option relaxedAutoImplicit false
set_option autoImplicit false

/-!
# Batches of transactions

What becomes of the transactions that are pushed into the queue of a `TxReceiverHandler` or of a
`BlockBuilder`, however the calls interleave.

## Main definitions

* `DagRider.Batches.contents` — the transactions of the blocks, and then those of the queue.
* `DagRider.Batches.Sized` — every block is full, and the queue is not.

## Main results

* `DagRider.TxReceiverHandler.batching_conserves` — a handler keeps what it has decoded.
* `DagRider.BlockBuilder.contents_eq_iff` — a builder adds nothing exactly when its loop has not
  taken a turn.
-/

namespace DagRider

/-! ## One push -/

namespace Batches

variable (digest : List Transaction → Bytes32) (b : Batches) (transaction : Transaction)

/-- The transactions of the blocks, in the order in which they were built, and then those of the
queue. -/
def contents (b : Batches) : List Transaction :=
  b.blocks.flatMap Block.transactions ++ b.transactionQueue

/-- Every block has as many transactions as the batch size, and the queue has fewer. -/
structure Sized (b : Batches) : Prop where
  blocks : ∀ block ∈ b.blocks, block.transactions.length = batchSize
  queue : b.transactionQueue.length < batchSize

/-- Nothing is built, and nothing queued. -/
lemma sized_empty : empty.Sized := ⟨by simp [empty], by simp [empty, batchSize]⟩

/-- **A pushed transaction comes last.** -/
lemma contents_push : (b.push digest transaction).1.contents = b.contents ++ [transaction] := by
  simp only [push]
  split_ifs with hsize <;> simp [contents, Block.new]

/-- **A push keeps blocks full and the queue short.** -/
lemma Sized.push {b : Batches} (h : b.Sized) : (b.push digest transaction).1.Sized := by
  have hqueue := h.queue
  simp only [Batches.push]
  split_ifs with hsize
  · refine ⟨fun block hblock => ?_, by simp [batchSize]⟩
    rcases List.mem_append.mp hblock with hold | hnew
    · exact h.blocks block hold
    · rw [List.mem_singleton.mp hnew]
      simp only [Block.new, List.length_append, List.length_singleton] at hsize ⊢
      omega
  · exact ⟨h.blocks, not_le.mp hsize⟩

end Batches

/-! ## Transactions from the network -/

namespace TxReceiverHandler

variable {E : Environment} {s s' t : TxReceiverHandler} {e : Event} {es : List Event}

/-- The transactions that an event brings. -/
def decoded (E : Environment) : Event → List Transaction
  | .dispatch message => (Transaction.decode E.codec message).toOption.toList
  | .io _ _ => []

/-- A message that is not decoded changes nothing. -/
lemma dispatch_of_error {message : Bytes} {x : Exn}
    (h : Transaction.decode E.codec message = .error x) :
    (s.dispatch E message).batches = s.batches := by
  unfold dispatch
  rw [h]

/-- A message that is decoded is pushed. -/
lemma dispatch_of_ok {message : Bytes} {transaction : Transaction}
    (h : Transaction.decode E.codec message = .ok transaction) :
    (s.dispatch E message).batches = (s.batches.push E.digest transaction).1 := by
  unfold dispatch
  rw [h]
  rcases hpush : s.batches.push E.digest transaction with ⟨batches, _ | block⟩ <;>
    simp only [hpush]

/-- **One call.** -/
lemma contents_dispatch (message : Bytes) :
    (s.dispatch E message).batches.contents =
      s.batches.contents ++ decoded E (.dispatch message) := by
  unfold decoded
  cases h : Transaction.decode E.codec message with
  | error x => simp [dispatch_of_error h, h, Except.toOption]
  | ok transaction => simp [dispatch_of_ok h, Batches.contents_push, h, Except.toOption]

/-- A call keeps blocks full and the queue short. -/
lemma sized_dispatch (h : s.batches.Sized) (message : Bytes) :
    (s.dispatch E message).batches.Sized := by
  cases hdecode : Transaction.decode E.codec message with
  | error x =>
    rw [dispatch_of_error hdecode]
    exact h
  | ok transaction =>
    rw [dispatch_of_ok hdecode]
    exact h.push E.digest transaction

/-- A suspended call that goes on leaves the batches alone. -/
lemma batches_io {i : ℕ} {r : IoResult} (h : step E s (.io i r) = some s') :
    s'.batches = s.batches := by
  simp only [step, Option.bind_eq_bind] at h
  obtain ⟨⟨b, w⟩, -, h⟩ := Option.bind_eq_some_iff.mp h
  obtain ⟨w', -, h⟩ := Option.bind_eq_some_iff.mp h
  obtain ⟨p, -, h⟩ := Option.bind_eq_some_iff.mp h
  rw [← Option.some.inj h]

/-- **Batching conserves transactions.** After every run the blocks, in the order in which they
were built, and then the queue hold the decoded transactions in the order of their arrival; every
block has as many as the batch size and the queue has fewer; and another message that is not
decoded changes neither.

**Proof sketch.** Induction over the run. A call pushes what it has decoded before it is
suspended (`contents_dispatch`, `sized_dispatch`), and goes on without touching the batches
(`batches_io`). -/
theorem batching_conserves (E : Environment) {es : List Event} {t : TxReceiverHandler}
    (h : Run.exec (step E) new es = some t) :
    t.batches.contents = es.flatMap (decoded E) ∧ t.batches.Sized ∧
      ∀ (message : Bytes) (x : Exn), Transaction.decode E.codec message = .error x →
        (t.dispatch E message).batches = t.batches := by
  have hrun : t.batches.contents = es.flatMap (decoded E) ∧ t.batches.Sized := by
    refine Run.history_induction
      (J := fun es t => t.batches.contents = es.flatMap (decoded E) ∧ t.batches.Sized)
      ⟨rfl, Batches.sized_empty⟩ ?_ h
    rintro p t e u - ⟨hcontents, hsized⟩ hu
    cases e with
    | dispatch message =>
      obtain rfl := Option.some.inj hu
      refine ⟨?_, sized_dispatch hsized message⟩
      rw [contents_dispatch, hcontents, List.flatMap_append, List.flatMap_singleton]
    | io i r =>
      rw [batches_io hu]
      refine ⟨?_, hsized⟩
      rw [hcontents, List.flatMap_append, List.flatMap_singleton]
      exact (List.append_nil _).symm
  exact ⟨hrun.1, hrun.2, fun message x hx => dispatch_of_error hx⟩

/-- What the handlers use, with a library that reads one text. -/
def sampleEnvironment : Environment :=
  ⟨Sample.codec [Json.ofBytes [7]], fun _ => 0, fun _ => true,
    Committee.new (Layout.front _) fun _ => 0⟩

/-- What the handlers use, with a library that reads one text and the newline after it. -/
def lineEnvironment : Environment :=
  { sampleEnvironment with codec :=
    ⟨Sample.print, fun text =>
      if text = ascii "[7]\n" then some (Json.ofBytes [7]) else none⟩ }

/-- Five good messages with a bad one between them, and a connect while the first block is being
sent. -/
def sampleEvents : List Event :=
  [.dispatch (ascii "[7]"), .dispatch (ascii "oops"), .dispatch (ascii "[7]"),
    .dispatch (ascii "[7]"), .dispatch (ascii "[7]"), .io 4 .connected,
    .dispatch (ascii "[7]"), .io 4 (.wrote 3)]

/-- A block of four is built and a fifth transaction is queued. -/
theorem batching_conserves_sample :
    ∃ t, Run.exec (step sampleEnvironment) new sampleEvents = some t ∧
      t.batches.contents = [[7], [7], [7], [7], [7]] ∧ t.batches.Sized := by
  have hrun : (Run.exec (step sampleEnvironment) new sampleEvents).any
      (fun _ => decide (sampleEvents.flatMap (decoded sampleEnvironment) =
        [[7], [7], [7], [7], [7]])) = true := by
    decide +kernel
  obtain ⟨t, ht, hdecoded⟩ := Run.exists_exec_of_any hrun
  have h := batching_conserves sampleEnvironment ht
  exact ⟨t, ht, h.1.trans (of_decide_eq_true hdecoded), h.2.1⟩

end TxReceiverHandler

/-! ## Transactions from within -/

namespace BlockBuilder

variable {E : Environment} {s s' t : BlockBuilder} {e : Event} {es : List Event}

/-- The transactions that others submit in an event. -/
def submitted : Event → List Transaction
  | .submit transaction => [transaction]
  | .start | .turn | .ioLoop _ | .io _ _ => []

/-- The transactions that an event pushes: a turn of the loop pushes one that is empty. -/
def pushed : Event → List Transaction
  | .submit transaction => [transaction]
  | .turn => [[]]
  | .start | .ioLoop _ | .io _ _ => []

/-- **One call.** -/
lemma contents_handleTransaction (transaction : Transaction) :
    (s.handleTransaction E transaction).1.batches.contents =
      s.batches.contents ++ [transaction] := by
  rw [← Batches.contents_push E.digest]
  unfold handleTransaction
  rcases hpush : s.batches.push E.digest transaction with ⟨batches, _ | block⟩ <;> rfl

/-- **One step.** -/
lemma contents_step (h : step E s e = some s') :
    s'.batches.contents = s.batches.contents ++ pushed e := by
  cases e with
  | start =>
    simp only [step] at h
    split at h
    · rw [← Option.some.inj h]
      exact (List.append_nil _).symm
    all_goals simp at h
  | turn =>
    simp only [step] at h
    split at h
    · rw [← Option.some.inj h]
      exact contents_handleTransaction []
    all_goals simp at h
  | submit transaction =>
    simp only [step] at h
    split at h
    · simp at h
    all_goals
      rw [← Option.some.inj h]
      exact contents_handleTransaction transaction
  | ioLoop r =>
    simp only [step, Option.bind_eq_bind] at h
    split at h
    · obtain ⟨p, -, h⟩ := Option.bind_eq_some_iff.mp h
      rw [← Option.some.inj h]
      exact (List.append_nil _).symm
    all_goals simp at h
  | io i r =>
    simp only [step, Option.bind_eq_bind] at h
    split at h
    · simp at h
    all_goals
      obtain ⟨w, -, h⟩ := Option.bind_eq_some_iff.mp h
      obtain ⟨w', -, h⟩ := Option.bind_eq_some_iff.mp h
      obtain ⟨p, -, h⟩ := Option.bind_eq_some_iff.mp h
      rw [← Option.some.inj h]
      exact (List.append_nil _).symm

/-- The blocks and the queue hold what the events have pushed. -/
lemma contents_run (h : Run.exec (step E) spawn es = some t) :
    t.batches.contents = es.flatMap pushed := by
  refine Run.history_induction (J := fun es t => t.batches.contents = es.flatMap pushed) rfl ?_ h
  rintro p t e u - ht hu
  rw [contents_step hu, ht, List.flatMap_append, List.flatMap_singleton]

/-- More is pushed than submitted, by one transaction for each turn of the loop. -/
lemma length_pushed (es : List Event) :
    (es.flatMap submitted).length ≤ (es.flatMap pushed).length ∧
      (Event.turn ∈ es → (es.flatMap submitted).length < (es.flatMap pushed).length) := by
  induction es with
  | nil => simp
  | cons e es ih =>
    obtain ⟨hle, hlt⟩ := ih
    simp only [List.flatMap_cons, List.length_append, List.mem_cons]
    cases e with
    | turn =>
      simp only [submitted, pushed, List.length_nil, List.length_singleton]
      omega
    | start | submit | ioLoop | io =>
      simp only [submitted, pushed, List.length_nil, List.length_singleton, reduceCtorEq, false_or]
      exact ⟨by omega, fun hturn => by have := hlt hturn; omega⟩

/-- **When a builder invents no transactions.** After every run of the loop and any calls of
others, the blocks and then the queue hold exactly what the others submitted, in their order, if
and only if the loop has not taken a turn.

**Proof sketch.** Each turn pushes a transaction that nobody submitted (`contents_run`), so with
a turn there are more of them than were submitted (`length_pushed`). -/
theorem contents_eq_iff (E : Environment) {es : List Event} {t : BlockBuilder}
    (h : Run.exec (step E) spawn es = some t) :
    t.batches.contents = es.flatMap submitted ↔ Event.turn ∉ es := by
  rw [contents_run h]
  constructor
  · intro heq hturn
    have hlt := (length_pushed es).2 hturn
    rw [heq] at hlt
    exact lt_irrefl _ hlt
  · intro hturn
    refine List.flatMap_congr fun e he => ?_
    cases e with
    | turn => exact absurd he hturn
    | start | submit | ioLoop | io => rfl

/-- What the builder uses. -/
def sampleEnvironment : Environment :=
  ⟨Sample.codec [], fun _ => 0, fun _ => true, Committee.new (Layout.front _) fun _ => 0⟩

/-- Before the loop starts nothing is invented. -/
theorem contents_eq_iff_sample :
    ∃ t, Run.exec (step sampleEnvironment) spawn [.submit [7], .submit [8]] = some t ∧
      t.batches.contents = [[7], [8]] := by
  have hrun : (Run.exec (step sampleEnvironment) spawn [.submit [7], .submit [8]]).any
      (fun _ => true) = true := by
    decide +kernel
  obtain ⟨t, ht, -⟩ := Run.exists_exec_of_any hrun
  exact ⟨t, ht, (contents_eq_iff sampleEnvironment ht).mpr (by simp)⟩

/-- Three turns of the loop after one submission: the first block has three transactions that
nobody submitted. -/
theorem contents_ne_submitted :
    ∃ t, Run.exec (step sampleEnvironment) spawn
        [.submit [7], .start, .turn, .turn, .turn] = some t ∧
      t.batches.contents ≠ [[7]] := by
  have hrun : (Run.exec (step sampleEnvironment) spawn
      [.submit [7], .start, .turn, .turn, .turn]).any
        (fun t => decide (t.batches.contents ≠ [[7]])) = true := by
    decide +kernel
  obtain ⟨t, ht, hne⟩ := Run.exists_exec_of_any hrun
  exact ⟨t, ht, of_decide_eq_true hne⟩

end BlockBuilder

end DagRider
