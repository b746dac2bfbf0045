import DagRider.Transport.Batching
import DagRider.Transport.Serving

set_option relaxedAutoImplicit false
set_option autoImplicit false

/-!
# Transactions from many clients

What a receiver with a `TxReceiverHandler` makes of the streams of any number of connections, which
arrive in any chunks and in any order, while blocks are being broadcast and connections fail.

## Main definitions

* `DagRider.TxReceiverHandler.transactions` — the transactions among some messages.

## Main results

* `DagRider.TxReceiverHandler.transactions_conserved` — every transaction is batched once, and those
  of a connection in their order.
-/

namespace DagRider

/-! ## Full blocks -/

/-- As many blocks are built as there are full ones. -/
lemma Batches.Sized.length_blocks {b : Batches} (h : b.Sized) :
    b.blocks.length = b.contents.length / batchSize := by
  have hfull : b.blocks.map (fun block => block.transactions.length) =
      List.replicate b.blocks.length batchSize := by
    rw [List.eq_replicate_iff]
    exact ⟨List.length_map _, by simpa using h.blocks⟩
  have hlen : b.contents.length = b.blocks.length * batchSize + b.transactionQueue.length := by
    rw [contents, List.length_append, List.length_flatMap, hfull, List.sum_replicate_nat]
  rw [hlen, Nat.add_comm, Nat.add_mul_div_right _ _ (by decide : 0 < batchSize),
    Nat.div_eq_of_lt h.queue, Nat.zero_add]

namespace TxReceiverHandler

variable {E : Environment} {s t : TxReceiverHandler} {fs : List (Handler.Event ℕ IoResult)}

/-- The transactions among some messages, one from each that is decoded. -/
def transactions (E : Environment) (messages : List Bytes) : List Transaction :=
  messages.flatMap fun message => (Transaction.decode E.codec message).toOption.toList

/-- **The batches of a run** of the handler: what its calls have brought. -/
theorem batches_of_exec (h : Run.exec (handler E).step new fs = some t) :
    t.batches.contents = transactions E ((Handler.calls fs).map Prod.snd) ∧ t.batches.Sized := by
  refine Run.history_induction (J := fun fs t => t.batches.contents =
    transactions E ((Handler.calls fs).map Prod.snd) ∧ t.batches.Sized)
    ⟨rfl, Batches.sized_empty⟩ ?_ h
  rintro p t e u - ⟨hcontents, hsized⟩ hu
  cases e with
  | call i message =>
    obtain rfl := Option.some.inj hu
    refine ⟨?_, sized_dispatch hsized message⟩
    show (t.dispatch E message).batches.contents = _
    rw [contents_dispatch, hcontents, Handler.calls_append, List.map_append, transactions,
      transactions, List.flatMap_append]
    simp [Handler.calls, decoded]
  | resumed k r =>
    obtain ⟨⟨_, d⟩, hresume, rfl⟩ := Option.map_eq_some_iff.mp hu
    obtain ⟨t', hio, heq⟩ := Option.map_eq_some_iff.mp hresume
    obtain rfl : t' = _ := congrArg Prod.fst heq
    rw [batches_io hio]
    simpa [Handler.calls] using ⟨hcontents, hsized⟩

/-- A call does not throw. -/
lemma place_call_ne_ended {i : ℕ} : (s.call i).place ≠ .ended := by
  unfold call
  split <;> simp [Dispatch.place]

/-- The handler catches all exceptions. -/
lemma catches (E : Environment) : (handler E).Catches where
  dispatch _ _ _ := place_call_ne_ended
  resume := by
    intro s k r h d hresume
    obtain ⟨t, -, heq⟩ := Option.map_eq_some_iff.mp hresume
    obtain rfl : t.call k = d := congrArg Prod.snd heq
    exact place_call_ne_ended

/-- **Transactions of many clients.** In every run of a receiver of transactions, with any number of
connections, what is batched is what was dispatched, in that order; on each connection the
dispatched messages are the first segments of its stream, and the others wait in its buffer; and one
block was built for every four transactions. When the receiver is quiet, what is batched are the
transactions of all segments of all streams, each once.

**Proof sketch.** The handler goes through a run of its own (`Receiver.handler_run`), so its batches
are known (`batches_of_exec`). What was dispatched is a merge of what each connection has taken of
its stream (`Receiver.part_append`, `Receiver.part_eq_of_quiet`). -/
theorem transactions_conserved (E : Environment) {es : List (Receiver.Event IoResult)}
    {s : Receiver TxReceiverHandler ℕ}
    (h : Run.exec (Receiver.step (handler E)) (Receiver.start new) es = some s) :
    s.handler.batches.contents =
        transactions E ((Receiver.log (handler E) new es).map Prod.snd) ∧
      (∀ i, Merge.part i (Receiver.log (handler E) new es) ++
          (Framing.split Receiver.newline (s.data i)).1 =
        (Framing.split Receiver.newline (Receiver.arrived i es)).1) ∧
      s.handler.batches.blocks.length = s.handler.batches.contents.length / batchSize ∧
      (s.Quiet → s.handler.batches.contents.Perm
        ((List.range s.connections.length).flatMap fun i =>
          transactions E (Framing.split Receiver.newline (Receiver.arrived i es)).1)) := by
  obtain ⟨hcontents, hsized⟩ := batches_of_exec (Receiver.handler_run h)
  refine ⟨hcontents, Receiver.part_append h, hsized.length_blocks, fun hquiet => ?_⟩
  have hperm : (transactions E ((Receiver.log (handler E) new es).map Prod.snd)).Perm
      ((List.range s.connections.length).flatMap fun i =>
        transactions E (Merge.part i (Receiver.log (handler E) new es))) := by
    unfold transactions
    rw [List.flatMap_map]
    exact Merge.perm_parts List.nodup_range
      (fun message => (Transaction.decode E.codec message).toOption.toList)
      fun p hp => List.mem_range.mpr (Receiver.lt_of_mem_log h hp)
  simp only [Receiver.part_eq_of_quiet (catches E) h hquiet] at hperm
  rw [hcontents]
  exact hperm

/-- Two clients, whose streams arrive in pieces and at the same time. The block is sent to none of
the four endpoints, since the connect fails and then the writes. -/
def clientEvents : List (Receiver.Event IoResult) :=
  [.accept, .accept, .receive 0 (ascii "[7"), .receive 1 (ascii "[7]\noops\n[7]\n"), .turn 1,
    .receive 0 (ascii "]\n[7]\n"), .turn 0, .turn 1, .turn 1, .turn 0, .resume 0 .connectFailed,
    .resume 0 .writeFailed, .resume 0 .writeFailed, .resume 0 .writeFailed]

/-- At the end the four transactions of the two clients make up a block. -/
theorem transactions_conserved_clients :
    ∃ s, Run.exec (Receiver.step (handler lineEnvironment)) (Receiver.start new) clientEvents =
        some s ∧ s.Quiet ∧ s.handler.batches.contents.Perm [[7], [7], [7], [7]] ∧
      s.handler.batches.blocks.length = 1 := by
  have hrun : (Run.exec (Receiver.step (handler lineEnvironment)) (Receiver.start new)
      clientEvents).any (fun s => decide ((∀ c ∈ s.connections, c.Waits) ∧
        (List.range s.connections.length).flatMap (fun i => transactions lineEnvironment
          (Framing.split Receiver.newline (Receiver.arrived i clientEvents)).1) =
            [[7], [7], [7], [7]])) = true := by
    decide +kernel
  obtain ⟨s, hs, hend⟩ := Run.exists_exec_of_any hrun
  obtain ⟨hwait, hstreams⟩ := of_decide_eq_true hend
  have hquiet : s.Quiet := fun c hc => Or.inl (hwait c hc)
  obtain ⟨-, -, hblocks, hperm⟩ := transactions_conserved lineEnvironment hs
  have hcontents := hperm hquiet
  rw [hstreams] at hcontents
  exact ⟨s, hs, hquiet, hcontents, by rw [hblocks, hcontents.length_eq]; rfl⟩

end TxReceiverHandler

end DagRider
