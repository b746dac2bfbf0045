import DagRider.Transport.Batching
import DagRider.Transport.Turns

set_option relaxedAutoImplicit false
set_option autoImplicit false

/-!
# Messages on a connection

What a receiver makes of the bytes that a broadcaster or a client has written. A receiver waits
for newlines; a broadcaster writes none of its own, and a client writes records that are not
JSON.

## Main definitions

* `DagRider.Receiver.Delivers` — a handler is called with the payloads, in order.
* `DagRider.Client.records` — the transactions of a client.

## Main results

* `DagRider.Receiver.dispatches_segments` — a handler is called with the segments of the stream.
* `DagRider.Receiver.delivers_iff` — payloads without newlines are delivered only if there are
  none.
* `DagRider.Client.contents_eq_records_iff` — so are the transactions of a client.
-/

namespace DagRider

/-! ## Receivers -/

namespace Receiver

/-- A message without its delimiter. -/
def withoutDelimiter (message : Bytes) : Bytes :=
  if message.getLast? = some newline then message.dropLast else message

/-- Every handler that never throws is called with these payloads, in order, each with or without
its delimiter, and with nothing else. -/
def Delivers (payloads : List Bytes) (chunks : List Bytes) : Prop :=
  ∃ messages : List Bytes, messages.map withoutDelimiter = payloads ∧
    ∀ (σ : Type) (dispatch : σ → Bytes → σ) (s : σ),
      handleConnection (fun s message => some (dispatch s message)) s chunks =
        messages.foldl dispatch s

/-- A handler that never throws is called with the segments of the stream. -/
lemma handleConnection_some {σ : Type} (dispatch : σ → Bytes → σ) (s : σ)
    (chunks : List Bytes) :
    handleConnection (fun s message => some (dispatch s message)) s chunks =
      (Framing.split newline chunks.flatten).1.foldl dispatch s := by
  unfold handleConnection
  rw [Framing.serve_eq, Framing.dispatchAll_some, List.nil_append]

/-- **What is dispatched does not depend on the chunks.** A stream is a list of segments, each ended
by its one newline, and a remainder without newlines. In whatever chunks the stream arrives, a
handler that never throws is called with these segments, in order, each once, and with nothing of
the remainder.

**Proof sketch.** The buffer and the unread chunks are together what was not dispatched
(`Framing.serve_eq`). -/
theorem dispatches_segments (stream : Bytes) :
    ∃ segments rest, Framing.IsSplit newline stream segments rest ∧
      ∀ chunks : List Bytes, chunks.flatten = stream →
        ∀ (σ : Type) (dispatch : σ → Bytes → σ) (s : σ),
          handleConnection (fun s message => some (dispatch s message)) s chunks =
            segments.foldl dispatch s := by
  refine ⟨_, _, Framing.isSplit_iff.mpr rfl, fun chunks hchunks σ dispatch s => ?_⟩
  rw [handleConnection_some, hchunks]

example : handleConnection (fun s message => some (s ++ [message])) []
    [ascii "a", [98, 10, 99], [10, 10, 100]] = [[97, 98, 10], [99, 10], [10]] := by
  rw [handleConnection_some]
  decide

/-- A handler that takes notes of its messages notes all of them. -/
lemma foldl_concat (messages noted : List Bytes) :
    messages.foldl (fun noted message => noted ++ [message]) noted = noted ++ messages := by
  induction messages generalizing noted with
  | nil => exact (List.append_nil _).symm
  | cons message messages ih =>
    rw [List.foldl_cons, ih, List.append_assoc]
    rfl

/-- A stream without newlines delivers nothing. -/
lemma delivers_of_notMem {payloads chunks : List Bytes} (h : newline ∉ chunks.flatten) :
    Delivers payloads chunks ↔ payloads = [] := by
  have hnone : ∀ (σ : Type) (dispatch : σ → Bytes → σ) (s : σ),
      handleConnection (fun s message => some (dispatch s message)) s chunks = s := by
    intro σ dispatch s
    rw [handleConnection_some, Framing.split_of_notMem h]
    rfl
  constructor
  · rintro ⟨messages, rfl, hall⟩
    -- a handler that takes notes
    have hnotes := hall (List Bytes) (fun noted message => noted ++ [message]) []
    rw [hnone, foldl_concat, List.nil_append] at hnotes
    rw [← hnotes]
    rfl
  · rintro rfl
    exact ⟨[], rfl, hnone⟩

end Receiver

/-! ## From a broadcaster to a receiver -/

namespace Sends

variable {valid : String → Bool} {t : Sends} {es : List SendEvent}

/-- What was written to an address; nothing if there is no connection. -/
def streamTo (s : Sends) (address : String) : Bytes :=
  match (s.broadcaster.connections.find? address).bind (s.broadcaster.sockets[·]?) with
  | some sock => sock.stream
  | none => []

/-- After payloads were sent to one address, one after the other, they are what was written. -/
lemma streamTo_eq {address : String} (hv : valid address = true) {port : Fin (2 ^ 16)}
    {payloads : List Bytes} (h : run valid es = some t)
    (hok : Run.Along (step valid) Orderly init es) (hw : ∀ e ∈ es, Writes e)
    (hcalls : t.calls = payloads.map fun payload => ⟨address, port, payload⟩)
    (hret : t.AllReturned) : t.streamTo address = payloads.flatten := by
  have hcached := cached h
  unfold streamTo
  cases hk : t.broadcaster.connections.find? address with
  | none =>
    cases payloads with
    | nil => rfl
    | cons payload payloads =>
      obtain ⟨k, hk'⟩ := hcached.exists_entry (c := ⟨address, port, payload⟩) (by simp [hcalls])
      exact absurd (hk.symm.trans hk') (by simp)
  | some k =>
    obtain ⟨sock, c, hsock, -, haddr, -⟩ := hcached.exists_socket hk
    have hstream := streams hok hw h k sock hsock (haddr ▸ hv)
    rw [restTo_of_returned hret, List.append_nil, haddr] at hstream
    rw [Option.bind_some, hsock]
    refine hstream.trans ?_
    have hdata : dataTo t.sends address =
        t.calls.flatMap fun c : Call => if c.address = address then c.data else [] := by
      rw [calls, List.flatMap_map]
      rfl
    rw [hdata, hcalls, List.flatMap_map]
    simp [List.flatMap_def]

end Sends

namespace Receiver

/-- **What is delivered.** Payloads without newlines that are sent over one connection, one after
the other, are dispatched one by one, for whatever chunks the stream arrives in, if and only if
there are none.

**Proof sketch.** The stream is the concatenation of the payloads (`Sends.streamTo_eq`), which
has no newline, so no message ends (`delivers_of_notMem`). -/
theorem delivers_iff (valid : String → Bool) {address : String} (hv : valid address = true)
    (port : Fin (2 ^ 16)) {payloads : List Bytes} (hfree : ∀ p ∈ payloads, newline ∉ p)
    {es : List SendEvent} {t : Sends} (h : Sends.run valid es = some t)
    (hok : Run.Along (Sends.step valid) Sends.Orderly Sends.init es)
    (hw : ∀ e ∈ es, Sends.Writes e)
    (hcalls : t.calls = payloads.map fun payload => ⟨address, port, payload⟩)
    (hret : t.AllReturned) {chunks : List Bytes}
    (hchunks : chunks.flatten = t.streamTo address) :
    Delivers payloads chunks ↔ payloads = [] := by
  refine delivers_of_notMem ?_
  rw [hchunks, Sends.streamTo_eq hv h hok hw hcalls hret, List.mem_flatten]
  rintro ⟨p, hp, hmem⟩
  exact hfree p hp hmem

/-- One payload, sent and received in two chunks. -/
theorem delivers_iff_sample : ¬ Delivers [ascii "[7]"] [ascii "[", ascii "7]"] := by
  have hrun : (Sends.run (fun _ => true)
      [.call ⟨"0.0.0.0", 1254, ascii "[7]"⟩, .io 0 .connected, .io 0 (.wrote 3)]).any
        (fun t => decide (t.calls = [⟨"0.0.0.0", 1254, ascii "[7]"⟩] ∧ t.AllReturned ∧
          [ascii "[", ascii "7]"].flatten = t.streamTo "0.0.0.0")) = true := by
    decide +kernel
  obtain ⟨t, ht, hend⟩ := Run.exists_exec_of_any hrun
  obtain ⟨hcalls, hret, hstream⟩ := of_decide_eq_true hend
  have hfree : ∀ p ∈ [ascii "[7]"], newline ∉ p := by decide
  have h := delivers_iff (fun _ => true) rfl 1254 hfree ht (by decide +kernel) (by decide)
    hcalls hret hstream
  exact fun hdelivers => absurd (h.mp hdelivers) (by simp)

/-- One payload is written on its connection, and not delivered. -/
theorem not_delivers :
    ∃ t, Sends.run (fun _ => true)
        [.call ⟨"0.0.0.0", 1254, ascii "[7]"⟩, .io 0 .connected, .io 0 (.wrote 3)] = some t ∧
      t.AllReturned ∧ t.streamTo "0.0.0.0" = ascii "[7]" ∧
      ¬ Delivers [ascii "[7]"] [ascii "[7]"] := by
  have hrun : (Sends.run (fun _ => true)
      [.call ⟨"0.0.0.0", 1254, ascii "[7]"⟩, .io 0 .connected, .io 0 (.wrote 3)]).any
        (fun t => decide (t.AllReturned ∧ t.streamTo "0.0.0.0" = ascii "[7]")) = true := by
    decide +kernel
  obtain ⟨t, ht, hend⟩ := Run.exists_exec_of_any hrun
  obtain ⟨hret, hstream⟩ := of_decide_eq_true hend
  refine ⟨t, ht, hret, hstream, fun hdelivers => ?_⟩
  exact absurd ((delivers_of_notMem (by decide)).mp hdelivers) (by simp)

end Receiver

/-! ## From a client to a receiver -/

/-- A transaction that is decoded has as many bytes as the array had elements. -/
lemma Transaction.exists_of_decode {T : Json.Codec} {message : Bytes} {transaction : Transaction}
    (h : Transaction.decode T message = .ok transaction) :
    ∃ elements, T.parse message = some (.array elements) ∧
      transaction.length = elements.length := by
  unfold Transaction.decode parse at h
  cases hp : T.parse message with
  | none =>
    rw [hp] at h
    cases h
  | some j =>
    rw [hp] at h
    have hget : (j.getVector Json.getUInt8).mapError Exn.json = .ok transaction := h
    cases hj : j.getVector Json.getUInt8 with
    | error x =>
      rw [hj] at hget
      cases hget
    | ok xs =>
      rw [hj] at hget
      obtain rfl := Except.ok.inj hget
      obtain ⟨elements, rfl, hlen⟩ := Json.exists_of_getVector hj
      exact ⟨elements, rfl, hlen⟩

namespace TxReceiverHandler

/-- The transactions after messages were dispatched one after the other. -/
lemma contents_foldl (E : Environment) (messages : List Bytes) (s : TxReceiverHandler) :
    (messages.foldl (fun s message => s.dispatch E message) s).batches.contents =
      s.batches.contents ++ messages.flatMap fun message => decoded E (.dispatch message) := by
  induction messages generalizing s with
  | nil => exact (List.append_nil _).symm
  | cons message messages ih =>
    rw [List.foldl_cons, ih, contents_dispatch, List.flatMap_cons, List.append_assoc]

end TxReceiverHandler

namespace Client

/-- The first transactions of a client. -/
def records (uninitialized : ℕ → Fin 55 → UInt8) (n : ℕ) : List Transaction :=
  (List.range n).map fun i => record i (uninitialized i)

/-- A client writes its transactions one after the other. -/
lemma doSend_eq (uninitialized : ℕ → Fin 55 → UInt8) (n count : ℕ) :
    doSend uninitialized n count =
      (List.range' count (n - count)).flatMap fun i => record i (uninitialized i) := by
  induction count using doSend.induct n with
  | case1 count hle =>
    rw [doSend, if_pos hle, Nat.sub_eq_zero_of_le hle]
    rfl
  | case2 count hlt ih =>
    rw [doSend, if_neg hlt, ih]
    have hsub : n - count = (n - (count + 1)) + 1 := by omega
    rw [hsub, List.range'_succ, List.flatMap_cons]

/-- A transaction has 64 bytes. -/
lemma length_record (count : ℕ) (uninitialized : Fin 55 → UInt8) :
    (record count uninitialized).length = 64 := by
  simp [record]

/-- What has no `NUL` and lies within transactions is shorter than one of them. -/
lemma length_le_of_infix (bodies : List Bytes) {n : ℕ} (hn : ∀ b ∈ bodies, b.length ≤ n)
    {t : Bytes} (ht : (0 : UInt8) ∉ t) (h : t <:+: bodies.flatMap fun b => 0 :: b) :
    t.length ≤ n := by
  -- the part before the first of the transactions is the body of the one before it
  have hbody : ∀ b : Bytes, b.length ≤ n → t <:+: b ++ bodies.flatMap (fun b => 0 :: b) →
      t.length ≤ n := by
    clear h
    induction bodies with
    | nil =>
      intro b hb h
      rw [List.flatMap_nil, List.append_nil] at h
      exact h.length_le.trans hb
    | cons c bodies ih =>
      intro b hb h
      rw [List.flatMap_cons, List.cons_append] at h
      rcases Framing.infix_of_notMem ht h with h | h
      · exact h.length_le.trans hb
      · exact ih (fun d hd => hn d (by simp [hd])) c (hn c (by simp)) h
  exact hbody [] (Nat.zero_le n) h

/-- What is decoded from the stream of a client is shorter than a transaction of the client.

**Proof sketch.** A message lies within the stream, and the text that was parsed within the
message. The text has no `NUL`, so it is shorter than a transaction (`length_le_of_infix`), and
an array of bytes has at most half as many elements as its text is long. -/
lemma length_decoded_lt {T : Json.Codec} (hT : T.Conforms)
    {uninitialized : ℕ → Fin 55 → UInt8} {n : ℕ} {message : Bytes}
    (hmessage : message <:+: doSend uninitialized n 0) {transaction : Transaction}
    (h : Transaction.decode T message = .ok transaction) : transaction.length < 64 := by
  obtain ⟨elements, hparse, hlen⟩ := Transaction.exists_of_decode h
  obtain ⟨text, htext, hnul, hwrites⟩ := hT message _ hparse
  have hlong := hwrites.le_length rfl
  have hinfix := htext.trans hmessage
  rw [doSend_eq, List.flatMap_def] at hinfix
  -- a transaction is a `NUL` and 63 more bytes
  have hrecord : ∀ i, record i (uninitialized i) = 0 :: (record i (uninitialized i)).tail :=
    fun i => rfl
  have hshort : text.length ≤ 63 := by
    refine length_le_of_infix ((List.range' 0 (n - 0)).map fun i =>
      (record i (uninitialized i)).tail) ?_ hnul ?_
    · intro b hb
      obtain ⟨i, -, rfl⟩ := List.mem_map.mp hb
      rw [List.length_tail, length_record]
    · rw [List.flatMap_map, List.flatMap_def]
      exact hinfix
  omega

/-- As soon as there is a transaction, what is decoded is something else. -/
lemma contents_ne_records (E : Environment) (hT : E.codec.Conforms)
    (uninitialized : ℕ → Fin 55 → UInt8) {n : ℕ} (hn : n ≠ 0) {chunks : List Bytes}
    (hchunks : chunks.flatten = doSend uninitialized n 0) :
    (Receiver.handleConnection (fun s message => some (TxReceiverHandler.dispatch E s message))
      TxReceiverHandler.new chunks).batches.contents ≠ records uninitialized n := by
  rw [Receiver.handleConnection_some, TxReceiverHandler.contents_foldl, hchunks]
  intro heq
  -- the first transaction would have been decoded
  have hmem : record 0 (uninitialized 0) ∈ records uninitialized n :=
    List.mem_map.mpr ⟨0, List.mem_range.mpr (Nat.pos_of_ne_zero hn), rfl⟩
  rw [← heq] at hmem
  have hempty : TxReceiverHandler.new.batches.contents = [] := rfl
  rw [hempty, List.nil_append] at hmem
  obtain ⟨message, hmessage, hdecoded⟩ := List.mem_flatMap.mp hmem
  have hinfix := Framing.infix_of_mem_split hmessage
  unfold TxReceiverHandler.decoded at hdecoded
  cases hdecode : Transaction.decode E.codec message with
  | error x => simp [hdecode, Except.toOption] at hdecoded
  | ok transaction =>
    have hlt := length_decoded_lt hT hinfix hdecode
    simp only [hdecode, Except.toOption, Option.toList_some, List.mem_singleton] at hdecoded
    rw [← hdecoded, length_record] at hlt
    exact lt_irrefl _ hlt

/-- **Transactions of a client.** For any number of transactions and whatever chunks their bytes
arrive in, the handler has decoded exactly them, one from each, if and only if there are none. -/
theorem contents_eq_records_iff (E : Environment) (hT : E.codec.Conforms)
    (uninitialized : ℕ → Fin 55 → UInt8) (n : ℕ) {chunks : List Bytes}
    (hchunks : chunks.flatten = doSend uninitialized n 0) :
    (Receiver.handleConnection (fun s message => some (TxReceiverHandler.dispatch E s message))
      TxReceiverHandler.new chunks).batches.contents = records uninitialized n ↔ n = 0 := by
  constructor
  · intro heq
    by_contra hn
    exact contents_ne_records E hT uninitialized hn hchunks heq
  · rintro rfl
    rw [Receiver.handleConnection_some, hchunks, doSend, if_pos (Nat.zero_le 0)]
    rfl

/-- A library that reads one text, and the newline after it. -/
lemma conforms_line : TxReceiverHandler.lineEnvironment.codec.Conforms := by
  intro s j h
  unfold TxReceiverHandler.lineEnvironment at h
  dsimp only at h
  split_ifs at h with hs
  rw [← Option.some.inj h, hs]
  refine ⟨ascii "[7]", ⟨[], [10], by decide⟩, by decide, ?_⟩
  have hseven : Json.Writes (ascii "7") (.unsigned 7) := .token (by decide) (by simp)
  exact .array (.cons hseven .nil)

/-- Bytes that were never written and hold the text `[7]`, between newlines, eleven times. -/
def padding : ℕ → Fin 55 → UInt8 := fun _ i => (ascii "\n[7]\n").getD (i.val % 5) 0

/-- What the handler has decoded from a connection, with this library. -/
def lines (chunks : List Bytes) : List Transaction :=
  (Receiver.handleConnection (fun s message =>
      some (TxReceiverHandler.dispatch TxReceiverHandler.lineEnvironment s message))
    TxReceiverHandler.new chunks).batches.contents

/-- Without transactions nothing is decoded. From two, whose bytes arrive in two pieces, the handler
decodes twenty-two that the client did not make. -/
theorem contents_eq_records_iff_padding :
    lines [doSend padding 0 0] = records padding 0 ∧
    lines [(doSend padding 2 0).take 70, (doSend padding 2 0).drop 70] = List.replicate 22 [7] ∧
    lines [(doSend padding 2 0).take 70, (doSend padding 2 0).drop 70] ≠ records padding 2 := by
  have hnone : [doSend padding 0 0].flatten = doSend padding 0 0 := List.append_nil _
  have htwo : [(doSend padding 2 0).take 70, (doSend padding 2 0).drop 70].flatten =
      doSend padding 2 0 := by simp
  refine ⟨(contents_eq_records_iff _ conforms_line padding 0 hnone).mpr rfl, ?_, fun heq => ?_⟩
  · rw [lines, Receiver.handleConnection_some, TxReceiverHandler.contents_foldl, htwo, doSend_eq]
    decide +kernel
  · exact absurd ((contents_eq_records_iff _ conforms_line padding 2 htwo).mp heq) (by decide)

/-- One transaction, which holds newlines, is not decoded. -/
theorem not_contents_eq_records :
    lines [doSend (fun _ _ => 10) 1 0] ≠ records (fun _ _ => 10) 1 :=
  contents_ne_records _ conforms_line (fun _ _ => 10) one_ne_zero (List.append_nil _)

end Client

end DagRider
