import DagRider.Lib.Decimal
import DagRider.Transport.Blocks
import DagRider.Transport.Clients
import DagRider.Transport.Turns

set_option relaxedAutoImplicit false
set_option autoImplicit false

/-!
# From clients to the receivers of blocks

Between the two ends of a broadcast: what the makers of blocks write, on whatever sockets and in
whatever pieces, are bytes of the blocks and nothing else. The text of a block has no newline, so
that a receiver of blocks waits for one forever.

## Main definitions

* `DagRider.Broadcaster.Writes`, `DagRider.Broadcasting.Writes` — which bytes are written.
* `DagRider.Feeds` — a receiver reads what was written on some sockets.

## Main results

* `DagRider.TxReceiverHandler.writes`, `DagRider.BlockBuilder.writes` — what the two makers of
  blocks write.
* `DagRider.BlockReceiverHandler.no_block_arrives` — no block is ever received.
-/

namespace DagRider

variable {Q : UInt8 → Prop} {valid : String → Bool} {b b' : Broadcaster}

/-! ## Which bytes are written -/

/-- All bytes on the sockets have the property. -/
def Broadcaster.Writes (Q : UInt8 → Prop) (b : Broadcaster) : Prop :=
  ∀ sock ∈ b.sockets, ∀ x ∈ sock.stream, Q x

/-- All bytes that the loop over the endpoints has still to write have the property. -/
def Broadcasting.Writes (Q : UInt8 → Prop) (w : Broadcasting) : Prop :=
  (∀ x ∈ w.data, Q x) ∧ ∀ x ∈ w.send.rest, Q x

namespace Broadcaster

/-- Nothing is written at first. -/
lemma writes_new : Writes Q new := fun _ hsock => absurd hsock List.not_mem_nil

/-- A call that starts writes nothing yet. -/
lemma Writes.send (h : b.Writes Q) {c : Call} (hdata : ∀ x ∈ c.data, Q x) {send : Send}
    (hsend : b.send valid c.address c.port c.data = (b', send)) :
    b'.Writes Q ∧ ∀ x ∈ send.rest, Q x := by
  constructor
  · intro sock hsock
    obtain ⟨j, hj⟩ := List.mem_iff_getElem?.mp hsock
    rcases send_sockets hsend hj with hold | ⟨-, -, rfl, -⟩
    · exact h sock (List.mem_of_getElem? hold)
    · simp
  · rcases send_started hsend with ⟨k, rfl⟩ | ⟨k, rfl, -⟩ | ⟨rfl, -⟩
    · exact hdata
    · exact hdata
    · simp [Send.rest]

/-- A call that goes on writes some of what it has to write. -/
lemma Writes.resume (h : b.Writes Q) {send send' : Send} (hrest : ∀ x ∈ send.rest, Q x)
    {r : IoResult} (hresume : b.resume send r = some (b', send')) :
    b'.Writes Q ∧ ∀ x ∈ send'.rest, Q x := by
  -- a socket that is written to
  have hmodify : ∀ (k : ℕ) (f : Socket → Socket) (part : Bytes), (∀ x ∈ part, Q x) →
      (∀ s, (f s).stream = s.stream ++ part) → (b.modify k f).Writes Q := by
    intro k f part hpart hf sock hsock x hx
    obtain ⟨j, hj⟩ := List.mem_iff_getElem?.mp hsock
    obtain ⟨old, hold, ⟨-, rfl⟩ | ⟨-, rfl⟩⟩ := sockets_modify hj
    · rw [hf, List.mem_append] at hx
      exact hx.elim (h old (List.mem_of_getElem? hold) x) (hpart x)
    · exact h sock (List.mem_of_getElem? hold) x hx
  cases resume_cases hresume with
  | connected k data => exact ⟨hmodify k _ [] (by simp) (by simp), hrest⟩
  | connectFailed k data => exact ⟨h, by simp [Send.rest]⟩
  | finished k rest s hs hc => exact ⟨hmodify k _ rest hrest fun _ => rfl, by simp [Send.rest]⟩
  | wrote k part rest s hs hc hpart hne =>
    refine ⟨hmodify k _ part (fun x hx => hrest x ?_) fun _ => rfl, fun x hx => hrest x ?_⟩
    · exact List.mem_append_left _ hx
    · exact List.mem_append_right _ hx
  | writeFailed k rest => exact ⟨h, by simp [Send.rest]⟩

/-- The loop over the endpoints writes bytes of the data. -/
lemma Writes.broadcast {data : Bytes} (hdata : ∀ x ∈ data, Q x) {endpoints : List Endpoint}
    (h : b.Writes Q) {w : Option Broadcasting}
    (hloop : DagRider.broadcast valid data b endpoints = (b', w)) :
    b'.Writes Q ∧ ∀ v ∈ w, v.Writes Q := by
  induction endpoints generalizing b with
  | nil =>
    cases hloop
    exact ⟨h, by simp⟩
  | cons endpoint endpoints ih =>
    rw [DagRider.broadcast] at hloop
    cases hsend : b.send valid endpoint.addressToString endpoint.port data with
    | mk b₁ send =>
      obtain ⟨h₁, hrest⟩ := h.send (c := endpoint.call data) hdata hsend
      rw [hsend] at hloop
      dsimp only at hloop
      split_ifs at hloop with hret
      · exact ih h₁ hloop
      · cases hloop
        refine ⟨h₁, fun v hv => ?_⟩
        obtain rfl := Option.mem_some_iff.mp hv
        exact ⟨hdata, hrest⟩

end Broadcaster

/-- The loop over the endpoints goes on with bytes of the data. -/
lemma Broadcasting.Writes.resume {w : Broadcasting} (hw : w.Writes Q) (h : b.Writes Q)
    {r : IoResult} {w' : Option Broadcasting} (hresume : w.resume valid b r = some (b', w')) :
    b'.Writes Q ∧ ∀ v ∈ w', v.Writes Q := by
  simp only [Broadcasting.resume, Option.bind_eq_bind] at hresume
  obtain ⟨⟨b₁, send⟩, hsend, hloop⟩ := Option.bind_eq_some_iff.mp hresume
  obtain ⟨h₁, hrest⟩ := h.resume hw.2 hsend
  dsimp only at hloop
  split_ifs at hloop with hret
  · exact h₁.broadcast hw.1 (Option.some.inj hloop)
  · cases hloop
    refine ⟨h₁, fun v hv => ?_⟩
    obtain rfl := Option.mem_some_iff.mp hv
    exact ⟨hw.1, hrest⟩

/-! ## The two makers of blocks -/

/-- All bytes of the texts of blocks have the property. -/
def Environment.Prints (Q : UInt8 → Prop) (E : Environment) : Prop :=
  ∀ block : Block, ∀ x ∈ E.codec.dump block.toJson, Q x

variable {E : Environment}

namespace TxReceiverHandler

variable {s t : TxReceiverHandler}

/-- All bytes that calls of `dispatch` have written, or have still to write, have the property. -/
def Writes (Q : UInt8 → Prop) (s : TxReceiverHandler) : Prop :=
  ∀ p ∈ s.dispatches, p.1.Writes Q ∧ ∀ w ∈ p.2, w.Writes Q

/-- A call of `dispatch` writes a block, if anything. -/
lemma Writes.dispatch (hE : E.Prints Q) (h : s.Writes Q) (message : Bytes) :
    (s.dispatch E message).Writes Q := by
  have hquiet : ∀ batches, Writes Q ⟨batches, s.dispatches ++ [(Broadcaster.new, none)]⟩ := by
    intro batches p hp
    rcases List.mem_append.mp hp with hp | hp
    · exact h p hp
    · rw [List.mem_singleton.mp hp]
      exact ⟨Broadcaster.writes_new, by simp⟩
  unfold TxReceiverHandler.dispatch
  cases Transaction.decode E.codec message with
  | error e => exact hquiet _
  | ok transaction =>
    dsimp only
    cases s.batches.push E.digest transaction with
    | mk batches block =>
      cases block with
      | none => exact hquiet _
      | some block =>
        intro p hp
        rcases List.mem_append.mp hp with hp | hp
        · exact h p hp
        · rw [List.mem_singleton.mp hp]
          exact Broadcaster.writes_new.broadcast (hE block) rfl

/-- **What a receiver of transactions writes** are bytes of blocks. -/
theorem writes (hE : E.Prints Q) {es : List (Receiver.Event IoResult)}
    {s : Receiver TxReceiverHandler ℕ}
    (h : Run.exec (Receiver.step (handler E)) (Receiver.start new) es = some s) :
    s.handler.Writes Q := by
  refine Run.invariant (I := fun s : TxReceiverHandler => s.Writes Q) ?_
    (fun p hp => absurd hp List.not_mem_nil) (Receiver.handler_run h)
  intro s e t hs hstep
  cases e with
  | call i message =>
    obtain rfl := Option.some.inj hstep
    exact hs.dispatch hE message
  | resumed k r =>
    obtain ⟨⟨_, d⟩, hresume, rfl⟩ := Option.map_eq_some_iff.mp hstep
    obtain ⟨t', hio, heq⟩ := Option.map_eq_some_iff.mp hresume
    obtain rfl : t' = _ := congrArg Prod.fst heq
    simp only [TxReceiverHandler.step, Option.bind_eq_bind] at hio
    obtain ⟨⟨b, w⟩, hk, hio⟩ := Option.bind_eq_some_iff.mp hio
    obtain ⟨v, rfl, hio⟩ := Option.bind_eq_some_iff.mp hio
    obtain ⟨⟨b', w'⟩, hw, hio⟩ := Option.bind_eq_some_iff.mp hio
    obtain rfl := Option.some.inj hio
    intro p hp
    rcases List.mem_or_eq_of_mem_set hp with hp | rfl
    · exact hs p hp
    · obtain ⟨hb, hwrites⟩ := hs (b, some v) (List.mem_of_getElem? hk)
      exact (hwrites v rfl).resume hb hw

end TxReceiverHandler

namespace BlockBuilder

variable {s t : BlockBuilder}

/-- All bytes that the loop and the calls have written, or have still to write, have the
property. -/
structure Writes (Q : UInt8 → Prop) (s : BlockBuilder) : Prop where
  network : s.network.Writes Q
  loop : ∀ w, s.loop = .suspended w → w.Writes Q
  calls : ∀ w ∈ s.calls, ∀ v ∈ w, v.Writes Q

/-- A call of `handle_transaction` writes a block, if anything. -/
lemma Writes.handleTransaction (hE : E.Prints Q) (h : s.Writes Q) (transaction : Transaction) :
    (s.handleTransaction E transaction).1.Writes Q ∧
      ∀ w ∈ (s.handleTransaction E transaction).2, w.Writes Q := by
  unfold BlockBuilder.handleTransaction
  cases s.batches.push E.digest transaction with
  | mk batches block =>
    cases block with
    | none => exact ⟨⟨h.network, h.loop, h.calls⟩, by simp⟩
    | some block =>
      dsimp only
      cases hloop : broadcast E.valid (E.codec.dump block.toJson) s.network
          E.committee.getBlockReceiverAddresses with
      | mk network w =>
        obtain ⟨hnetwork, hw⟩ := h.network.broadcast (hE block) hloop
        exact ⟨⟨hnetwork, h.loop, h.calls⟩, hw⟩

/-- **What a builder writes** are bytes of blocks. -/
theorem writes (hE : E.Prints Q) {es : List Event}
    (h : Run.exec (step E) spawn es = some s) : s.Writes Q := by
  refine Run.invariant (I := fun s : BlockBuilder => s.Writes Q) ?_
    ⟨Broadcaster.writes_new, fun w hw => RunLoop.noConfusion hw,
      fun w hw => absurd hw List.not_mem_nil⟩ h
  intro s e t hs hstep
  cases e with
  | start =>
    simp only [step] at hstep
    split at hstep
    · obtain rfl := Option.some.inj hstep
      exact ⟨hs.network, fun w hw => RunLoop.noConfusion hw, hs.calls⟩
    all_goals cases hstep
  | turn =>
    simp only [step] at hstep
    split at hstep
    · obtain rfl := Option.some.inj hstep
      obtain ⟨h', hw⟩ := hs.handleTransaction hE []
      refine ⟨h'.network, fun w hloop => hw w ?_, h'.calls⟩
      cases hcall : (s.handleTransaction E []).2 with
      | none => simp [hcall, RunLoop.ofCall] at hloop
      | some v => simpa [hcall, RunLoop.ofCall] using hloop
    all_goals cases hstep
  | submit transaction =>
    simp only [step] at hstep
    split at hstep
    · cases hstep
    all_goals
      obtain rfl := Option.some.inj hstep
      obtain ⟨h', hw⟩ := hs.handleTransaction hE transaction
      refine ⟨h'.network, h'.loop, fun w hmem => ?_⟩
      rcases List.mem_append.mp hmem with hmem | hmem
      · exact hs.calls w hmem
      · rw [List.mem_singleton.mp hmem]
        exact hw
  | ioLoop result =>
    simp only [step] at hstep
    split at hstep
    · rename_i w hloop
      obtain ⟨⟨network, w'⟩, hw, hstep⟩ := Option.bind_eq_some_iff.mp hstep
      obtain rfl := Option.some.inj hstep
      obtain ⟨hnetwork, hrest⟩ := (hs.loop w hloop).resume hs.network hw
      refine ⟨hnetwork, fun v hv => hrest v ?_, hs.calls⟩
      cases w' with
      | none => simp [RunLoop.ofCall] at hv
      | some v' => simpa [RunLoop.ofCall] using hv
    all_goals cases hstep
  | io i result =>
    simp only [step] at hstep
    split at hstep
    · cases hstep
    all_goals
      simp only [Option.bind_eq_bind] at hstep
      obtain ⟨w, hi, hcall⟩ := Option.bind_eq_some_iff.mp hstep
      obtain ⟨v, rfl, hgo⟩ := Option.bind_eq_some_iff.mp hcall
      obtain ⟨⟨network, w'⟩, hw, hnext⟩ := Option.bind_eq_some_iff.mp hgo
      obtain rfl := Option.some.inj hnext
      obtain ⟨hnetwork, hrest⟩ :=
        (hs.calls (some v) (List.mem_of_getElem? hi) v rfl).resume hs.network hw
      refine ⟨hnetwork, hs.loop, fun u hu => ?_⟩
      rcases List.mem_or_eq_of_mem_set hu with hu | rfl
      · exact hs.calls u hu
      · exact hrest

end BlockBuilder

/-! ## The receivers of blocks -/

/-- The sockets of all runs of receivers of transactions and of builders. -/
inductive Environment.Opens (E : Environment) : Socket → Prop
  | transactions {es : List (Receiver.Event IoResult)} {s : Receiver TxReceiverHandler ℕ}
      {p : Broadcaster × Option Broadcasting} {sock : Socket}
      (h : Run.exec (Receiver.step (TxReceiverHandler.handler E))
        (Receiver.start TxReceiverHandler.new) es = some s)
      (hp : p ∈ s.handler.dispatches) (hsock : sock ∈ p.1.sockets) : E.Opens sock
  | builder {es : List BlockBuilder.Event} {s : BlockBuilder} {sock : Socket}
      (h : Run.exec (BlockBuilder.step E) BlockBuilder.spawn es = some s)
      (hsock : sock ∈ s.network.sockets) : E.Opens sock

/-- Only bytes of blocks are written on these sockets. -/
lemma Environment.Opens.stream (hE : E.Prints Q) {sock : Socket} (h : E.Opens sock) :
    ∀ x ∈ sock.stream, Q x := by
  cases h with
  | transactions h hp hsock => exact (TxReceiverHandler.writes hE h _ hp).1 _ hsock
  | builder h hsock => exact (BlockBuilder.writes hE h).network _ hsock

namespace BlockReceiverHandler

/-- **No block is ever received.** Let a receiver of blocks have any number of connections, each
with a beginning of what some receiver of transactions or some builder has written on one of its
sockets, in whatever runs these are, whatever the clients send, and however the bytes are cut and
interleaved. Then it never dispatches anything: its handler gets no block, and every connection
holds all that has arrived. The library prints blocks without a newline, as it does by default.

**Proof sketch.** What is written on a socket are bytes of blocks, through all suspensions of the
broadcasts (`TxReceiverHandler.writes`, `BlockBuilder.writes`). So no stream has a segment
(`Receiver.part_append`). -/
theorem no_block_arrives (hline : ∀ block : Block, Receiver.newline ∉ E.codec.dump block.toJson)
    {es : List (Receiver.Event Empty)} {s : Receiver (List Block) Empty}
    (h : Run.exec (Receiver.step (handler E.codec)) (Receiver.start []) es = some s)
    (hfed : ∀ i, Receiver.arrived i es ≠ [] →
      ∃ sock, E.Opens sock ∧ Receiver.arrived i es <+: sock.stream) :
    s.handler = [] ∧ Receiver.log (handler E.codec) [] es = [] ∧
      ∀ i, s.data i = Receiver.arrived i es := by
  have hE : E.Prints (· ≠ Receiver.newline) := fun block x hx hnewline =>
    hline block (hnewline ▸ hx)
  have hnone : ∀ i, Receiver.newline ∉ Receiver.arrived i es := by
    intro i hi
    obtain ⟨sock, hopens, hpre⟩ := hfed i (List.ne_nil_of_mem hi)
    exact hopens.stream hE _ (hpre.subset hi) rfl
  have hpart : ∀ i, Merge.part i (Receiver.log (handler E.codec) [] es) = [] := by
    intro i
    have happ := Receiver.part_append h i
    rw [Framing.split_of_notMem (hnone i)] at happ
    exact (List.append_eq_nil_iff.mp happ).1
  have hlog : Receiver.log (handler E.codec) [] es = [] := by
    refine List.eq_nil_iff_forall_not_mem.mpr fun p hp => ?_
    have hmem : p.2 ∈ Merge.part p.1 (Receiver.log (handler E.codec) [] es) := by
      simpa [Merge.part] using hp
    rw [hpart] at hmem
    exact absurd hmem List.not_mem_nil
  refine ⟨?_, hlog, fun i => ?_⟩
  · rw [blocks_of_exec (Receiver.handler_run h)]
    exact congrArg (fun calls : List (ℕ × Bytes) => blocks E.codec (calls.map Prod.snd)) hlog
  · have htaken := (Receiver.taken h i).stream_eq
    rw [hpart i] at htaken
    exact htaken.symm

/-- A byte that is no comma and in none of the texts is not in their list. -/
lemma notMem_commas {x : UInt8} (hx : x ≠ 44) {texts : List Bytes} (h : ∀ text ∈ texts, x ∉ text) :
    x ∉ Json.commas texts := by
  induction texts with
  | nil => simp [Json.commas]
  | cons text texts ih =>
    have hrest := ih fun t ht => h t (List.mem_cons_of_mem text ht)
    have hcomma : x ∉ ascii "," := by simpa [ascii] using hx
    cases texts with
    | nil => exact h text List.mem_cons_self
    | cons text' texts =>
      simp only [Json.commas, List.mem_append, not_or]
      exact ⟨⟨h text List.mem_cons_self, hcomma⟩, hrest⟩

/-- Elements are printed one by one. -/
lemma printElements_eq (js : List Json) : Sample.printElements js = js.map Sample.print := by
  induction js with
  | nil => rfl
  | cons j js ih => rw [Sample.printElements, ih, List.map_cons]

/-- A newline is not in the text of an array, if it is in no element. -/
lemma notMem_print_array {js : List Json} (h : ∀ j ∈ js, Receiver.newline ∉ Sample.print j) :
    Receiver.newline ∉ Sample.print (.array js) := by
  have hcommas : Receiver.newline ∉ Json.commas (js.map Sample.print) := by
    refine notMem_commas (by decide) fun text htext => ?_
    obtain ⟨j, hj, rfl⟩ := List.mem_map.mp htext
    exact h j hj
  rw [Sample.print, printElements_eq]
  simp only [List.mem_append, not_or]
  exact ⟨⟨by decide, hcommas⟩, by decide⟩

/-- A newline is not in the text of bytes. -/
lemma notMem_print_ofBytes (bytes : Bytes) :
    Receiver.newline ∉ Sample.print (.ofBytes bytes) := by
  refine notMem_print_array fun j hj => ?_
  obtain ⟨x, -, rfl⟩ := List.mem_map.mp hj
  exact Decimal.notMem_print (n := x.toNat) (by decide)

/-- A newline is not in the text of a block. -/
lemma notMem_print_block (block : Block) : Receiver.newline ∉ Sample.print block.toJson := by
  have htransactions : Receiver.newline ∉
      Sample.print (.array (block.transactions.map .ofBytes)) := by
    refine notMem_print_array fun j hj => ?_
    obtain ⟨transaction, -, rfl⟩ := List.mem_map.mp hj
    exact notMem_print_ofBytes transaction
  have hhash := notMem_print_ofBytes (Bytes32.toBytes block.hash)
  have hmembers : Receiver.newline ∉ Json.commas (Sample.printMembers [
      (ascii "hash", .ofBytes (Bytes32.toBytes block.hash)),
      (ascii "transactions", .array (block.transactions.map .ofBytes))]) := by
    refine notMem_commas (by decide) fun text htext => ?_
    simp only [Sample.printMembers, List.mem_cons, List.not_mem_nil, or_false] at htext
    rcases htext with rfl | rfl
    · exact List.mem_append.not.mpr (not_or.mpr ⟨by decide, hhash⟩)
    · exact List.mem_append.not.mpr (not_or.mpr ⟨by decide, htransactions⟩)
  unfold Block.toJson
  rw [Sample.print]
  simp only [List.mem_append, not_or]
  exact ⟨⟨by decide, hmembers⟩, by decide⟩

/-- A client sends four transactions, and five bytes of the block are written. -/
def fourTransactions : List (Receiver.Event IoResult) :=
  [.accept, .receive 0 (ascii "[7]\n[7]\n[7]\n[7]\n"), .turn 0, .turn 0, .turn 0, .turn 0,
    .resume 0 .connected, .resume 0 (.wrote 5)]

/-- These bytes arrive in two pieces. -/
def fiveBytes : List (Receiver.Event Empty) :=
  [.accept, .receive 0 (ascii "\x7b\"h"), .receive 0 (ascii "as")]

/-- They wait in the buffer of the receiver of blocks. -/
theorem no_block_arrives_five :
    ∃ s t, Run.exec (Receiver.step (TxReceiverHandler.handler TxReceiverHandler.lineEnvironment))
        (Receiver.start TxReceiverHandler.new) fourTransactions = some s ∧
      s.handler.batches.blocks.length = 1 ∧
      Run.exec (Receiver.step (handler TxReceiverHandler.lineEnvironment.codec))
        (Receiver.start []) fiveBytes = some t ∧
      t.handler = [] ∧ t.data 0 = ascii "\x7b\"has" := by
  have hrun : (Run.exec (Receiver.step (TxReceiverHandler.handler
      TxReceiverHandler.lineEnvironment)) (Receiver.start TxReceiverHandler.new)
      fourTransactions).any (fun s => decide (s.handler.batches.blocks.length = 1 ∧
        ∃ p ∈ s.handler.dispatches, ∃ sock ∈ p.1.sockets,
          sock.stream = ascii "\x7b\"has")) = true := by
    decide +kernel
  obtain ⟨s, hs, hend⟩ := Run.exists_exec_of_any hrun
  obtain ⟨hblocks, p, hp, sock, hsock, hstream⟩ := of_decide_eq_true hend
  obtain ⟨t, ht, -⟩ : ∃ t, Run.exec (Receiver.step
      (handler TxReceiverHandler.lineEnvironment.codec)) (Receiver.start []) fiveBytes = some t ∧
      true = true := Run.exists_exec_of_any (by decide +kernel)
  have harrived : ∀ i, Receiver.arrived i fiveBytes ≠ [] →
      ∃ sock, TxReceiverHandler.lineEnvironment.Opens sock ∧
        Receiver.arrived i fiveBytes <+: sock.stream := by
    intro i hi
    cases i with
    | zero =>
      refine ⟨sock, .transactions hs hp hsock, ?_⟩
      rw [hstream]
      decide
    | succ i => simp [Receiver.arrived, fiveBytes] at hi
  obtain ⟨hnone, -, hdata⟩ := no_block_arrives (fun block => notMem_print_block block) ht harrived
  exact ⟨s, t, hs, hblocks, ht, hnone, (hdata 0).trans (by decide)⟩

end BlockReceiverHandler

end DagRider
