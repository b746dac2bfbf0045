import DagRider.Model.Coordinator
import DagRider.Transport.Serving

set_option relaxedAutoImplicit false
set_option autoImplicit false

/-!
# Blocks on the wire

Unlike a vertex, a block survives its own encoding. So a receiver of blocks gets what its peers
send, if they end their messages with a newline.

## Main results

* `DagRider.Block.fromJson_toJson` — the round trip.
* `DagRider.BlockReceiverHandler.blocks_received` — blocks of any number of peers arrive.
-/

namespace DagRider

/-! ## The round trip -/

namespace Block

/-- A list of values is read back, if each is. -/
lemma getVector_array {α : Type} {get : Json → Except Json.Error α} {put : α → Json}
    (h : ∀ a, get (put a) = .ok a) (as : List α) :
    (Json.array (as.map put)).getVector get = .ok as := by
  show (as.map put).mapM get = .ok as
  induction as with
  | nil => rfl
  | cons a as ih =>
    rw [List.map_cons, List.mapM_cons, h a, ih]
    rfl

/-- Bytes are read back. -/
lemma getVector_ofBytes (bytes : Bytes) :
    (Json.ofBytes bytes).getVector Json.getUInt8 = .ok bytes :=
  getVector_array (fun b => by simp [Json.getUInt8]) bytes

/-- **A block survives its encoding.** -/
theorem fromJson_toJson (block : Block) : fromJson block.toJson = .ok block := by
  have hhash : block.toJson.at' "hash" = .ok (.ofBytes (Bytes32.toBytes block.hash)) := rfl
  have htransactions : block.toJson.at' "transactions" =
      .ok (.array (block.transactions.map .ofBytes)) := rfl
  have hbytes : (Json.ofBytes (Bytes32.toBytes block.hash)).getArray 32 =
      .ok (Bytes32.toBytes block.hash) := by
    have hread := Json.getArray_ofBytes (Bytes32.toBytes block.hash)
    rwa [Bytes32.length_toBytes] at hread
  unfold fromJson
  rw [hhash, htransactions]
  show (do
    let hash ← (Json.ofBytes (Bytes32.toBytes block.hash)).getArray 32
    let transactions ← (Json.array (block.transactions.map .ofBytes)).getVector
      (Json.getVector Json.getUInt8)
    return (⟨transactions, Bytes32.ofBytes hash⟩ : Block)) = Except.ok block
  rw [hbytes, getVector_array getVector_ofBytes]
  show Except.ok (⟨block.transactions, Bytes32.ofBytes (Bytes32.toBytes block.hash)⟩ : Block) = _
  rw [Bytes32.ofBytes_toBytes]

end Block

/-! ## The receiver of blocks -/

namespace BlockReceiverHandler

variable {T : Json.Codec}

/-- The blocks among some messages, one from each that is decoded. -/
def blocks (T : Json.Codec) (messages : List Bytes) : List Block :=
  messages.flatMap fun message => (Block.decode T message).toOption.toList

/-- What a peer writes for a block: its text, and a newline. -/
def line (T : Json.Codec) (block : Block) : Bytes := T.dump block.toJson ++ [Receiver.newline]

/-- **The blocks of a run** of the handler: what its calls have brought. -/
lemma blocks_of_exec {fs : List (Handler.Event Empty Empty)} {t : List Block}
    (h : Run.exec (handler T).step [] fs = some t) :
    t = blocks T ((Handler.calls fs).map Prod.snd) := by
  refine Run.history_induction (J := fun fs t => t = blocks T ((Handler.calls fs).map Prod.snd))
    rfl (fun p t e u _ ht hu => ?_) h
  cases e with
  | resumed k r => exact k.elim
  | call i message =>
    have hcalls : blocks T ((Handler.calls (p ++ [.call i message])).map Prod.snd) =
        blocks T ((Handler.calls p).map Prod.snd) ++
          (Block.decode T message).toOption.toList := by
      simp [blocks, Handler.calls]
    rw [hcalls, ← ht]
    have hu : ((handler T).dispatch t i message).1 = u := Option.some.inj hu
    rw [← hu]
    simp only [handler]
    cases Block.decode T message <;> simp [Except.toOption]

/-- The handler catches all exceptions. -/
lemma catches (T : Json.Codec) : (handler T).Catches where
  dispatch s i message := by
    simp only [handler]
    cases Block.decode T message <;> simp [Dispatch.place]
  resume := fun {_ k _ _ _} _ => k.elim

/-- The lines of some blocks split into them, and are decoded to the blocks. -/
lemma split_lines {bs : List Block} (hline : ∀ b ∈ bs, Receiver.newline ∉ T.dump b.toJson) :
    (Framing.split Receiver.newline (bs.flatMap (line T))).1 = bs.map (line T) := by
  have hsplit : Framing.IsSplit Receiver.newline (bs.flatMap (line T)) (bs.map (line T)) [] := by
    refine ⟨by rw [List.append_nil, List.flatMap_def], fun m hm => ?_, List.not_mem_nil⟩
    obtain ⟨b, hb, rfl⟩ := List.mem_map.mp hm
    exact ⟨T.dump b.toJson, hline b hb, rfl⟩
  rw [Framing.isSplit_iff.mp hsplit]

/-- A line is decoded to its block. -/
lemma decode_line {b : Block} (hparse : T.parse (line T b) = some b.toJson) :
    Block.decode T (line T b) = .ok b := by
  unfold Block.decode parse
  rw [hparse]
  show (Block.fromJson b.toJson).mapError Exn.json = _
  rw [Block.fromJson_toJson]
  rfl

/-- The lines of some blocks are decoded to the blocks. -/
lemma blocks_lines {bs : List Block} (hparse : ∀ b ∈ bs, T.parse (line T b) = some b.toJson) :
    blocks T (bs.map (line T)) = bs := by
  induction bs with
  | nil => rfl
  | cons b bs ih =>
    have hbs := ih fun b' hb' => hparse b' (List.mem_cons_of_mem b hb')
    simp only [blocks, List.map_cons, List.flatMap_cons] at hbs ⊢
    rw [hbs, decode_line (hparse b List.mem_cons_self)]
    rfl

/-- **Blocks of any number of peers.** Let the peers of a receiver of blocks send lists of blocks,
each as a line, of which some beginning has arrived on each connection, in whatever chunks and
interleaving. Then the handler has got, from each peer, the first of its blocks, in their order and
unchanged, and nothing else; and when all has arrived and the receiver is quiet, it has got all
blocks of all peers, each once. The library reads a value from its text and a newline, and prints
blocks without one.

**Proof sketch.** Each connection dispatches the first segments of its stream (`Receiver.taken`),
which are the first lines (`split_lines`), and each is decoded to its block (`blocks_lines`,
`Block.fromJson_toJson`). -/
theorem blocks_received {sent : ℕ → List Block}
    (hparse : ∀ i, ∀ b ∈ sent i, T.parse (line T b) = some b.toJson)
    (hline : ∀ i, ∀ b ∈ sent i, Receiver.newline ∉ T.dump b.toJson)
    {es : List (Receiver.Event Empty)} {s : Receiver (List Block) Empty}
    (h : Run.exec (Receiver.step (handler T)) (Receiver.start []) es = some s)
    (hsent : ∀ i, Receiver.arrived i es <+: (sent i).flatMap (line T)) :
    s.handler = blocks T ((Receiver.log (handler T) [] es).map Prod.snd) ∧
      (∀ i, blocks T (Merge.part i (Receiver.log (handler T) [] es)) <+: sent i) ∧
      (s.Quiet → (∀ i, Receiver.arrived i es = (sent i).flatMap (line T)) →
        (∀ i, blocks T (Merge.part i (Receiver.log (handler T) [] es)) = sent i) ∧
          s.handler.Perm ((List.range s.connections.length).flatMap sent)) := by
  have hblocks := blocks_of_exec (Receiver.handler_run h)
  refine ⟨hblocks, fun i => ?_, fun hquiet hall => ?_⟩
  · have hfirst : Merge.part i (Receiver.log (handler T) [] es) <+: (sent i).map (line T) := by
      rw [← split_lines (hline i)]
      refine List.IsPrefix.trans ?_ (Framing.split_prefix (hsent i))
      rw [← Receiver.part_append h i]
      exact List.prefix_append _ _
    obtain ⟨later, hlater⟩ := hfirst
    refine ⟨blocks T later, ?_⟩
    rw [← blocks_lines (hparse i), ← hlater]
    exact List.flatMap_append.symm
  · have hparts : ∀ i, blocks T (Merge.part i (Receiver.log (handler T) [] es)) = sent i := by
      intro i
      rw [Receiver.part_eq_of_quiet (catches T) h hquiet i, hall i,
        split_lines (hline i), blocks_lines (hparse i)]
    refine ⟨hparts, ?_⟩
    have hperm : (blocks T ((Receiver.log (handler T) [] es).map Prod.snd)).Perm
        ((List.range s.connections.length).flatMap fun i =>
          blocks T (Merge.part i (Receiver.log (handler T) [] es))) := by
      unfold blocks
      rw [List.flatMap_map]
      exact Merge.perm_parts List.nodup_range
        (fun message => (Block.decode T message).toOption.toList)
        fun p hp => List.mem_range.mpr (Receiver.lt_of_mem_log h hp)
    simp only [hparts] at hperm
    rw [hblocks]
    exact hperm

/-- A block of two transactions, and an empty one. -/
def sampleBlocks : List Block := [⟨[[1, 2], [3]], 7⟩, ⟨[], 8⟩]

/-- A library that reads the lines of the two blocks. -/
def sampleCodec : Json.Codec :=
  ⟨Sample.print, fun text =>
    (sampleBlocks.map Block.toJson).find? fun j => Sample.print j ++ [Receiver.newline] = text⟩

/-- Two peers that send a block each, in pieces. -/
def sampleEvents : List (Receiver.Event Empty) :=
  let line (i : ℕ) := (sampleBlocks[i]?.map (line sampleCodec)).getD []
  [.accept, .accept, .receive 1 ((line 1).take 9), .receive 0 (line 0), .turn 0,
    .receive 1 ((line 1).drop 9), .turn 1]

/-- The receiver gets the two blocks. -/
theorem blocks_received_sample :
    ∃ s, Run.exec (Receiver.step (handler sampleCodec)) (Receiver.start []) sampleEvents = some s ∧
      s.handler.Perm sampleBlocks := by
  have hrun : (Run.exec (Receiver.step (handler sampleCodec)) (Receiver.start [])
      sampleEvents).any (fun s => decide (∀ c ∈ s.connections, c.Waits) &&
        decide (s.connections.length = 2)) = true := by
    decide +kernel
  obtain ⟨s, hs, hend⟩ := Run.exists_exec_of_any hrun
  obtain ⟨hwait, hlen⟩ := Bool.and_eq_true_iff.mp hend
  have hquiet : s.Quiet := fun c hc => Or.inl (of_decide_eq_true hwait c hc)
  let sent : ℕ → List Block := fun i => sampleBlocks[i]?.toList
  have hmem : ∀ {i b}, b ∈ sent i → b ∈ sampleBlocks := fun hb =>
    List.mem_of_getElem? (Option.mem_toList.mp hb)
  have harrived : ∀ i, Receiver.arrived i sampleEvents = (sent i).flatMap (line sampleCodec) := by
    intro i
    match i with
    | 0 | 1 => decide +kernel
    | i + 2 => simp [Receiver.arrived, sampleEvents, sent, sampleBlocks]
  have hparse : ∀ b ∈ sampleBlocks, sampleCodec.parse (line sampleCodec b) = some b.toJson := by
    intro b hb
    rcases List.mem_cons.mp hb with rfl | hb
    · rfl
    · rw [List.mem_singleton.mp hb]
      rfl
  have hline : ∀ b ∈ sampleBlocks, Receiver.newline ∉ sampleCodec.dump b.toJson := by
    decide +kernel
  have hall := (blocks_received (fun i b hb => hparse b (hmem hb)) (fun i b hb => hline b (hmem hb))
    hs (fun i => (harrived i).symm ▸ List.prefix_rfl)).2.2 hquiet harrived
  refine ⟨s, hs, ?_⟩
  have hperm := hall.2
  rw [of_decide_eq_true hlen] at hperm
  exact hperm

end BlockReceiverHandler

end DagRider
