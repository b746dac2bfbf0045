import DagRider.Transport.Clients
import Mathlib.Algebra.Order.BigOperators.Group.Finset
import Mathlib.Data.Prod.Lex

set_option relaxedAutoImplicit false
set_option autoImplicit false

/-!
# A receiver of transactions settles

The loops of the connections and the calls of `dispatch` come to an end as long as nothing more
arrives, whatever becomes of the broadcasts: whoever can go on goes on, and not forever.

## Main definitions

* `DagRider.Receiver.Event.Internal` — the steps that end what has arrived.
* `DagRider.TxReceiverHandler.Live` — every suspended connection has a call of its own, which waits
  for an operation.
* `DagRider.Broadcasting.work` — what is left of a broadcast, at most.

## Main results

* `DagRider.TxReceiverHandler.resting_iff` — nothing can go on only when all is quiet.
* `DagRider.TxReceiverHandler.comes_to_quiet` — and this state is reached in any case.
-/

namespace DagRider

/-- A loop dispatches a message, or a call goes on. -/
def Receiver.Event.Internal {ρ : Type} : Receiver.Event ρ → Prop
  | .turn _ | .resume _ _ => True
  | .accept | .acceptFails | .receive _ _ | .readFails _ => False

/-! ## What is left of a broadcast -/

/-- What is left of a call of `send`: at most as many steps. -/
def Send.work : Send → ℕ
  | .connecting _ data => data.length + 2
  | .writing _ rest => rest.length + 1
  | .sent | .failed => 0

/-- A call that waits can fail, whatever it waits for. -/
lemma Send.exists_resume {send : Send} (b : Broadcaster) (h : ¬ send.Returned) :
    ∃ r b', b.resume send r = some (b', .failed) := by
  cases send with
  | connecting socket data => exact ⟨.connectFailed, b, rfl⟩
  | writing socket rest => exact ⟨.writeFailed, b, rfl⟩
  | sent | failed => exact absurd trivial h

/-- **A call of `send` that goes on** has less left. -/
lemma Send.work_lt {b b' : Broadcaster} {send send' : Send} {r : IoResult}
    (h : b.resume send r = some (b', send')) : send'.work < send.work := by
  unfold Broadcaster.resume at h
  split at h
  · cases h
    simp [work]
  · cases h
    simp [work]
  · split at h
    · cases h
    · split_ifs at h with hwrote hall
      · cases h
        simp [work]
      · cases h
        simp only [work, List.length_drop]
        obtain ⟨-, hle, hpos | rfl⟩ := hwrote
        · omega
        · simp at hle hall
          exact absurd hle hall
  · cases h
    simp [work]
  · cases h

namespace Broadcasting

/-- What is left of a loop over the endpoints. -/
def work (w : Broadcasting) : ℕ := w.send.work + w.endpoints.length * (w.data.length + 2)

end Broadcasting

/-- What is left of a loop over the endpoints that is suspended, or not. -/
def workOf (w : Option Broadcasting) : ℕ := (w.map Broadcasting.work).getD 0

/-- **A loop that starts** is suspended in a call that waits, if at all, and has at most the calls
for the endpoints left. -/
lemma broadcast_spec {valid : String → Bool} {data : Bytes} {b b' : Broadcaster}
    {endpoints : List Endpoint} {w : Option Broadcasting}
    (h : broadcast valid data b endpoints = (b', w)) :
    workOf w ≤ endpoints.length * (data.length + 2) ∧ ∀ v ∈ w, ¬ v.send.Returned := by
  induction endpoints generalizing b with
  | nil =>
    cases h
    simp [workOf]
  | cons endpoint endpoints ih =>
    rw [broadcast] at h
    cases hsend : b.send valid endpoint.addressToString endpoint.port data with
    | mk b₁ send =>
      rw [hsend] at h
      dsimp only at h
      split_ifs at h with hret
      · obtain ⟨hwork, hwaits⟩ := ih h
        refine ⟨hwork.trans ?_, hwaits⟩
        rw [List.length_cons]
        exact Nat.mul_le_mul_right _ (Nat.le_succ _)
      · cases h
        have hlong : send.work ≤ data.length + 2 := by
          unfold Broadcaster.send at hsend
          split at hsend
          · cases hsend
            simp [Send.work]
          · dsimp only at hsend
            split_ifs at hsend <;> cases hsend <;> simp [Send.work]
        refine ⟨?_, fun v hv => ?_⟩
        · simp only [workOf, Option.map_some, Option.getD_some, Broadcasting.work,
            List.length_cons, Nat.succ_mul]
          omega
        · obtain rfl := Option.mem_some_iff.mp hv
          exact hret

namespace Broadcasting

variable {valid : String → Bool} {b b' : Broadcaster} {w : Broadcasting}
  {w' : Option Broadcasting} {r : IoResult}

/-- **A loop that goes on** has less left, and waits again, if it is suspended. -/
lemma resume_spec (h : w.resume valid b r = some (b', w')) :
    workOf w' < w.work ∧ ∀ v ∈ w', ¬ v.send.Returned := by
  simp only [resume, Option.bind_eq_bind] at h
  obtain ⟨⟨b₁, send⟩, hsend, h⟩ := Option.bind_eq_some_iff.mp h
  have hlt := Send.work_lt hsend
  dsimp only at h
  split_ifs at h with hret
  · obtain ⟨hwork, hwaits⟩ := broadcast_spec (Option.some.inj h)
    refine ⟨?_, hwaits⟩
    unfold work
    omega
  · cases h
    refine ⟨?_, fun v hv => ?_⟩
    · simp only [workOf, Option.map_some, Option.getD_some, work]
      omega
    · obtain rfl := Option.mem_some_iff.mp hv
      exact hret

/-- A loop that waits can go on. -/
lemma exists_resume (valid : String → Bool) (b : Broadcaster) (h : ¬ w.send.Returned) :
    ∃ r p, w.resume valid b r = some p := by
  obtain ⟨r, b', hr⟩ := Send.exists_resume b h
  refine ⟨r, broadcast valid w.data b' w.endpoints, ?_⟩
  simp [resume, hr, Send.Returned]

end Broadcasting

/-! ## The calls of a handler -/

namespace TxReceiverHandler

variable {E : Environment} {s s' : TxReceiverHandler} {i : ℕ} {r : IoResult}

/-- **A call of `dispatch`** comes after the others, and waits if it is suspended. -/
lemma exists_dispatches (E : Environment) (s : TxReceiverHandler) (message : Bytes) :
    ∃ b w, (s.dispatch E message).dispatches = s.dispatches ++ [(b, w)] ∧
      ∀ v ∈ w, ¬ v.send.Returned := by
  unfold dispatch
  split
  · exact ⟨_, _, rfl, by simp⟩
  · split
    · exact ⟨_, _, rfl, by simp⟩
    · refine ⟨_, _, rfl, ?_⟩
      exact (broadcast_spec rfl).2

/-- **A call that goes on** changes its own place. -/
lemma step_io (h : s.step E (.io i r) = some s') :
    ∃ b v b' w, s.dispatches[i]? = some (b, some v) ∧
      s' = { s with dispatches := s.dispatches.set i (b', w) } ∧ workOf w < v.work ∧
      ∀ v' ∈ w, ¬ v'.send.Returned := by
  simp only [step, Option.bind_eq_bind] at h
  obtain ⟨⟨b, w⟩, hi, h⟩ := Option.bind_eq_some_iff.mp h
  obtain ⟨v, rfl, h⟩ := Option.bind_eq_some_iff.mp h
  obtain ⟨⟨b', w'⟩, hresume, h⟩ := Option.bind_eq_some_iff.mp h
  obtain ⟨hwork, hwaits⟩ := Broadcasting.resume_spec hresume
  exact ⟨b, v, b', w', hi, (Option.some.inj h).symm, hwork, hwaits⟩

/-- A call is suspended where it waits. -/
lemma call_eq_suspended {k : ℕ} (h : (s.call i).place = .dispatching k) :
    i = k ∧ ∃ b v, s.dispatches[i]? = some (b, some v) := by
  unfold call at h
  split at h
  · rename_i b v hi
    simp only [Dispatch.place, Connection.Place.dispatching.injEq] at h
    exact ⟨h, b, v, hi⟩
  all_goals simp [Dispatch.place] at h

/-! ## Whose call waits -/

/-- Every suspended connection has a call of its own, which waits for an operation. -/
structure Live (s : Receiver TxReceiverHandler ℕ) : Prop where
  waits : ∀ {i : ℕ} {c : Connection ℕ} {k : ℕ}, s.connections[i]? = some c →
    c.place = .dispatching k →
      ∃ b v, s.handler.dispatches[k]? = some (b, some v) ∧ ¬ Send.Returned v.send
  distinct : ∀ {i j : ℕ} {c d : Connection ℕ} {k : ℕ}, s.connections[i]? = some c →
    s.connections[j]? = some d → c.place = .dispatching k → d.place = .dispatching k → i = j

end TxReceiverHandler

/-- A connection after a change of one of them. -/
lemma Receiver.of_update {σ κ : Type} {s : Receiver σ κ} {h : σ} {c d : Connection κ} {i j : ℕ}
    (hj : (s.update i h c).connections[j]? = some d) :
    (j = i ∧ d = c) ∨ (j ≠ i ∧ s.connections[j]? = some d) := by
  by_cases hji : j = i
  · subst hji
    have hmem : d ∈ ((s.connections.set j c)[j]?) := hj
    rw [List.getElem?_set] at hmem
    split_ifs at hmem with hlt
    · exact Or.inl ⟨rfl, by simpa using hmem.symm⟩
    all_goals simp_all
  · rw [Receiver.update_of_ne (Ne.symm hji)] at hj
    exact Or.inr ⟨hji, hj⟩

namespace TxReceiverHandler

variable {E : Environment} {s t : Receiver TxReceiverHandler ℕ} {e : Receiver.Event IoResult}

/-- A change of a connection that is not suspended afterwards. -/
lemma Live.update (hs : Live s) {i : ℕ} {c : Connection ℕ} (hc : ∀ k, c.place ≠ .dispatching k) :
    Live (s.update i s.handler c) where
  waits := by
    intro j d k hj hd
    rcases Receiver.of_update hj with ⟨-, rfl⟩ | ⟨-, hj⟩
    · exact absurd hd (hc k)
    · exact hs.waits hj hd
  distinct := by
    intro j j' d d' k hj hj' hd hd'
    rcases Receiver.of_update hj with ⟨-, rfl⟩ | ⟨-, hj⟩
    · exact absurd hd (hc k)
    · rcases Receiver.of_update hj' with ⟨-, rfl⟩ | ⟨-, hj'⟩
      · exact absurd hd' (hc k)
      · exact hs.distinct hj hj' hd hd'

/-- **One step** keeps the suspended connections apart. -/
lemma Live.step (hs : Live s) (h : Receiver.Step (handler E) s e t) : Live t := by
  cases h with
  | accept =>
    have hold : ∀ {i : ℕ} {c : Connection ℕ} {k : ℕ},
        (s.connections ++ [⟨[], .reading⟩])[i]? = some c →
        c.place = .dispatching k → s.connections[i]? = some c := by
      intro i c k hi hc
      rw [List.getElem?_append] at hi
      split_ifs at hi with hlt
      · exact hi
      · have hmem := List.mem_of_getElem? hi
        rw [List.mem_singleton.mp hmem] at hc
        cases hc
    exact ⟨fun hi hc => hs.waits (hold hi hc) hc,
      fun hi hj hc hd => hs.distinct (hold hi hc) (hold hj hd) hc hd⟩
  | acceptFails => exact ⟨hs.waits, hs.distinct⟩
  | receive hi hc =>
    refine hs.update fun k hk => ?_
    exact absurd (hc.1.symm.trans hk) (by simp)
  | readFails hi hc => exact hs.update fun k hk => by simp at hk
  | @turn i c hi hc =>
    obtain ⟨b, w, hnew, hwaits⟩ := exists_dispatches E s.handler c.message
    -- the new call has a number that no other connection waits for
    have hcall : ∀ {k}, ((s.handler.dispatch E c.message).call s.handler.dispatches.length).place =
        .dispatching k → k = s.handler.dispatches.length ∧ ∃ v, w = some v := by
      intro k hk
      obtain ⟨rfl, b', v, hv⟩ := call_eq_suspended hk
      rw [hnew, List.getElem?_concat_length] at hv
      cases hv
      exact ⟨rfl, v, rfl⟩
    have hlt : ∀ {j : ℕ} {d : Connection ℕ} {k : ℕ}, s.connections[j]? = some d →
        d.place = .dispatching k → k < s.handler.dispatches.length := by
      intro j d k hj hd
      obtain ⟨b, v, hk, -⟩ := hs.waits hj hd
      exact (List.getElem?_eq_some_iff.mp hk).1
    constructor
    · intro j d k hj hd
      show ∃ b v, (s.handler.dispatch E c.message).dispatches[k]? = _ ∧ _
      rw [hnew]
      rcases Receiver.of_update hj with ⟨-, rfl⟩ | ⟨-, hj⟩
      · obtain ⟨rfl, v, rfl⟩ := hcall hd
        exact ⟨b, v, List.getElem?_concat_length, hwaits v rfl⟩
      · rw [List.getElem?_append_left (hlt hj hd)]
        exact hs.waits hj hd
    · intro j j' d d' k hj hj' hd hd'
      rcases Receiver.of_update hj with ⟨rfl, rfl⟩ | ⟨-, hold⟩ <;>
        rcases Receiver.of_update hj' with ⟨rfl, rfl⟩ | ⟨-, hold'⟩
      · rfl
      · exact absurd (hlt hold' hd') (by rw [(hcall hd).1]; exact lt_irrefl _)
      · exact absurd (hlt hold hd) (by rw [(hcall hd').1]; exact lt_irrefl _)
      · exact hs.distinct hold hold' hd hd'
  | @resume i r c k h d hi hc hd =>
    obtain ⟨u, hio, heq⟩ := Option.map_eq_some_iff.mp hd
    obtain ⟨rfl, rfl⟩ := Prod.mk.inj heq
    obtain ⟨b, v, b', w, hk, rfl, -, hwaits⟩ := step_io hio
    have hlen : k < s.handler.dispatches.length := (List.getElem?_eq_some_iff.mp hk).1
    have hcall : ∀ {k'}, (call ⟨s.handler.batches, s.handler.dispatches.set k (b', w)⟩ k).place =
        .dispatching k' → k = k' ∧ ∃ v, w = some v := by
      intro k' hk'
      obtain ⟨rfl, b'', v, hv⟩ := call_eq_suspended hk'
      rw [List.getElem?_set_self hlen] at hv
      cases hv
      exact ⟨rfl, v, rfl⟩
    constructor
    · intro j d k' hj hd'
      show ∃ b v, (s.handler.dispatches.set k (b', w))[k']? = _ ∧ _
      rcases Receiver.of_update hj with ⟨-, rfl⟩ | ⟨hji, hj⟩
      · obtain ⟨rfl, v, rfl⟩ := hcall hd'
        exact ⟨b', v, List.getElem?_set_self hlen, hwaits v rfl⟩
      · have hne : k ≠ k' := by
          rintro rfl
          exact hji (hs.distinct hj hi hd' hc)
        rw [List.getElem?_set_ne hne]
        exact hs.waits hj hd'
    · intro j j' d d' k' hj hj' hd hd'
      rcases Receiver.of_update hj with ⟨rfl, rfl⟩ | ⟨-, hold⟩ <;>
        rcases Receiver.of_update hj' with ⟨rfl, rfl⟩ | ⟨-, hold'⟩
      · rfl
      · obtain ⟨rfl, -⟩ := hcall hd
        exact hs.distinct hi hold' hc hd'
      · obtain ⟨rfl, -⟩ := hcall hd'
        exact hs.distinct hold hi hd hc
      · exact hs.distinct hold hold' hd hd'

/-- The suspended connections of every run. -/
lemma live {es : List (Receiver.Event IoResult)}
    (h : Run.exec (Receiver.step (handler E)) (Receiver.start new) es = some s) : Live s := by
  refine Run.invariant (fun t e u ht hu => ht.step (Receiver.Step.of_step hu)) ?_ h
  exact ⟨fun hi => absurd hi (by simp [Receiver.start]),
    fun hi => absurd hi (by simp [Receiver.start])⟩

/-! ## Coming to quiet -/

/-- How many messages wait to be dispatched. -/
def pending (s : Receiver TxReceiverHandler ℕ) : ℕ :=
  ∑ i ∈ Finset.range s.connections.length, (s.data i).count Receiver.newline

/-- What is left of the call of a connection. -/
def workAt (s : Receiver TxReceiverHandler ℕ) (i : ℕ) : ℕ :=
  match s.connections[i]?.map Connection.place with
  | some (.dispatching k) => ((s.handler.dispatches[k]?.map fun p => workOf p.2)).getD 0
  | some .reading | some .ended | none => 0

/-- What is left of all calls. -/
def work (s : Receiver TxReceiverHandler ℕ) : ℕ :=
  ∑ i ∈ Finset.range s.connections.length, workAt s i

/-- What is left of the call of a connection that has gone on. -/
lemma workAt_update {i k : ℕ} {c : Connection ℕ} {p : Broadcaster × Option Broadcasting}
    (hi : s.connections[i]? = some c) (hk : s.handler.dispatches[k]? = some p) (b : Broadcaster)
    (w : Option Broadcasting) :
    workAt (s.update i { s.handler with dispatches := s.handler.dispatches.set k (b, w) }
      { c with place := (call { s.handler with
        dispatches := s.handler.dispatches.set k (b, w) } k).place }) i = workOf w := by
  have hself : (s.handler.dispatches.set k (b, w))[k]? = some (b, w) :=
    List.getElem?_set_self (List.getElem?_eq_some_iff.mp hk).1
  unfold workAt
  rw [Receiver.update_self hi]
  cases w <;> simp [call, hself, Dispatch.place, workOf]

/-- **An internal step** leaves fewer messages, or as many and less of the calls. -/
lemma lex_lt (hs : Live s) (he : e.Internal) (h : Receiver.Step (handler E) s e t) :
    pending t < pending s ∨ pending t = pending s ∧ work t < work s := by
  cases h with
  | accept | acceptFails | receive _ _ | readFails _ _ => exact absurd he id
  | @turn i c hi hc =>
    refine Or.inl ?_
    have hlen : i < s.connections.length := (List.getElem?_eq_some_iff.mp hi).1
    unfold pending
    rw [Receiver.length_update]
    refine Finset.sum_lt_sum (fun j _ => ?_) ⟨i, Finset.mem_range.mpr hlen, ?_⟩
    · by_cases hji : i = j
      · subst hji
        rw [Receiver.data_update_self hi, Receiver.data_of_getElem? hi]
        exact hc.count_rest.le.trans (Nat.sub_le _ _)
      · rw [Receiver.data_update_of_ne hji]
    · rw [Receiver.data_update_self hi, Receiver.data_of_getElem? hi]
      show c.rest.count Receiver.newline < c.data.count Receiver.newline
      have hpos := List.count_pos_iff.mpr hc.2
      have hrest := hc.count_rest
      omega
  | @resume i r c k h d hi hc hd =>
    obtain ⟨u, hio, heq⟩ := Option.map_eq_some_iff.mp hd
    obtain ⟨rfl, rfl⟩ := Prod.mk.inj heq
    obtain ⟨b, v, b', w, hk, rfl, hwork, -⟩ := step_io hio
    have hlen : i < s.connections.length := (List.getElem?_eq_some_iff.mp hi).1
    refine Or.inr ⟨?_, ?_⟩
    · unfold pending
      rw [Receiver.length_update]
      refine Finset.sum_congr rfl fun j _ => ?_
      by_cases hji : i = j
      · subst hji
        rw [Receiver.data_update_self hi, Receiver.data_of_getElem? hi]
      · rw [Receiver.data_update_of_ne hji]
    · have hold : workAt s i = v.work := by simp [workAt, hi, hc, hk, workOf]
      have hnew := workAt_update hi hk b' w
      have hother : ∀ j, j ≠ i → workAt (s.update i
          { s.handler with dispatches := s.handler.dispatches.set k (b', w) }
          { c with place := (call { s.handler with
            dispatches := s.handler.dispatches.set k (b', w) } k).place }) j = workAt s j := by
        intro j hji
        unfold workAt
        rw [Receiver.update_of_ne (Ne.symm hji)]
        cases hj : s.connections[j]? with
        | none => rfl
        | some d =>
          cases hd' : d.place with
          | reading | ended => simp [hd']
          | dispatching k' =>
            have hne : k ≠ k' := by
              rintro rfl
              exact hji (hs.distinct hj hi hd' hc)
            simp [hd', List.getElem?_set_ne hne]
      unfold work
      rw [Receiver.length_update]
      refine Finset.sum_lt_sum (fun j _ => ?_) ⟨i, Finset.mem_range.mpr hlen, ?_⟩
      · by_cases hji : j = i
        · subst hji
          rw [hnew, hold]
          exact hwork.le
        · rw [hother j hji]
      · rw [hnew, hold]
        exact hwork

/-- A connection with a message dispatches it. -/
lemma step_turn {i : ℕ} {c : Connection ℕ} (hi : s.connections[i]? = some c) (hc : c.Ready) :
    Receiver.step (handler E) s (.turn i) ≠ none := by
  simp [Receiver.step, hi, hc]

/-- A suspended connection can go on, whatever it waits for. -/
lemma exists_step_resume (hs : Live s) {i k : ℕ} {c : Connection ℕ}
    (hi : s.connections[i]? = some c) (hc : c.place = .dispatching k) :
    ∃ r, Receiver.step (handler E) s (.resume i r) ≠ none := by
  obtain ⟨b, v, hk, hwaits⟩ := hs.waits hi hc
  obtain ⟨r, p, hr⟩ := Broadcasting.exists_resume E.valid b hwaits
  refine ⟨r, ?_⟩
  simp [Receiver.step, hi, hc, handler, TxReceiverHandler.step, hk, hr]

/-- **Nothing can go on only when all is quiet.** -/
theorem resting_iff (hs : Live s) :
    Run.Resting (Receiver.step (handler E)) Receiver.Event.Internal s ↔ s.Quiet := by
  constructor
  · intro hrest c hc
    obtain ⟨i, hi⟩ := List.mem_iff_getElem?.mp hc
    cases hplace : c.place with
    | ended => exact Or.inr rfl
    | reading =>
      refine Or.inl ⟨hplace, fun hmem => ?_⟩
      exact step_turn (E := E) hi ⟨hplace, hmem⟩ (hrest (.turn i) trivial)
    | dispatching k =>
      obtain ⟨r, hr⟩ := exists_step_resume (E := E) hs hi hplace
      exact absurd (hrest (.resume i r) trivial) hr
  · intro hquiet e he
    cases hstep : Receiver.step (handler E) s e with
    | none => rfl
    | some t =>
      cases Receiver.Step.of_step hstep with
      | accept | acceptFails | receive _ _ | readFails _ _ => exact absurd he id
      | turn hi hc =>
        rcases hquiet _ (List.mem_of_getElem? hi) with hwait | hended
        · exact absurd hc.2 hwait.2
        · exact absurd (hc.1.symm.trans hended) (by simp)
      | resume hi hc _ =>
        rcases hquiet _ (List.mem_of_getElem? hi) with hwait | hended
        · exact absurd (hc.symm.trans hwait.1) (by simp)
        · exact absurd (hc.symm.trans hended) (by simp)

/-- **A receiver of transactions settles.** In every state that it reaches, some connection can
dispatch a message or go on with a call unless all is quiet; such steps do not go on forever, in
whatever order they are taken and whatever becomes of the broadcasts; and some of them lead to a
state where all is quiet.

**Proof sketch.** Every suspended connection has a call of its own (`live`), which waits for an
operation that can at least fail. A step leaves fewer messages to dispatch, or less of the calls
(`lex_lt`), and this order is well founded (`Run.exists_resting`, `Run.exists_exec_eq_none`). -/
theorem comes_to_quiet (E : Environment) {es : List (Receiver.Event IoResult)}
    {s : Receiver TxReceiverHandler ℕ}
    (h : Run.exec (Receiver.step (handler E)) (Receiver.start new) es = some s) :
    (Run.Resting (Receiver.step (handler E)) Receiver.Event.Internal s ↔ s.Quiet) ∧
      (∀ f : ℕ → Receiver.Event IoResult, (∀ n, (f n).Internal) →
        ∃ n, Run.exec (Receiver.step (handler E)) s ((List.range n).map f) = none) ∧
      ∃ fs t, (∀ e ∈ fs, e.Internal) ∧ Run.exec (Receiver.step (handler E)) s fs = some t ∧
        t.Quiet := by
  have hkeep : ∀ t e u, Live t → Receiver.step (handler E) t e = some u → Live u :=
    fun t e u ht hu => ht.step (Receiver.Step.of_step hu)
  have hrank : ∀ t e u, Live t → e.Internal → Receiver.step (handler E) t e = some u →
      Prod.Lex (· < ·) (· < ·) (pending u, work u) (pending t, work t) :=
    fun t e u ht he hu => Prod.lex_def.mpr (lex_lt ht he (Receiver.Step.of_step hu))
  have hwf : WellFounded (Prod.Lex ((· < ·) : ℕ → ℕ → Prop) ((· < ·) : ℕ → ℕ → Prop)) :=
    WellFounded.prod_lex Nat.lt_wfRel.wf Nat.lt_wfRel.wf
  refine ⟨resting_iff (live h), fun f hf => ?_, ?_⟩
  · exact Run.exists_exec_eq_none hwf hkeep hrank (live h) f hf
  · obtain ⟨fs, t, hfs, hrun, hrest⟩ := Run.exists_resting hwf hkeep hrank (live h)
    have hlive : Live t := Run.invariant hkeep (live h) hrun
    exact ⟨fs, t, hfs, hrun, (resting_iff hlive).mp hrest⟩

/-- Before the last turn of the two clients something is left to do, and it can be done. -/
theorem comes_to_quiet_clients :
    ∃ s, Run.exec (Receiver.step (handler lineEnvironment)) (Receiver.start new)
        (clientEvents.take 9) = some s ∧ (∃ c ∈ s.connections, c.Ready) ∧
      ∃ fs t, (∀ e ∈ fs, e.Internal) ∧
        Run.exec (Receiver.step (handler lineEnvironment)) s fs = some t ∧ t.Quiet := by
  have hrun : (Run.exec (Receiver.step (handler lineEnvironment)) (Receiver.start new)
      (clientEvents.take 9)).any (fun s => decide (∃ c ∈ s.connections, c.Ready)) = true := by
    decide +kernel
  obtain ⟨s, hs, hready⟩ := Run.exists_exec_of_any hrun
  exact ⟨s, hs, of_decide_eq_true hready, (comes_to_quiet lineEnvironment hs).2.2⟩

end TxReceiverHandler

end DagRider
