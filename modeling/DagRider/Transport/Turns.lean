import DagRider.Transport.Sends

set_option relaxedAutoImplicit false
set_option autoImplicit false

/-!
# Calls one after another

Runs in which every call starts after the calls before it have returned, and every connect
succeeds. Only the last call can be under way, and each socket has the data of the calls with
its address, in the order of the calls.

## Main definitions

* `DagRider.Sends.Orderly` — a step of such a run.
* `DagRider.Sends.InTurn` — what holds after such a run.
* `DagRider.Sends.Streams` — what the sockets have.

## Main results

* `DagRider.Sends.inTurn`, `DagRider.Sends.streams` — they hold after every such run.
* `DagRider.Sends.exists_run_calls` — every list of calls has such a run.
-/

namespace DagRider

namespace Send

/-- What a call still has to write. -/
def rest : Send → Bytes
  | connecting _ data => data
  | writing _ rest => rest
  | sent | failed => []

/-- A call has returned when the data is sent. -/
@[simp] lemma returned_sent : Returned sent := trivial

/-- A call has returned when it has failed. -/
@[simp] lemma returned_failed : Returned failed := trivial

/-- A call that has returned has nothing left to write. -/
lemma Returned.rest_eq {send : Send} (h : send.Returned) : send.rest = [] := by
  cases send with
  | connecting => exact h.elim
  | writing => exact h.elim
  | sent => rfl
  | failed => rfl

end Send

namespace Broadcaster

variable {b b' : Broadcaster} {send send' : Send} {r : IoResult}

/-- The sockets after one was changed. -/
lemma sockets_modify {f : Socket → Socket} {k j : ℕ} {sock : Socket}
    (h : (b.modify k f).sockets[j]? = some sock) :
    ∃ old, b.sockets[j]? = some old ∧ (j = k ∧ sock = f old ∨ j ≠ k ∧ sock = old) := by
  unfold modify at h
  rw [List.getElem?_modify] at h
  cases hold : b.sockets[j]? with
  | none => simp [hold] at h
  | some old =>
    refine ⟨old, rfl, ?_⟩
    simp only [hold, Option.map_eq_map, Option.map_some, Option.some.injEq] at h
    by_cases hk : k = j
    · rw [if_pos hk] at h
      exact Or.inl ⟨hk.symm, h.symm⟩
    · rw [if_neg hk] at h
      exact Or.inr ⟨Ne.symm hk, h.symm⟩

/-- A call that can go on has not returned. -/
lemma Resumes.not_returned (h : b.Resumes send r b' send') : ¬ send.Returned := by
  cases h <;> exact id

end Broadcaster

namespace Sends

variable {valid : String → Bool} {s s' t : Sends} {e : SendEvent} {es : List SendEvent}

/-- Calls run one after another, and connects succeed. -/
def Orderly (s : Sends) (e : SendEvent) : Prop := s.OneByOne e ∧ Connects e

instance (s : Sends) : DecidablePred s.Orderly :=
  fun e => inferInstanceAs (Decidable (s.OneByOne e ∧ Connects e))

/-! ## One call at a time -/

/-- After calls one after another, with connects that succeed. -/
structure InTurn (valid : String → Bool) (s : Sends) : Prop where
  /-- The cache is in order. -/
  cached : s.Cached
  /-- Only the last call is under way. -/
  returned : ∀ (i : ℕ) (p : Call × Send), s.sends[i]? = some p → i + 1 < s.sends.length →
    p.2.Returned
  /-- A socket is connected, or to an address that cannot be parsed, or about to be
  connected. -/
  connected : ∀ (k : ℕ) (sock : Socket), s.broadcaster.sockets[k]? = some sock →
    sock.connected = true ∨ valid sock.address = false ∨
      ∃ (i : ℕ) (c : Call) (data : Bytes), s.sends[i]? = some (c, .connecting k data)

/-- No call has been made. -/
lemma inTurn_init (valid : String → Bool) : InTurn valid init where
  cached := cached_init
  returned := fun i p h => by simp [init] at h
  connected := fun k sock h => by simp [init, Broadcaster.new] at h

/-- Sockets that wait for a connect still do after another call has started. -/
lemma connecting_concat {sends : List (Call × Send)} {k : ℕ} (p : Call × Send)
    (h : ∃ (i : ℕ) (c : Call) (data : Bytes), sends[i]? = some (c, .connecting k data)) :
    ∃ (i : ℕ) (c : Call) (data : Bytes), (sends ++ [p])[i]? = some (c, .connecting k data) := by
  obtain ⟨i, c, data, hi⟩ := h
  have hlt : i < sends.length := (List.getElem?_eq_some_iff.mp hi).1
  exact ⟨i, c, data, by rwa [List.getElem?_append_left hlt]⟩

/-- The calls after one of them went on. -/
lemma getElem?_set_cases {sends : List (Call × Send)} {p q : Call × Send} {i j : ℕ}
    (h : (sends.set i p)[j]? = some q) : i = j ∧ q = p ∨ i ≠ j ∧ sends[j]? = some q := by
  rw [List.getElem?_set] at h
  split_ifs at h with hij hlt
  · exact Or.inl ⟨hij, (Option.some.inj h).symm⟩
  · exact Or.inr ⟨hij, h⟩

/-- The sockets are connected, or on the way, also after a call has gone on. -/
lemma InTurn.connected_resume (hs : InTurn valid s) {i : ℕ} {r : IoResult} {c : Call}
    {send send' : Send} {b : Broadcaster} (hi : s.sends[i]? = some (c, send))
    (hresume : s.broadcaster.Resumes send r b send') (hok : Connects (.io i r)) (k : ℕ)
    (sock : Socket) (hk : b.sockets[k]? = some sock) :
    sock.connected = true ∨ valid sock.address = false ∨
      ∃ (j : ℕ) (d : Call) (data : Bytes),
        (s.sends.set i (c, send'))[j]? = some (d, .connecting k data) := by
  -- a socket that was there before, when the call was not the one that connects it
  have hold : ∀ old, s.broadcaster.sockets[k]? = some old →
      (∀ data, send ≠ .connecting k data) →
      old.connected = true ∨ valid old.address = false ∨
        ∃ (j : ℕ) (d : Call) (data : Bytes),
          (s.sends.set i (c, send'))[j]? = some (d, .connecting k data) := by
    intro old hold hne
    rcases hs.connected k old hold with h | h | ⟨j, d, data, hj⟩
    · exact Or.inl h
    · exact Or.inr (Or.inl h)
    · refine Or.inr (Or.inr ⟨j, d, data, ?_⟩)
      rw [List.getElem?_set_ne]
      · exact hj
      · rintro rfl
        exact hne data (Prod.mk.inj (Option.some.inj (hi.symm.trans hj))).2
  cases hresume with
  | connected k' data =>
    obtain ⟨old, hold', ⟨rfl, rfl⟩ | ⟨hne, rfl⟩⟩ := Broadcaster.sockets_modify hk
    · exact Or.inl rfl
    · refine hold _ hold' fun data' h => hne ?_
      exact (Send.connecting.inj h).1.symm
  | connectFailed => exact hok.elim
  | finished k' rest s' hs' hc =>
    obtain ⟨old, hold', ⟨rfl, rfl⟩ | ⟨-, rfl⟩⟩ := Broadcaster.sockets_modify hk
    · exact hold old hold' fun _ => by simp
    · exact hold _ hold' fun _ => by simp
  | wrote k' part rest s' hs' hc =>
    obtain ⟨old, hold', ⟨rfl, rfl⟩ | ⟨-, rfl⟩⟩ := Broadcaster.sockets_modify hk
    · exact hold old hold' fun _ => by simp
    · exact hold _ hold' fun _ => by simp
  | writeFailed => exact hold _ hk fun _ => by simp

/-- **One step.** -/
lemma InTurn.step (hs : InTurn valid s) (hok : s.Orderly e) (h : step valid s e = some s') :
    InTurn valid s' := by
  refine ⟨hs.cached.step h, ?_, ?_⟩
  · intro j p hj hlast
    rcases step_cases h with ⟨c, b, send, rfl, hsend, rfl⟩ |
      ⟨i, r, c, send, b, send', rfl, hi, hresume, rfl⟩
    · rcases getElem?_concat_cases hj with hj | ⟨rfl, -⟩
      · exact hok.1 p (List.mem_of_getElem? hj)
      · simp at hlast
    · rw [List.length_set] at hlast
      rcases getElem?_set_cases hj with ⟨rfl, -⟩ | ⟨-, hj⟩
      · exact absurd (hs.returned i _ hi hlast) hresume.not_returned
      · exact hs.returned j p hj hlast
  · intro k sock hk
    rcases step_cases h with ⟨c, b, send, rfl, hsend, rfl⟩ |
      ⟨i, r, c, send, b, send', rfl, hi, hresume, rfl⟩
    · rcases Broadcaster.send_sockets hsend hk with hold | ⟨-, rfl, rfl, rfl | ⟨-, hv⟩⟩
      · exact (hs.connected k sock hold).imp_right fun h => h.imp_right (connecting_concat _)
      · exact Or.inr (Or.inr ⟨s.sends.length, c, c.data, by simp⟩)
      · exact Or.inr (Or.inl hv)
    · exact hs.connected_resume hi hresume hok.2 k sock hk

/-- Any number of steps. -/
lemma InTurn.exec (hs : InTurn valid s) (hok : Run.Along (Sends.step valid) Orderly s es)
    (h : Run.exec (Sends.step valid) s es = some t) : InTurn valid t := by
  refine hok.induction (J := fun _ t => InTurn valid t) hs ?_ h
  intro p t e u _ hI horderly hu
  exact hI.step horderly hu

/-- **Every orderly run.** -/
theorem inTurn (hok : Run.Along (step valid) Orderly init es) (h : run valid es = some t) :
    InTurn valid t := (inTurn_init valid).exec hok h

/-- The call that goes on is the last one, and the others have returned. -/
lemma InTurn.eq_concat (hs : InTurn valid s) {i : ℕ} {p : Call × Send}
    (hi : s.sends[i]? = some p) (hp : ¬ p.2.Returned) :
    ∃ pre, s.sends = pre ++ [p] ∧ (∀ q ∈ pre, q.2.Returned) ∧
      ∀ q, s.sends.set i q = pre ++ [q] := by
  obtain ⟨hlt, hget⟩ := List.getElem?_eq_some_iff.mp hi
  have hlast : i + 1 = s.sends.length := by
    by_contra hne
    exact hp (hs.returned i p hi (by omega))
  have hsplit : s.sends = s.sends.take i ++ [p] := by
    rw [← hget, List.take_concat_get' _ _ hlt, hlast, List.take_length]
  refine ⟨s.sends.take i, hsplit, ?_, ?_⟩
  · intro q hq
    obtain ⟨j, hj, rfl⟩ := List.mem_iff_getElem.mp hq
    rw [List.length_take] at hj
    exact hs.returned j _ (by simp [List.getElem?_eq_getElem (by omega : j < s.sends.length)])
      (by omega)
  · intro q
    rw [List.set_eq_take_append_cons_drop, if_pos hlt, List.drop_eq_nil_of_le hlast.ge]

/-! ## What the sockets have -/

/-- The data of the calls with an address, one after the other. -/
def dataTo (sends : List (Call × Send)) (address : String) : Bytes :=
  sends.flatMap fun p => if p.1.address = address then p.1.data else []

/-- What the calls with an address still have to write. -/
def restTo (sends : List (Call × Send)) (address : String) : Bytes :=
  sends.flatMap fun p => if p.1.address = address then p.2.rest else []

/-- The data with one more call. -/
lemma dataTo_concat (sends : List (Call × Send)) (p : Call × Send) (address : String) :
    dataTo (sends ++ [p]) address =
      dataTo sends address ++ if p.1.address = address then p.1.data else [] := by
  unfold dataTo
  rw [List.flatMap_append, List.flatMap_singleton]

/-- What is left with one more call. -/
lemma restTo_concat (sends : List (Call × Send)) (p : Call × Send) (address : String) :
    restTo (sends ++ [p]) address =
      restTo sends address ++ if p.1.address = address then p.2.rest else [] := by
  unfold restTo
  rw [List.flatMap_append, List.flatMap_singleton]

/-- When all calls have returned nothing is left to write. -/
lemma restTo_of_returned {sends : List (Call × Send)} (h : ∀ p ∈ sends, p.2.Returned)
    (address : String) : restTo sends address = [] := by
  refine List.flatMap_eq_nil_iff.mpr fun p hp => ?_
  split_ifs
  · exact (h p hp).rest_eq
  · rfl

/-- There is no data for an address that was not called. -/
lemma dataTo_of_firstCall {address : String} (h : s.firstCall address = none) :
    dataTo s.sends address = [] := by
  refine List.flatMap_eq_nil_iff.mpr fun p hp => if_neg ?_
  have hne := List.find?_eq_none.mp h p.1 (List.mem_map_of_mem hp)
  simpa using hne

/-- A socket has the data of the calls with its address, but for what is still to be
written. -/
def Streams (valid : String → Bool) (s : Sends) : Prop :=
  ∀ (k : ℕ) (sock : Socket), s.broadcaster.sockets[k]? = some sock →
    valid sock.address = true →
    sock.stream ++ restTo s.sends sock.address = dataTo s.sends sock.address

/-- A call adds the same to what is left and to the data. -/
lemma Streams.concat (hst : Streams valid s) {k : ℕ} {sock : Socket}
    (hk : s.broadcaster.sockets[k]? = some sock) (hv : valid sock.address = true) {c : Call}
    {send : Send} (hsend : c.address = sock.address → send.rest = c.data) :
    sock.stream ++ restTo (s.sends ++ [(c, send)]) sock.address =
      dataTo (s.sends ++ [(c, send)]) sock.address := by
  rw [restTo_concat, dataTo_concat, ← List.append_assoc, hst k sock hk hv]
  split_ifs with ha
  · rw [hsend ha]
  · rfl

/-- A step that starts a call. -/
lemma Streams.call (hst : Streams valid s) (hs : InTurn valid s) (hok : s.AllReturned)
    {c : Call} {b : Broadcaster} {send : Send}
    (h : s.broadcaster.send valid c.address c.port c.data = (b, send)) :
    Streams valid ⟨b, s.sends ++ [(c, send)]⟩ := by
  intro k sock hk hv
  rcases Broadcaster.send_sockets h hk with hold | ⟨hnone, rfl, rfl, rfl | ⟨-, hinvalid⟩⟩
  · refine hst.concat hold hv fun ha => ?_
    rcases Broadcaster.send_started h with ⟨k', rfl⟩ | ⟨k', rfl, -⟩ | ⟨-, hinvalid⟩
    · rfl
    · rfl
    · exact absurd (hinvalid.symm.trans (ha ▸ hv)) (by simp)
  · rw [restTo_concat, dataTo_concat, restTo_of_returned hok,
      dataTo_of_firstCall (hs.cached.fresh _ hnone)]
    rfl
  · exact absurd (hinvalid.symm.trans hv) (by simp)

/-- A socket that the last call goes on to write to. -/
lemma Streams.write (hst : Streams valid s) (hs : InTurn valid s) {i k : ℕ} {c : Call}
    {part rest : Bytes} {send' : Send} (hrest : send'.rest = rest)
    (hi : s.sends[i]? = some (c, .writing k (part ++ rest))) :
    Streams valid ⟨s.broadcaster.modify k fun sock => { sock with stream := sock.stream ++ part },
      s.sends.set i (c, send')⟩ := by
  obtain ⟨pre, hsends, hpre, hset⟩ := hs.eq_concat hi id
  have huses := hs.cached.uses i c _ k hi rfl
  intro j sock hj hv
  obtain ⟨old, hold, hcase⟩ := Broadcaster.sockets_modify hj
  have hvold : valid old.address = true := by
    rcases hcase with ⟨-, rfl⟩ | ⟨-, rfl⟩ <;> exact hv
  have heq := hst j old hold hvold
  have hentry := hs.cached.entry_of_socket hold
  rw [hsends, restTo_concat, dataTo_concat, restTo_of_returned hpre, List.nil_append] at heq
  simp only [hset, restTo_concat, dataTo_concat, restTo_of_returned hpre, List.nil_append, hrest]
  rcases hcase with ⟨rfl, rfl⟩ | ⟨hne, rfl⟩
  · -- the socket of the call has its address
    obtain ⟨sock', d, hsock', -, haddr, -⟩ := hs.cached.exists_socket huses
    obtain rfl := Option.some.inj (hsock'.symm.trans hold)
    have ha : c.address = sock'.address := haddr.symm
    rw [if_pos ha] at heq ⊢
    rw [if_pos ha] at heq ⊢
    rw [← heq, Send.rest, List.append_assoc]
  · -- another socket has another address
    have ha : c.address ≠ sock.address := by
      intro ha
      rw [ha, hentry] at huses
      exact hne (Option.some.inj huses)
    rw [if_neg ha] at heq ⊢
    rw [if_neg ha] at heq ⊢
    exact heq

/-- **One step.** -/
lemma Streams.step (hst : Streams valid s) (hs : InTurn valid s) (hok : s.Orderly e)
    (hw : Writes e) (h : step valid s e = some s') : Streams valid s' := by
  rcases step_cases h with ⟨c, b, send, rfl, hsend, rfl⟩ |
    ⟨i, r, c, send, b, send', rfl, hi, hresume, rfl⟩
  · exact hst.call hs hok.1 hsend
  · cases hresume with
    | connected k data =>
      obtain ⟨pre, hsends, hpre, hset⟩ := hs.eq_concat hi id
      intro j sock hj hv
      obtain ⟨old, hold, hcase⟩ := Broadcaster.sockets_modify hj
      have hsame : sock.stream = old.stream ∧ sock.address = old.address := by
        rcases hcase with ⟨-, rfl⟩ | ⟨-, rfl⟩ <;> exact ⟨rfl, rfl⟩
      have heq := hst j old hold (hsame.2 ▸ hv)
      rw [hsends, restTo_concat, dataTo_concat] at heq
      rw [hset, restTo_concat, dataTo_concat, hsame.1, hsame.2]
      exact heq
    | connectFailed => exact hok.2.elim
    | finished k rest =>
      have hi' : s.sends[i]? = some (c, .writing k (rest ++ [])) := by rwa [List.append_nil]
      exact hst.write hs rfl hi'
    | wrote k part rest => exact hst.write hs rfl hi
    | writeFailed => exact hw.elim

/-- **Every orderly run without failures.** -/
theorem streams (hok : Run.Along (step valid) Orderly init es) (hw : ∀ e ∈ es, Writes e)
    (h : run valid es = some t) : Streams valid t := by
  refine Run.prefix_induction (J := fun _ t => Streams valid t) ?_ ?_ h
  · intro k sock hk
    simp [init, Broadcaster.new] at hk
  · intro p t e u hpre hp hI hu
    have hin := inTurn (hok.mono ((List.prefix_append p [e]).trans hpre)) hp
    exact hI.step hin (Run.along_iff.mp hok p e t hpre hp) (hw e (hpre.subset (by simp))) hu

/-! ## Every list of calls can be run -/

/-- All calls have returned once one more has. -/
lemma AllReturned.concat (h : s.AllReturned) {b : Broadcaster} {c : Call} {send : Send}
    (hsend : send.Returned) : AllReturned ⟨b, s.sends ++ [(c, send)]⟩ := by
  intro p hp
  rcases List.mem_append.mp hp with hp | hp
  · exact h p hp
  · rw [List.mem_singleton.mp hp]
    exact hsend

/-- The last call goes on. -/
lemma step_last (valid : String → Bool) {b b' : Broadcaster} (sends : List (Call × Send))
    (c : Call) {send send' : Send} {r : IoResult} (h : b.resume send r = some (b', send')) :
    step valid ⟨b, sends ++ [(c, send)]⟩ (.io sends.length r) =
      some ⟨b', sends ++ [(c, send')]⟩ := by
  simp [step, h]

/-- All the rest of the data is written. -/
lemma resume_wrote {b : Broadcaster} {k : ℕ} {sock : Socket} (hk : b.sockets[k]? = some sock)
    (hc : sock.connected = true) (data : Bytes) :
    b.resume (.writing k data) (.wrote data.length) =
      some (b.modify k fun s => { s with stream := s.stream ++ data }, .sent) := by
  have hpos : 0 < data.length ∨ data = [] := by
    cases data with
    | nil => exact Or.inr rfl
    | cons => exact Or.inl (Nat.succ_pos _)
  simp [Broadcaster.resume, Broadcaster.modify, hk, hc, hpos]

/-- A call that finds a socket goes on to write. -/
lemma step_found (valid : String → Bool) {c : Call} {k : ℕ}
    (hk : s.broadcaster.connections.find? c.address = some k) :
    step valid s (.call c) = some ⟨s.broadcaster, s.sends ++ [(c, .writing k c.data)]⟩ := by
  simp [step, Broadcaster.send, hk]

/-- A call that finds a connected socket and writes all its data at once. -/
lemma run_found (valid : String → Bool) (hret : s.AllReturned) {c : Call} {k : ℕ} {sock : Socket}
    (hk : s.broadcaster.connections.find? c.address = some k)
    (hsock : s.broadcaster.sockets[k]? = some sock) (hc : sock.connected = true) :
    ∃ u t, step valid s (.call c) = some u ∧
      u = ⟨s.broadcaster, s.sends ++ [(c, .writing k c.data)]⟩ ∧
      step valid u (.io s.sends.length (.wrote c.data.length)) = some t ∧
      t.calls = s.calls ++ [c] ∧ t.AllReturned := by
  have hcall := step_found valid hk
  have hwrote := step_last valid s.sends c (resume_wrote hsock hc c.data)
  exact ⟨_, _, hcall, rfl, hwrote, by simp [calls], hret.concat Send.returned_sent⟩

/-- A call that ends at once, or with one or two operations. -/
lemma exists_run_call (hs : InTurn valid s) (hret : s.AllReturned) (c : Call) :
    ∃ es t, Run.exec (step valid) s (.call c :: es) = some t ∧
      Run.Along (step valid) Orderly s (.call c :: es) ∧
      (valid c.address = true → ∀ e ∈ es, Writes e) ∧
      t.calls = s.calls ++ [c] ∧ t.AllReturned := by
  rcases Broadcaster.send_cases valid s.broadcaster c with
    ⟨k, hk, heq⟩ | ⟨hnone, ⟨-, heq⟩ | ⟨hinvalid, heq⟩⟩
  · obtain ⟨sock, d, hsock, -, haddr, -⟩ := hs.cached.exists_socket hk
    rcases hs.connected k sock hsock with hc | hv | ⟨i, d', data, hi⟩
    · -- the socket is connected
      obtain ⟨u, t, hcall, -, hwrote, hcalls, hret'⟩ := run_found valid hret hk hsock hc
      have hrun := Run.exec_cons_eq_some.mpr
        ⟨_, hcall, Run.exec_cons_eq_some.mpr ⟨_, hwrote, Run.exec_nil⟩⟩
      refine ⟨_, _, hrun, ?_, ?_, hcalls, hret'⟩
      · simp [Run.Along, hcall, Orderly, OneByOne, Connects, hret]
      · simp [Writes]
    · -- the address was never parsed
      have hcall := step_found valid hk
      have hfail := step_last valid s.sends c
        (show s.broadcaster.resume (.writing k c.data) .writeFailed =
          some (s.broadcaster, .failed) from rfl)
      have hrun := Run.exec_cons_eq_some.mpr
        ⟨_, hcall, Run.exec_cons_eq_some.mpr ⟨_, hfail, Run.exec_nil⟩⟩
      refine ⟨_, _, hrun, ?_, ?_, ?_, hret.concat Send.returned_failed⟩
      · simp [Run.Along, hcall, Orderly, OneByOne, Connects, hret]
      · intro hvalid
        rw [haddr, hvalid] at hv
        exact absurd hv (by simp)
      · simp [calls]
    · exact (hret _ (List.mem_of_getElem? hi)).elim
  · -- a new socket, connected and written to
    have hcall : step valid s (.call c) = some ⟨s.broadcaster.add c.address c.port,
        s.sends ++ [(c, .connecting s.broadcaster.sockets.length c.data)]⟩ := by
      simp [step, heq]
    have hconnect := step_last valid s.sends c
      (show (s.broadcaster.add c.address c.port).resume
          (.connecting s.broadcaster.sockets.length c.data) .connected =
        some ((s.broadcaster.add c.address c.port).modify s.broadcaster.sockets.length
          fun s => { s with connected := true }, .writing s.broadcaster.sockets.length c.data)
        from rfl)
    have hsock : ((s.broadcaster.add c.address c.port).modify s.broadcaster.sockets.length
        fun s => { s with connected := true }).sockets[s.broadcaster.sockets.length]? =
          some ⟨c.address, c.port, true, []⟩ := by
      simp [Broadcaster.modify, Broadcaster.add]
    have hwrote := step_last valid s.sends c
      (resume_wrote hsock rfl c.data)
    have hrun := Run.exec_cons_eq_some.mpr ⟨_, hcall, Run.exec_cons_eq_some.mpr
      ⟨_, hconnect, Run.exec_cons_eq_some.mpr ⟨_, hwrote, Run.exec_nil⟩⟩⟩
    refine ⟨_, _, hrun, ?_, ?_, ?_, hret.concat Send.returned_sent⟩
    · simp [Run.Along, hcall, Orderly, OneByOne, Connects, hret]
    · simp [Writes]
    · simp [calls]
  · -- an address that cannot be parsed
    have hcall : step valid s (.call c) =
        some ⟨s.broadcaster.add c.address c.port, s.sends ++ [(c, .failed)]⟩ := by
      simp [step, heq]
    have hrun := Run.exec_cons_eq_some.mpr ⟨_, hcall, Run.exec_nil⟩
    refine ⟨_, _, hrun, ?_, ?_, ?_, hret.concat Send.returned_failed⟩
    · simp [Run.Along, hcall, Orderly, OneByOne, Connects, hret]
    · simp
    · simp [calls]

/-- **Every list of calls can be run**, one call after the other, from wherever the calls
before have returned. Nothing fails when all addresses can be parsed. -/
theorem exists_run_calls (cs : List Call) (hs : InTurn valid s) (hret : s.AllReturned) :
    ∃ es t, Run.exec (step valid) s es = some t ∧ Run.Along (step valid) Orderly s es ∧
      ((∀ c ∈ cs, valid c.address = true) → ∀ e ∈ es, Writes e) ∧
      t.calls = s.calls ++ cs ∧ InTurn valid t ∧ t.AllReturned := by
  induction cs generalizing s with
  | nil => exact ⟨[], s, rfl, trivial, by simp, by simp, hs, hret⟩
  | cons c cs ih =>
    obtain ⟨es, t, ht, hok, hw, hcalls, hret'⟩ := exists_run_call hs hret c
    obtain ⟨fs, u, hu, hok', hw', hcalls', hin, hret''⟩ := ih (hs.exec hok ht) hret'
    refine ⟨(.call c :: es) ++ fs, u, Run.exec_append_eq_some.mpr ⟨t, ht, hu⟩,
      (Run.along_append ht).mpr ⟨hok, hok'⟩, ?_, ?_, hin, hret''⟩
    · intro hvalid e he
      rcases List.mem_append.mp he with he | he
      · rcases List.mem_cons.mp he with rfl | he
        · exact trivial
        · exact hw (hvalid c (by simp)) e he
      · exact hw' (fun d hd => hvalid d (by simp [hd])) e he
    · rw [hcalls', hcalls, List.append_assoc]
      rfl

end Sends

end DagRider
