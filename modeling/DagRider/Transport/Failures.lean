import DagRider.Transport.Turns

set_option relaxedAutoImplicit false
set_option autoImplicit false

/-!
# What a failed connect leaves

`send` makes the cache entry before it connects, and an error does not remove it. After that the
socket is found in the cache, and no call connects it any more: the address is shut, for every
later call and in every later state.

## Main definitions

* `DagRider.Sends.FailsToConnect` — a call starts, and its connect fails.
* `DagRider.Sends.Shut` — calls with an address wait for a socket that is not connected.

## Main results

* `DagRider.Sends.Shut.exec` — an address that is shut stays shut.
* `DagRider.Sends.failed_connect_stays` — a failed connect shuts its address.
-/

namespace DagRider

namespace Sends

variable {valid : String → Bool} {s s' t u w : Sends} {e : SendEvent} {es fs : List SendEvent}
  {c : Call} {address : String} {i k : ℕ} {busy : Option ℕ}

/-- A call starts in `s`, and in `w` it has failed to connect: its address was not in the cache and
cannot be parsed, or its connect has ended with an error. -/
inductive FailsToConnect (valid : String → Bool) (s : Sends) (c : Call) (w : Sends) : Prop
  /-- `make_address` throws. -/
  | address (hfresh : s.broadcaster.connections.find? c.address = none)
      (hvalid : valid c.address = false) (h : step valid s (.call c) = some w)
  /-- `async_connect` throws. -/
  | connect (u : Sends) (es : List SendEvent) (k : ℕ) (data : Bytes)
      (hu : Run.exec (step valid) s (.call c :: es) = some u)
      (hi : u.sends[s.sends.length]? = some (c, .connecting k data))
      (h : step valid u (.io s.sends.length .connectFailed) = some w)

/-- The address has an entry whose socket is not connected and has no bytes, and the calls with the
address, but for one that is busy, wait to write to it or have failed. -/
structure Shut (address : String) (k : ℕ) (busy : Option ℕ) (s : Sends) : Prop where
  entry : s.broadcaster.connections.find? address = some k
  socket : ∃ sock : Socket, s.broadcaster.sockets[k]? = some sock ∧ sock.connected = false ∧
    sock.stream = []
  calls : ∀ (i : ℕ) (c : Call) (send : Send), s.sends[i]? = some (c, send) →
    c.address = address → busy ≠ some i → send = .writing k c.data ∨ send = .failed

/-- The address of an entry is that of its socket. -/
lemma Cached.address_eq (hs : s.Cached) {a b : String}
    (ha : s.broadcaster.connections.find? a = some k)
    (hb : s.broadcaster.connections.find? b = some k) : a = b := by
  obtain ⟨sock, c, hsock, -, haddr, -⟩ := hs.exists_socket ha
  obtain ⟨sock', c', hsock', -, haddr', -⟩ := hs.exists_socket hb
  obtain rfl := Option.some.inj (hsock.symm.trans hsock')
  exact haddr.symm.trans haddr'

/-- A call that starts finds the socket, or has another address. -/
lemma Shut.call (hs : s.Shut address k busy) {b : Broadcaster} {send : Send}
    (h : s.broadcaster.send valid c.address c.port c.data = (b, send)) :
    Shut address k busy ⟨b, s.sends ++ [(c, send)]⟩ := by
  obtain ⟨sock, hsock, hconn, hstream⟩ := hs.socket
  have hlt : k < s.broadcaster.sockets.length := (List.getElem?_eq_some_iff.mp hsock).1
  by_cases haddr : c.address = address
  · -- the call finds its socket in the cache
    have hsend : s.broadcaster.send valid c.address c.port c.data =
        (s.broadcaster, .writing k c.data) := by
      unfold Broadcaster.send
      rw [haddr, hs.entry]
    obtain ⟨rfl, rfl⟩ := Prod.mk.inj (h.symm.trans hsend)
    refine ⟨hs.entry, hs.socket, fun j d send' hj hd hbusy => ?_⟩
    rcases getElem?_concat_cases hj with hj | ⟨-, heq⟩
    · exact hs.calls j d send' hj hd hbusy
    · obtain ⟨rfl, rfl⟩ := Prod.mk.inj heq
      exact Or.inl rfl
  · have hcalls : ∀ (j : ℕ) (d : Call) (send' : Send),
        (s.sends ++ [(c, send)])[j]? = some (d, send') → d.address = address → busy ≠ some j →
          send' = .writing k d.data ∨ send' = .failed := by
      intro j d send' hj hd hbusy
      rcases getElem?_concat_cases hj with hj | ⟨-, heq⟩
      · exact hs.calls j d send' hj hd hbusy
      · obtain ⟨rfl, rfl⟩ := Prod.mk.inj heq
        exact absurd hd haddr
    -- the sockets that were there stay in their places
    have hadd : (s.broadcaster.add c.address c.port).connections.find? address = some k ∧
        (s.broadcaster.add c.address c.port).sockets[k]? = some sock := by
      constructor
      · rw [Broadcaster.add, UnorderedMap.find?_set_of_ne (Ne.symm haddr)]
        exact hs.entry
      · rw [Broadcaster.add, List.getElem?_append_left hlt]
        exact hsock
    rcases Broadcaster.send_cases valid s.broadcaster c with
      ⟨j, -, heq⟩ | ⟨-, ⟨-, heq⟩ | ⟨-, heq⟩⟩
    · obtain ⟨rfl, -⟩ := Prod.mk.inj (h.symm.trans heq)
      exact ⟨hs.entry, hs.socket, hcalls⟩
    · obtain ⟨rfl, -⟩ := Prod.mk.inj (h.symm.trans heq)
      exact ⟨hadd.1, ⟨sock, hadd.2, hconn, hstream⟩, hcalls⟩
    · obtain ⟨rfl, -⟩ := Prod.mk.inj (h.symm.trans heq)
      exact ⟨hadd.1, ⟨sock, hadd.2, hconn, hstream⟩, hcalls⟩

/-- A socket that is changed is not this one. -/
lemma Shut.socket_modify (hs : s.Shut address k busy) {j : ℕ} (hj : j ≠ k)
    (f : Socket → Socket) :
    ∃ sock : Socket, (s.broadcaster.modify j f).sockets[k]? = some sock ∧
      sock.connected = false ∧ sock.stream = [] := by
  obtain ⟨sock, hsock, hends⟩ := hs.socket
  refine ⟨sock, ?_, hends⟩
  show (s.broadcaster.sockets.modify j f)[k]? = some sock
  rw [List.getElem?_modify, hsock]
  show some (if j = k then f sock else sock) = some sock
  rw [if_neg hj]

/-- A call that goes on, and is not the busy one, fails or has another address. -/
lemma Shut.io (hs : s.Shut address k busy) (hcached : s.Cached) {r : IoResult} {b : Broadcaster}
    {send send' : Send} (hi : s.sends[i]? = some (c, send))
    (h : s.broadcaster.Resumes send r b send') (hbusy : busy ≠ some i) :
    Shut address k busy ⟨b, s.sends.set i (c, send')⟩ := by
  obtain ⟨sock, hsock, hconn, -⟩ := hs.socket
  -- a call with the address cannot do anything but fail
  have hother : (∃ data, send = .connecting k data) ∨ c.address = address →
      send = .writing k c.data ∨ send = .failed := by
    rintro (⟨data, rfl⟩ | haddr)
    · exact hs.calls i c _ hi (hcached.address_eq (hcached.uses i c _ k hi rfl) hs.entry) hbusy
    · exact hs.calls i c send hi haddr hbusy
  have hwrites : ∀ j rest sock', send = .writing j rest →
      s.broadcaster.sockets[j]? = some sock' → sock'.connected = true →
        j ≠ k ∧ c.address ≠ address := by
    rintro j rest sock' rfl hsock' hconn'
    have hne : j ≠ k := by
      rintro rfl
      obtain rfl := Option.some.inj (hsock.symm.trans hsock')
      rw [hconn] at hconn'
      cases hconn'
    refine ⟨hne, fun haddr => ?_⟩
    rcases hother (Or.inr haddr) with h | h
    · exact hne (Send.writing.inj h).1
    · cases h
  have hcalls : c.address ≠ address ∨ send' = .failed → ∀ (j : ℕ) (d : Call) (send'' : Send),
      (s.sends.set i (c, send'))[j]? = some (d, send'') → d.address = address → busy ≠ some j →
        send'' = .writing k d.data ∨ send'' = .failed := by
    intro hor j d send'' hj hd hbusy'
    rcases getElem?_set_cases hj with ⟨-, heq⟩ | ⟨-, hj⟩
    · obtain ⟨rfl, rfl⟩ := Prod.mk.inj heq
      exact Or.inr (hor.resolve_left (not_not.mpr hd))
    · exact hs.calls j d send'' hj hd hbusy'
  cases h with
  | connected j data =>
    have hne : j ≠ k := by
      rintro rfl
      rcases hother (Or.inl ⟨data, rfl⟩) with h | h <;> cases h
    have haddr : c.address ≠ address := by
      intro haddr
      rcases hother (Or.inr haddr) with h | h <;> cases h
    exact ⟨hs.entry, hs.socket_modify hne _, hcalls (Or.inl haddr)⟩
  | connectFailed => exact ⟨hs.entry, hs.socket, hcalls (Or.inr rfl)⟩
  | writeFailed => exact ⟨hs.entry, hs.socket, hcalls (Or.inr rfl)⟩
  | finished j rest sock' hsock' hconn' =>
    obtain ⟨hne, haddr⟩ := hwrites j rest sock' rfl hsock' hconn'
    exact ⟨hs.entry, hs.socket_modify hne _, hcalls (Or.inl haddr)⟩
  | wrote j part rest sock' hsock' hconn' =>
    obtain ⟨hne, haddr⟩ := hwrites j (part ++ rest) sock' rfl hsock' hconn'
    exact ⟨hs.entry, hs.socket_modify hne _, hcalls (Or.inl haddr)⟩

/-- **One step**, unless it is one of the busy call. -/
lemma Shut.step (hs : s.Shut address k busy) (hcached : s.Cached)
    (hbusy : ∀ i r, e = .io i r → busy ≠ some i) (h : step valid s e = some s') :
    s'.Shut address k busy := by
  rcases step_cases h with ⟨c, b, send, rfl, hsend, rfl⟩ |
    ⟨i, r, c, send, b, send', rfl, hi, hresume, rfl⟩
  · exact hs.call hsend
  · exact hs.io hcached hi hresume (hbusy i r rfl)

/-- **An address that is shut stays shut**: every call with it waits or fails. -/
theorem Shut.exec (hs : s.Shut address k none) (hcached : s.Cached)
    (h : Run.exec (Sends.step valid) s es = some t) : t.Shut address k none := by
  refine (Run.invariant (I := fun s => s.Cached ∧ s.Shut address k none) ?_ ⟨hcached, hs⟩ h).2
  rintro t e u ⟨hcached, hshut⟩ hu
  exact ⟨hcached.step hu, hshut.step hcached (fun _ _ _ => by simp) hu⟩

/-! ## The call that fails -/

/-- An address without an entry was not called. -/
lemma Cached.address_ne (hs : s.Cached) (h : s.broadcaster.connections.find? address = none)
    {d : Call} {send : Send} (hi : s.sends[i]? = some (d, send)) : d.address ≠ address := by
  have hnone := List.find?_eq_none.mp (hs.fresh _ h) d
    (List.mem_map_of_mem (List.mem_of_getElem? hi))
  simpa using hnone

/-- A call that does not find its address in the cache makes a socket for it; only this call may be
busy with it. -/
lemma shut_add (hs : s.Cached) (hfresh : s.broadcaster.connections.find? c.address = none)
    {send : Send} (hsend : busy = some s.sends.length ∨ send = .failed) :
    Shut c.address s.broadcaster.sockets.length busy
      ⟨s.broadcaster.add c.address c.port, s.sends ++ [(c, send)]⟩ where
  entry := UnorderedMap.find?_set_self
  socket := by
    refine ⟨⟨c.address, c.port, false, []⟩, ?_, rfl, rfl⟩
    show (s.broadcaster.sockets ++ [_])[s.broadcaster.sockets.length]? = _
    rw [List.getElem?_concat_length]
  calls := by
    intro i d send' hi hd hbusy
    rcases getElem?_concat_cases hi with hi | ⟨rfl, heq⟩
    · exact absurd hd (hs.address_ne hfresh hi)
    · obtain ⟨rfl, rfl⟩ := Prod.mk.inj heq
      exact Or.inr (hsend.resolve_left hbusy)

/-- As long as a call connects, its address was not in the cache before it, and is shut but for
this call.

**Proof sketch.** By induction on the run after the call: a step of the call ends its connect
(`Broadcaster.Resumes`), and any other step keeps the address shut (`Shut.step`). -/
lemma shut_of_connecting (hs : s.Cached) {data : Bytes}
    (h : Run.exec (Sends.step valid) s (.call c :: es) = some u)
    (hi : u.sends[s.sends.length]? = some (c, .connecting k data)) :
    s.broadcaster.connections.find? c.address = none ∧
      u.Shut c.address k (some s.sends.length) := by
  obtain ⟨s₁, hcall, hes⟩ := Run.exec_cons_eq_some.mp h
  refine (Run.invariant (s := s₁) (I := fun u => u.Cached ∧ s.sends.length < u.sends.length ∧
    ∀ d k data, u.sends[s.sends.length]? = some (d, .connecting k data) →
      s.broadcaster.connections.find? d.address = none ∧
        u.Shut d.address k (some s.sends.length)) ?_ ?_ hes).2.2 c k data hi
  · rintro t e u ⟨hcached, hlt, hshut⟩ hu
    refine ⟨hcached.step hu, ?_, fun d k data hd => ?_⟩
    · rcases step_cases hu with ⟨c, b, send, rfl, hsend, rfl⟩ |
        ⟨i, r, c, send, b, send', rfl, hi, hresume, rfl⟩
      · show s.sends.length < (t.sends ++ [_]).length
        rw [List.length_append]
        omega
      · show s.sends.length < (t.sends.set i _).length
        rwa [List.length_set]
    · -- the call was connecting before, and the step is not one of its own
      have hbefore : t.sends[s.sends.length]? = some (d, .connecting k data) ∧
          ∀ i r, e = .io i r → some s.sends.length ≠ some i := by
        rcases step_cases hu with ⟨c, b, send, rfl, hsend, rfl⟩ |
          ⟨i, r, c, send, b, send', rfl, hi, hresume, rfl⟩
        · refine ⟨?_, fun i r h => by cases h⟩
          rcases getElem?_concat_cases hd with hd | ⟨hlast, -⟩
          · exact hd
          · omega
        · rcases getElem?_set_cases hd with ⟨-, heq⟩ | ⟨hne, hd⟩
          · obtain ⟨rfl, rfl⟩ := Prod.mk.inj heq
            cases hresume
          · refine ⟨hd, fun j r' h => ?_⟩
            obtain ⟨rfl, -⟩ := SendEvent.io.inj h
            simpa using Ne.symm hne
      obtain ⟨hnone, hold⟩ := hshut d k data hbefore.1
      exact ⟨hnone, hold.step hcached hbefore.2 hu⟩
  · rcases step_cases hcall with ⟨d, b, send, hd, hsend, rfl⟩ | ⟨i, r, d, send, b, send', he, -⟩
    · obtain rfl := SendEvent.call.inj hd
      refine ⟨hs.step hcall, by simp, fun d k data hd => ?_⟩
      rw [List.getElem?_concat_length] at hd
      obtain ⟨rfl, rfl⟩ := Prod.mk.inj (Option.some.inj hd)
      rcases Broadcaster.send_cases valid s.broadcaster c with
        ⟨j, -, heq⟩ | ⟨hnone, ⟨-, heq⟩ | ⟨-, heq⟩⟩
      · cases (Prod.mk.inj (hsend.symm.trans heq)).2
      · obtain ⟨rfl, hk⟩ := Prod.mk.inj (hsend.symm.trans heq)
        obtain ⟨rfl, rfl⟩ := Send.connecting.inj hk
        exact ⟨hnone, shut_add hs hnone (Or.inl rfl)⟩
      · cases (Prod.mk.inj (hsend.symm.trans heq)).2
    · cases he

/-- A call that has failed to connect had no entry before, and has shut its address. -/
lemma FailsToConnect.shut (h : s.FailsToConnect valid c w) (hs : s.Cached) :
    s.broadcaster.connections.find? c.address = none ∧ w.Cached ∧
      ∃ k, w.Shut c.address k none := by
  cases h with
  | address hfresh hvalid h =>
    refine ⟨hfresh, hs.step h, s.broadcaster.sockets.length, ?_⟩
    rcases step_cases h with ⟨d, b, send, hd, hsend, rfl⟩ | ⟨i, r, d, send, b, send', he, -⟩
    · obtain rfl := SendEvent.call.inj hd
      rcases Broadcaster.send_cases valid s.broadcaster c with
        ⟨j, hj, -⟩ | ⟨-, ⟨hv, -⟩ | ⟨-, heq⟩⟩
      · rw [hfresh] at hj
        cases hj
      · rw [hvalid] at hv
        cases hv
      · obtain ⟨rfl, rfl⟩ := Prod.mk.inj (hsend.symm.trans heq)
        exact shut_add hs hfresh (Or.inr rfl)
    · cases he
  | connect u es k data hu hi h =>
    obtain ⟨hnone, hshut⟩ := shut_of_connecting hs hu hi
    have hcached : u.Cached :=
      Run.invariant (I := Cached) (fun _ _ _ hs hstep => hs.step hstep) hs hu
    refine ⟨hnone, hcached.step h, k, ?_⟩
    rcases step_cases h with ⟨d, b, send, he, -⟩ | ⟨j, r, d, send, b, send', he, hj, hresume, rfl⟩
    · cases he
    · obtain ⟨rfl, rfl⟩ := SendEvent.io.inj he
      obtain ⟨rfl, rfl⟩ := Prod.mk.inj (Option.some.inj (hi.symm.trans hj))
      cases hresume
      refine ⟨hshut.entry, hshut.socket, fun i d send hd haddr _ => ?_⟩
      rcases getElem?_set_cases hd with ⟨-, heq⟩ | ⟨hne, hd⟩
      · exact Or.inr (Prod.mk.inj heq).2
      · exact hshut.calls i d send hd haddr (by simpa using hne)

/-- **A failed connect always leaves a trace, and for good.** In every run, whatever other calls
there are, an address that a call fails to connect to was not in the cache before the call and is
in it afterwards. In every later state each call with the address takes the socket that it finds
there and goes on to write, without a connect; the socket is not connected and has no bytes, and
every call with the address waits for it or has failed.

**Proof sketch.** While the call connects, its address is shut but for itself
(`shut_of_connecting`); when it has failed, it is shut for good (`Shut.exec`). -/
theorem failed_connect_stays (hs : run valid es = some s) (hfail : s.FailsToConnect valid c w)
    (ht : Run.exec (step valid) w fs = some t) :
    s.broadcaster.connections.find? c.address = none ∧
    ∃ k, w.broadcaster.connections.find? c.address = some k ∧
      (∀ d : Call, d.address = c.address →
        step valid t (.call d) =
          some ⟨t.broadcaster, t.sends ++ [(d, .writing k d.data)]⟩) ∧
      (∃ sock : Socket, t.broadcaster.sockets[k]? = some sock ∧ sock.connected = false ∧
        sock.stream = []) ∧
      ∀ d send, (d, send) ∈ t.sends → d.address = c.address →
        send = .writing k d.data ∨ send = .failed := by
  obtain ⟨hnone, hcached, k, hshut⟩ := hfail.shut (cached hs)
  have hlater := hshut.exec hcached ht
  refine ⟨hnone, k, hshut.entry, fun d hd => step_found valid ?_, hlater.socket,
    fun d send hmem hd => ?_⟩
  · rw [hd]
    exact hlater.entry
  · obtain ⟨i, hi⟩ := List.mem_iff_getElem?.mp hmem
    exact hlater.calls i d send hi hd (by simp)

/-- A call of one byte. -/
def oneByte (address : String) : Call := ⟨address, 80, [1]⟩

/-- A call fails to connect while another one is under way; after a second call to its address
nothing was sent there. -/
theorem failed_connect_stays_two :
    ∃ s w t k, run (fun _ => true) [.call (oneByte "127.0.0.1")] = some s ∧
      Run.exec (step fun _ => true) s [.call (oneByte "0.0.0.0"), .io 0 .connected,
        .io 1 .connectFailed] = some w ∧
      step (fun _ => true) w (.call (oneByte "0.0.0.0")) = some t ∧
      s.broadcaster.connections.find? "0.0.0.0" = none ∧
      w.broadcaster.connections.find? "0.0.0.0" = some k ∧
      ∀ send, (oneByte "0.0.0.0", send) ∈ t.sends → send = .writing k [1] ∨ send = .failed := by
  refine ⟨_, _, _, 1, rfl, rfl, rfl, rfl, rfl, ?_⟩
  have hstay := @failed_connect_stays (fun _ => true) _ _ _ [.call (oneByte "127.0.0.1")]
    [.call (oneByte "0.0.0.0")] (oneByte "0.0.0.0") rfl
    (.connect _ [.io 0 .connected] 1 [1] rfl rfl rfl) rfl
  obtain ⟨-, k, hk, -, -, hcalls⟩ := hstay
  obtain rfl : 1 = k := Option.some.inj hk
  exact fun send hsend => hcalls _ send hsend rfl

/-- A connect fails; the cache is not as it was, and the next call to the endpoint does not
connect. -/
theorem failed_connect_in_cache :
    ∃ s w t, run (fun _ => true) [] = some s ∧
      s.FailsToConnect (fun _ => true) (oneByte "0.0.0.0") w ∧
      s.broadcaster.connections.find? "0.0.0.0" ≠ w.broadcaster.connections.find? "0.0.0.0" ∧
      step (fun _ => true) w (.call (oneByte "0.0.0.0")) = some t ∧
      t.sends = w.sends ++ [(oneByte "0.0.0.0", .writing 0 [1])] := by
  refine ⟨_, _, _, rfl, .connect _ [] 0 [1] rfl rfl rfl, ?_, rfl, rfl⟩
  decide +kernel

end Sends

end DagRider
