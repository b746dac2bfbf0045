import DagRider.Model.Broadcaster

set_option relaxedAutoImplicit false
set_option autoImplicit false

/-!
# Calls on one broadcaster

What one step of a broadcaster can do, and what holds of its cache after every run: each
entry leads to the socket that the first call with its address made.

## Main definitions

* `DagRider.Sends.Cached` — the cache, the sockets and the calls that use them.

## Main results

* `DagRider.Sends.step_cases` — everything a step can do.
* `DagRider.Sends.cached` — `Cached` holds after every run.
* `DagRider.Sends.Cached.exists_entry`, `DagRider.Sends.Cached.exists_socket`,
  `DagRider.Sends.Cached.entry_of_socket` — calls, entries and sockets.
-/

namespace DagRider

/-! ## One step -/

namespace Broadcaster

variable {valid : String → Bool} {b b' : Broadcaster} {send send' : Send}

/-- Change a socket. -/
def modify (b : Broadcaster) (k : ℕ) (f : Socket → Socket) : Broadcaster :=
  { b with sockets := b.sockets.modify k f }

/-- The cache after a new socket was made for an address. -/
def add (b : Broadcaster) (address : String) (port : Fin (2 ^ 16)) : Broadcaster :=
  ⟨b.connections.set (Layout.front _) address b.sockets.length,
    b.sockets ++ [⟨address, port, false, []⟩]⟩

/-- **What a call does before its first suspension**: it finds a socket in the cache, or makes
one. -/
lemma send_cases (valid : String → Bool) (b : Broadcaster) (c : Call) :
    (∃ k, b.connections.find? c.address = some k ∧
      b.send valid c.address c.port c.data = (b, .writing k c.data)) ∨
    (b.connections.find? c.address = none ∧
      (valid c.address = true ∧ b.send valid c.address c.port c.data =
          (b.add c.address c.port, .connecting b.sockets.length c.data) ∨
        valid c.address = false ∧
          b.send valid c.address c.port c.data = (b.add c.address c.port, .failed))) := by
  unfold send
  cases hf : b.connections.find? c.address with
  | some k => exact Or.inl ⟨k, rfl, rfl⟩
  | none =>
    refine Or.inr ⟨rfl, ?_⟩
    cases hv : valid c.address with
    | true => exact Or.inl ⟨rfl, rfl⟩
    | false => exact Or.inr ⟨rfl, rfl⟩

/-- What a call is that has started: it is about to write all its data, or to connect, or has
failed because its address cannot be parsed. -/
lemma send_started {c : Call} (h : b.send valid c.address c.port c.data = (b', send)) :
    (∃ k, send = .writing k c.data) ∨
    (∃ k, send = .connecting k c.data ∧ valid c.address = true) ∨
    send = .failed ∧ valid c.address = false := by
  rcases send_cases valid b c with ⟨k, -, heq⟩ | ⟨-, ⟨hv, heq⟩ | ⟨hv, heq⟩⟩
  · exact Or.inl ⟨k, (Prod.mk.inj (h.symm.trans heq)).2⟩
  · exact Or.inr (Or.inl ⟨_, (Prod.mk.inj (h.symm.trans heq)).2, hv⟩)
  · exact Or.inr (Or.inr ⟨(Prod.mk.inj (h.symm.trans heq)).2, hv⟩)

/-- The sockets after a call has started: those before, and perhaps one for its address. -/
lemma send_sockets {c : Call} (h : b.send valid c.address c.port c.data = (b', send)) {j : ℕ}
    {sock : Socket} (hj : b'.sockets[j]? = some sock) :
    b.sockets[j]? = some sock ∨
    (b.connections.find? c.address = none ∧ j = b.sockets.length ∧
      sock = ⟨c.address, c.port, false, []⟩ ∧
      (send = .connecting b.sockets.length c.data ∨
        send = .failed ∧ valid c.address = false)) := by
  -- a socket made for the call
  have hadd : (b.add c.address c.port).sockets[j]? = some sock →
      b.sockets[j]? = some sock ∨ j = b.sockets.length ∧ sock = ⟨c.address, c.port, false, []⟩ := by
    intro hj
    unfold add at hj
    rw [List.getElem?_append] at hj
    split_ifs at hj with hlt
    · exact Or.inl hj
    · rw [List.getElem?_singleton] at hj
      split_ifs at hj with h0
      exact Or.inr ⟨by omega, (Option.some.inj hj).symm⟩
  rcases send_cases valid b c with ⟨k, -, heq⟩ | ⟨hnone, ⟨hv, heq⟩ | ⟨hv, heq⟩⟩
  · obtain ⟨rfl, -⟩ := Prod.mk.inj (h.symm.trans heq)
    exact Or.inl hj
  · obtain ⟨rfl, hsend⟩ := Prod.mk.inj (h.symm.trans heq)
    exact (hadd hj).imp_right fun ⟨hlen, hsock⟩ => ⟨hnone, hlen, hsock, Or.inl hsend⟩
  · obtain ⟨rfl, hsend⟩ := Prod.mk.inj (h.symm.trans heq)
    exact (hadd hj).imp_right fun ⟨hlen, hsock⟩ => ⟨hnone, hlen, hsock, Or.inr ⟨hsend, hv⟩⟩

/-- **Everything a resumption can do.** -/
inductive Resumes (b : Broadcaster) : Send → IoResult → Broadcaster → Send → Prop
  /-- The connect succeeds, and the call goes on to write. -/
  | connected (k : ℕ) (data : Bytes) : Resumes b (.connecting k data) .connected
      (b.modify k fun s => { s with connected := true }) (.writing k data)
  /-- The connect fails. -/
  | connectFailed (k : ℕ) (data : Bytes) :
      Resumes b (.connecting k data) .connectFailed b .failed
  /-- The rest of the data is written. -/
  | finished (k : ℕ) (rest : Bytes) (s : Socket) (hs : b.sockets[k]? = some s)
      (hc : s.connected = true) :
      Resumes b (.writing k rest) (.wrote rest.length)
        (b.modify k fun s => { s with stream := s.stream ++ rest }) .sent
  /-- A part of the data is written. -/
  | wrote (k : ℕ) (part rest : Bytes) (s : Socket) (hs : b.sockets[k]? = some s)
      (hc : s.connected = true) (hpart : part ≠ []) (hrest : rest ≠ []) :
      Resumes b (.writing k (part ++ rest)) (.wrote part.length)
        (b.modify k fun s => { s with stream := s.stream ++ part }) (.writing k rest)
  /-- The write fails. -/
  | writeFailed (k : ℕ) (rest : Bytes) :
      Resumes b (.writing k rest) .writeFailed b .failed

/-- A resumption does one of these. -/
lemma resume_cases {r : IoResult} (h : b.resume send r = some (b', send')) :
    Resumes b send r b' send' := by
  cases send with
  | connecting k data =>
    cases r with
    | connected =>
      obtain ⟨rfl, rfl⟩ := Prod.mk.inj (Option.some.inj h)
      exact .connected k data
    | connectFailed =>
      obtain ⟨rfl, rfl⟩ := Prod.mk.inj (Option.some.inj h)
      exact .connectFailed k data
    | wrote n => simp [resume] at h
    | writeFailed => simp [resume] at h
  | writing k rest =>
    cases r with
    | connected => simp [resume] at h
    | connectFailed => simp [resume] at h
    | writeFailed =>
      obtain ⟨rfl, rfl⟩ := Prod.mk.inj (Option.some.inj h)
      exact .writeFailed k rest
    | wrote n =>
      simp only [resume] at h
      cases hs : b.sockets[k]? with
      | none => simp [hs] at h
      | some s =>
        simp only [hs] at h
        split_ifs at h with hok hn
        · obtain ⟨rfl, rfl⟩ := Prod.mk.inj (Option.some.inj h)
          have hfull := Resumes.finished k rest s hs hok.1
          rw [hn, List.take_length]
          exact hfull
        · obtain ⟨rfl, rfl⟩ := Prod.mk.inj (Option.some.inj h)
          obtain ⟨hc, hle, hpos⟩ := hok
          have hlen : (rest.take n).length = n := List.length_take_of_le hle
          have hpart : rest.take n ≠ [] := by
            intro hnil
            rw [hnil, List.length_nil] at hlen
            rcases hpos with hpos | rfl
            · omega
            · exact hn hlen.symm
          have hrest : rest.drop n ≠ [] := by
            intro hnil
            have hlt := List.drop_eq_nil_iff.mp hnil
            omega
          have hwrote := Resumes.wrote k (rest.take n) (rest.drop n) s hs hc hpart hrest
          rw [List.take_append_drop, hlen] at hwrote
          exact hwrote
  | sent => cases r <;> simp [resume] at h
  | failed => cases r <;> simp [resume] at h

end Broadcaster

namespace Sends

variable {valid : String → Bool} {s s' t : Sends} {e : SendEvent} {es : List SendEvent}

/-- **Everything a step can do.** -/
theorem step_cases (h : step valid s e = some s') :
    (∃ c b send, e = .call c ∧ s.broadcaster.send valid c.address c.port c.data = (b, send) ∧
      s' = ⟨b, s.sends ++ [(c, send)]⟩) ∨
    (∃ i r c send b send', e = .io i r ∧ s.sends[i]? = some (c, send) ∧
      s.broadcaster.Resumes send r b send' ∧ s' = ⟨b, s.sends.set i (c, send')⟩) := by
  cases e with
  | call c => exact Or.inl ⟨c, _, _, rfl, rfl, (Option.some.inj h).symm⟩
  | io i r =>
    simp only [step, Option.bind_eq_bind] at h
    obtain ⟨⟨c, send⟩, hi, h⟩ := Option.bind_eq_some_iff.mp h
    obtain ⟨⟨b, send'⟩, hresume, h⟩ := Option.bind_eq_some_iff.mp h
    exact Or.inr ⟨i, r, c, send, b, send', rfl, hi, Broadcaster.resume_cases hresume,
      (Option.some.inj h).symm⟩

end Sends

/-! ## The cache -/

namespace Send

/-- The socket that a suspended call uses. -/
def socket? : Send → Option ℕ
  | connecting k _ | writing k _ => some k
  | sent | failed => none

end Send

namespace Socket

/-- The endpoint of a socket. -/
def endpoint (s : Socket) : String × Fin (2 ^ 16) := (s.address, s.port)

end Socket

namespace Broadcaster

variable {b b' : Broadcaster} {send send' : Send} {r : IoResult}

/-- The endpoint of a socket, by its place. -/
def endpoint? (b : Broadcaster) (k : ℕ) : Option (String × Fin (2 ^ 16)) :=
  (b.sockets[k]?).map Socket.endpoint

/-- A change that leaves the endpoint alone. -/
lemma endpoint?_modify {f : Socket → Socket} (hf : ∀ s, (f s).endpoint = s.endpoint) (k j : ℕ) :
    (b.modify k f).endpoint? j = b.endpoint? j := by
  unfold endpoint? modify
  rw [List.getElem?_modify]
  cases b.sockets[j]? with
  | none => rfl
  | some s => by_cases hk : k = j <;> simp [hk, hf]

/-- A resumption leaves the cache and the endpoints of the sockets alone. -/
lemma Resumes.frame (h : b.Resumes send r b' send') :
    b'.connections = b.connections ∧ ∀ k, b'.endpoint? k = b.endpoint? k := by
  cases h with
  | connected k => exact ⟨rfl, fun j => endpoint?_modify (by exact fun _ => rfl) k j⟩
  | connectFailed => exact ⟨rfl, fun _ => rfl⟩
  | finished k => exact ⟨rfl, fun j => endpoint?_modify (by exact fun _ => rfl) k j⟩
  | wrote k => exact ⟨rfl, fun j => endpoint?_modify (by exact fun _ => rfl) k j⟩
  | writeFailed => exact ⟨rfl, fun _ => rfl⟩

/-- A call goes on with the socket it has. -/
lemma Resumes.socket?_eq (h : b.Resumes send r b' send') {k : ℕ} (hk : send'.socket? = some k) :
    send.socket? = some k := by
  cases h with
  | connected => exact hk
  | wrote => exact hk
  | connectFailed | finished | writeFailed => simp [Send.socket?] at hk

/-- The endpoints after a socket was made. -/
lemma endpoint?_add {address : String} {port : Fin (2 ^ 16)} {k : ℕ} :
    (b.add address port).endpoint? k =
      if k = b.sockets.length then some (address, port) else b.endpoint? k := by
  unfold endpoint? add
  rw [List.getElem?_append]
  split_ifs with hlt hk hk
  · omega
  · rfl
  · rw [hk, Nat.sub_self]
    rfl
  · rw [List.getElem?_eq_none (by simpa using by omega),
      List.getElem?_eq_none (by omega : b.sockets.length ≤ k)]

end Broadcaster

namespace Sends

variable {valid : String → Bool} {s s' t : Sends} {e : SendEvent} {es : List SendEvent}

/-- The first call with an address. -/
def firstCall (s : Sends) (address : String) : Option Call :=
  s.calls.find? fun c : Call => c.address = address

/-- How the cache, the sockets and the calls fit together. -/
structure Cached (s : Sends) : Prop where
  /-- An entry leads to a socket with the endpoint of the first call with the address. -/
  entry : ∀ a k, s.broadcaster.connections.find? a = some k →
    ∃ c : Call, s.firstCall a = some c ∧ s.broadcaster.endpoint? k = some (a, c.port)
  /-- An address without an entry was never called. -/
  fresh : ∀ a, s.broadcaster.connections.find? a = none → s.firstCall a = none
  /-- Every socket has its entry. -/
  socket : ∀ k a port, s.broadcaster.endpoint? k = some (a, port) →
    s.broadcaster.connections.find? a = some k
  /-- A suspended call uses the socket of its address. -/
  uses : ∀ (i : ℕ) (c : Call) (send : Send) (k : ℕ), s.sends[i]? = some (c, send) →
    send.socket? = some k → s.broadcaster.connections.find? c.address = some k

/-- A broadcaster starts with an empty cache. -/
lemma cached_init : Cached init where
  entry := fun a k h => by simp [init, Broadcaster.new, UnorderedMap.find?] at h
  fresh := fun _ _ => rfl
  socket := fun k a port h => by simp [init, Broadcaster.new, Broadcaster.endpoint?] at h
  uses := fun i c send k h => by simp [init] at h

/-- The calls after a call has started. -/
@[simp] lemma calls_concat (b : Broadcaster) (sends : List (Call × Send)) (c : Call)
    (send : Send) : calls ⟨b, sends ++ [(c, send)]⟩ = sends.map Prod.fst ++ [c] := by
  simp [calls]

/-- A resumption starts no call. -/
lemma calls_set {i : ℕ} {c : Call} {send : Send} (b : Broadcaster) (send' : Send)
    (h : s.sends[i]? = some (c, send)) : calls ⟨b, s.sends.set i (c, send')⟩ = s.calls := by
  unfold calls
  rw [List.map_set]
  refine List.ext_getElem? fun j => ?_
  rw [List.getElem?_set]
  split_ifs with hij hlt
  · subst hij
    simp [h]
  · subst hij
    simpa using hlt
  · rfl

/-- The first call with an address once another call has started. -/
lemma firstCall_concat (b : Broadcaster) (c : Call) (send : Send) (address : String) :
    firstCall ⟨b, s.sends ++ [(c, send)]⟩ address =
      (s.firstCall address).or (if c.address = address then some c else none) := by
  unfold firstCall calls
  rw [List.map_append, List.find?_append]
  congr 1
  split_ifs with h <;> simp [h]

/-- The calls that are under way after one more has started. -/
lemma getElem?_concat_cases {sends : List (Call × Send)} {p q : Call × Send} {i : ℕ}
    (h : (sends ++ [p])[i]? = some q) : sends[i]? = some q ∨ i = sends.length ∧ q = p := by
  rw [List.getElem?_append] at h
  split_ifs at h with hlt
  · exact Or.inl h
  · rw [List.getElem?_singleton] at h
    split_ifs at h with h0
    exact Or.inr ⟨by omega, (Option.some.inj h).symm⟩

/-- A call that finds its socket in the cache. -/
lemma Cached.call_found (hs : s.Cached) {c : Call} {k : ℕ}
    (hk : s.broadcaster.connections.find? c.address = some k) :
    Cached ⟨s.broadcaster, s.sends ++ [(c, .writing k c.data)]⟩ where
  entry := by
    intro a j hj
    obtain ⟨d, hd, hend⟩ := hs.entry a j hj
    exact ⟨d, by rw [firstCall_concat, hd]; rfl, hend⟩
  fresh := by
    intro a ha
    rw [firstCall_concat, hs.fresh a ha, if_neg]
    · rfl
    · rintro rfl
      exact absurd (hk.symm.trans ha) (by simp)
  socket := hs.socket
  uses := by
    intro i d send j hi hj
    rcases getElem?_concat_cases hi with hi | ⟨-, hq⟩
    · exact hs.uses i d send j hi hj
    · obtain ⟨rfl, rfl⟩ := Prod.mk.inj hq
      obtain rfl := Option.some.inj hj
      exact hk

/-- A call that makes a new socket. -/
lemma Cached.call_fresh (hs : s.Cached) {c : Call} {send : Send}
    (hk : s.broadcaster.connections.find? c.address = none)
    (hsend : ∀ k, send.socket? = some k → k = s.broadcaster.sockets.length) :
    Cached ⟨s.broadcaster.add c.address c.port, s.sends ++ [(c, send)]⟩ where
  entry := by
    intro a j hj
    by_cases ha : a = c.address
    · subst ha
      obtain rfl : s.broadcaster.sockets.length = j := by
        simpa [Broadcaster.add] using hj
      refine ⟨c, ?_, ?_⟩
      · rw [firstCall_concat, hs.fresh _ hk, if_pos rfl]
        rfl
      · rw [Broadcaster.endpoint?_add, if_pos rfl]
    · have hj' : s.broadcaster.connections.find? a = some j := by
        rwa [Broadcaster.add, UnorderedMap.find?_set_of_ne ha] at hj
      obtain ⟨d, hd, hend⟩ := hs.entry a j hj'
      refine ⟨d, by rw [firstCall_concat, hd]; rfl, ?_⟩
      rw [Broadcaster.endpoint?_add, if_neg]
      · exact hend
      · rintro rfl
        simp [Broadcaster.endpoint?] at hend
  fresh := by
    intro a ha
    have hne : a ≠ c.address := by
      rintro rfl
      simp [Broadcaster.add] at ha
    rw [Broadcaster.add, UnorderedMap.find?_set_of_ne hne] at ha
    rw [firstCall_concat, hs.fresh a ha, if_neg hne.symm]
    rfl
  socket := by
    intro j a port hj
    rw [Broadcaster.endpoint?_add] at hj
    split_ifs at hj with hlen
    · obtain ⟨rfl, rfl⟩ := Prod.mk.inj (Option.some.inj hj)
      rw [hlen]
      simp [Broadcaster.add]
    · have hold := hs.socket j a port hj
      have hne : a ≠ c.address := by
        rintro rfl
        exact absurd (hk.symm.trans hold) (by simp)
      rwa [Broadcaster.add, UnorderedMap.find?_set_of_ne hne]
  uses := by
    intro i d send' j hi hj
    rcases getElem?_concat_cases hi with hi | ⟨-, hq⟩
    · have hold := hs.uses i d send' j hi hj
      have hne : d.address ≠ c.address := by
        intro heq
        rw [heq] at hold
        exact absurd (hk.symm.trans hold) (by simp)
      rwa [Broadcaster.add, UnorderedMap.find?_set_of_ne hne]
    · obtain ⟨rfl, rfl⟩ := Prod.mk.inj hq
      rw [hsend j hj]
      simp [Broadcaster.add]

/-- **One step keeps the cache in order.** -/
lemma Cached.step (hs : s.Cached) (h : step valid s e = some s') : s'.Cached := by
  rcases step_cases h with ⟨c, b, send, -, hsend, rfl⟩ |
    ⟨i, r, c, send, b, send', -, hi, hresume, rfl⟩
  · rcases Broadcaster.send_cases valid s.broadcaster c with
      ⟨k, hk, heq⟩ | ⟨hk, ⟨-, heq⟩ | ⟨-, heq⟩⟩
    · obtain ⟨rfl, rfl⟩ := Prod.mk.inj (hsend.symm.trans heq)
      exact hs.call_found hk
    · obtain ⟨rfl, rfl⟩ := Prod.mk.inj (hsend.symm.trans heq)
      exact hs.call_fresh hk fun k hk' => (Option.some.inj hk').symm
    · obtain ⟨rfl, rfl⟩ := Prod.mk.inj (hsend.symm.trans heq)
      exact hs.call_fresh hk fun k hk' => by simp [Send.socket?] at hk'
  · obtain ⟨hconn, hend⟩ := hresume.frame
    have hfirst : ∀ a, firstCall ⟨b, s.sends.set i (c, send')⟩ a = s.firstCall a := by
      intro a
      unfold firstCall
      rw [calls_set b send' hi]
    constructor
    · intro a k hk
      obtain ⟨d, hd, hdend⟩ := hs.entry a k (hconn ▸ hk)
      exact ⟨d, (hfirst a).trans hd, (hend k).trans hdend⟩
    · intro a ha
      exact (hfirst a).trans (hs.fresh a (hconn ▸ ha))
    · intro k a port hk
      have hold := hs.socket k a port ((hend k).symm.trans hk)
      exact hconn ▸ hold
    · intro j d send'' k hj hk
      have hold : s.broadcaster.connections.find? d.address = some k := by
        rw [List.getElem?_set] at hj
        split_ifs at hj with hij hlt
        · obtain ⟨rfl, rfl⟩ := Prod.mk.inj (Option.some.inj hj)
          exact hs.uses i c send k hi (hresume.socket?_eq hk)
        · exact hs.uses j d send'' k hj hk
      exact hconn ▸ hold

/-- **The cache is in order after every run.** -/
theorem cached (h : run valid es = some t) : t.Cached :=
  Run.invariant (I := Cached) (fun _ _ _ hs hstep => hs.step hstep) cached_init h

/-- An address that was called has an entry. -/
lemma Cached.exists_entry (hs : s.Cached) {c : Call} (hc : c ∈ s.calls) :
    ∃ k, s.broadcaster.connections.find? c.address = some k := by
  refine Option.ne_none_iff_exists'.mp fun hnone => ?_
  have hne := List.find?_eq_none.mp (hs.fresh _ hnone) c hc
  simp at hne

/-- The socket of an entry has its address, and the port of the first call with it. -/
lemma Cached.exists_socket (hs : s.Cached) {address : String} {k : ℕ}
    (hk : s.broadcaster.connections.find? address = some k) :
    ∃ (sock : Socket) (c : Call), s.broadcaster.sockets[k]? = some sock ∧
      s.firstCall address = some c ∧ sock.address = address ∧ sock.port = c.port := by
  obtain ⟨c, hc, hend⟩ := hs.entry address k hk
  obtain ⟨sock, hsock, hpair⟩ := Option.map_eq_some_iff.mp hend
  obtain ⟨haddr, hport⟩ := Prod.mk.inj hpair
  exact ⟨sock, c, hsock, hc, haddr, hport⟩

/-- A socket is found under its address. -/
lemma Cached.entry_of_socket (hs : s.Cached) {k : ℕ} {sock : Socket}
    (hk : s.broadcaster.sockets[k]? = some sock) :
    s.broadcaster.connections.find? sock.address = some k :=
  hs.socket k sock.address sock.port (by simp [Broadcaster.endpoint?, hk, Socket.endpoint])

end Sends

end DagRider
