import DagRider.Transport.Turns

set_option relaxedAutoImplicit false
set_option autoImplicit false

/-!
# Which endpoint a call reaches

The cache of a broadcaster is keyed by the address, so a call writes to the port of the first
call with its address. A list of calls reaches its endpoints just when no call asks for another
port of an address than the first one did.

## Main definitions

* `DagRider.Sends.Routes`, `DagRider.Sends.AlwaysRouted` — bytes go to the endpoint of their
  call, in one step and in every orderly run.
* `DagRider.Sends.ReachesAll` — a pass over endpoints puts its data on one connection each.

## Main results

* `DagRider.Sends.routed_iff` — exactly when.
-/

namespace DagRider

namespace Sends

variable {valid : String → Bool} {s s' t : Sends} {e : SendEvent} {es : List SendEvent}

/-! ## What the calls write -/

/-- What is written comes from the call's data, and goes to addresses that can be parsed. -/
structure Written (valid : String → Bool) (s : Sends) : Prop where
  /-- What is left is an end of the data. -/
  rest : ∀ (i : ℕ) (c : Call) (send : Send), s.sends[i]? = some (c, send) → send.rest <:+ c.data
  /-- Only a parsed address is connected to. -/
  connecting : ∀ (i : ℕ) (c : Call) (k : ℕ) (data : Bytes),
    s.sends[i]? = some (c, .connecting k data) → valid c.address = true
  /-- Only a parsed address has a connection. -/
  connected : ∀ (k : ℕ) (sock : Socket), s.broadcaster.sockets[k]? = some sock →
    sock.connected = true → valid sock.address = true

/-- Nothing was written. -/
lemma written_init : Written valid init where
  rest := fun i c send h => by simp [init] at h
  connecting := fun i c k data h => by simp [init] at h
  connected := fun k sock h => by simp [init, Broadcaster.new] at h

/-- A step that starts a call. -/
lemma Written.call (hs : s.Written valid) {c : Call} {b : Broadcaster} {send : Send}
    (h : s.broadcaster.send valid c.address c.port c.data = (b, send)) :
    Written valid ⟨b, s.sends ++ [(c, send)]⟩ := by
  have hnew := Broadcaster.send_started h
  constructor
  · intro i d send' hi
    rcases getElem?_concat_cases hi with hi | ⟨-, heq⟩
    · exact hs.rest i d send' hi
    · obtain ⟨rfl, rfl⟩ := Prod.mk.inj heq
      rcases hnew with ⟨k, rfl⟩ | ⟨k, rfl, -⟩ | ⟨rfl, -⟩
      · exact List.suffix_rfl
      · exact List.suffix_rfl
      · exact List.nil_suffix
  · intro i d k data hi
    rcases getElem?_concat_cases hi with hi | ⟨-, heq⟩
    · exact hs.connecting i d k data hi
    · obtain ⟨rfl, rfl⟩ := Prod.mk.inj heq
      rcases hnew with ⟨k', hsend⟩ | ⟨k', -, hv⟩ | ⟨hsend, -⟩
      · exact absurd hsend (by simp)
      · exact hv
      · exact absurd hsend (by simp)
  · intro k sock hk hc
    rcases Broadcaster.send_sockets h hk with hold | ⟨-, -, rfl, -⟩
    · exact hs.connected k sock hold hc
    · exact absurd hc (by simp)

/-- A call that goes on leaves an end of what was left before. -/
lemma rest_suffix {b b' : Broadcaster} {send send' : Send} {r : IoResult}
    (h : b.Resumes send r b' send') : send'.rest <:+ send.rest := by
  cases h with
  | connected => exact List.suffix_rfl
  | connectFailed => exact List.nil_suffix
  | finished => exact List.nil_suffix
  | wrote k part rest => exact List.suffix_append part rest
  | writeFailed => exact List.nil_suffix

/-- **One step.** -/
lemma Written.step (hs : s.Written valid) (hcached : s.Cached) (h : step valid s e = some s') :
    s'.Written valid := by
  rcases step_cases h with ⟨c, b, send, rfl, hsend, rfl⟩ |
    ⟨i, r, c, send, b, send', rfl, hi, hresume, rfl⟩
  · exact hs.call hsend
  constructor
  · intro j d send'' hj
    rcases getElem?_set_cases hj with ⟨-, heq⟩ | ⟨-, hj⟩
    · obtain ⟨rfl, rfl⟩ := Prod.mk.inj heq
      exact (rest_suffix hresume).trans (hs.rest i _ _ hi)
    · exact hs.rest j d send'' hj
  · intro j d k data hj
    rcases getElem?_set_cases hj with ⟨-, heq⟩ | ⟨-, hj⟩
    · obtain ⟨rfl, rfl⟩ := Prod.mk.inj heq
      cases hresume
    · exact hs.connecting j d k data hj
  · intro j sock hj hc
    cases hresume with
    | connected k data =>
      obtain ⟨old, hold, ⟨rfl, rfl⟩ | ⟨-, rfl⟩⟩ := Broadcaster.sockets_modify hj
      · -- the socket that is connected has the address of the call
        obtain ⟨sock', d, hsock', -, haddr, -⟩ :=
          hcached.exists_socket (hcached.uses i c _ j hi rfl)
        obtain rfl := Option.some.inj (hsock'.symm.trans hold)
        show valid sock'.address = true
        rw [haddr]
        exact hs.connecting i c j data hi
      · exact hs.connected j _ hold hc
    | connectFailed => exact hs.connected j sock hj hc
    | finished k rest =>
      obtain ⟨old, hold, ⟨rfl, rfl⟩ | ⟨-, rfl⟩⟩ := Broadcaster.sockets_modify hj
      · exact hs.connected j old hold hc
      · exact hs.connected j _ hold hc
    | wrote k part rest =>
      obtain ⟨old, hold, ⟨rfl, rfl⟩ | ⟨-, rfl⟩⟩ := Broadcaster.sockets_modify hj
      · exact hs.connected j old hold hc
      · exact hs.connected j _ hold hc
    | writeFailed => exact hs.connected j sock hj hc

/-- **Every run.** -/
theorem written (h : run valid es = some t) : t.Written valid := by
  refine (Run.invariant (I := fun s => s.Cached ∧ s.Written valid) ?_
    ⟨cached_init, written_init⟩ h).2
  rintro t e u ⟨hcached, hwritten⟩ hu
  exact ⟨hcached.step hu, hwritten.step hcached hu⟩

/-- Calls are only added. -/
lemma calls_run (h : Run.exec (step valid) s es = some t) : s.calls <+: t.calls := by
  refine Run.invariant (I := fun t => s.calls <+: t.calls) ?_ List.prefix_rfl h
  intro t e u ht hu
  rcases step_cases hu with ⟨c, b, send, rfl, hsend, rfl⟩ |
    ⟨i, r, c, send, b, send', rfl, hi, hresume, rfl⟩
  · rw [calls_concat]
    exact ht.trans (List.prefix_append _ _)
  · rwa [calls_set b send' hi]

/-! ## Calls one after another -/

/-- The bytes that an operation writes go to a socket with the endpoint of the call. -/
def Routes (s : Sends) : SendEvent → Prop
  | .io i (.wrote n) => 0 < n → ∀ p ∈ s.sends[i]?, ∀ k ∈ p.2.socket?,
    s.broadcaster.endpoint? k = some (p.1.address, p.1.port)
  | _ => True

instance (s : Sends) : DecidablePred s.Routes
  | .io i (.wrote n) => inferInstanceAs (Decidable (0 < n → ∀ p ∈ s.sends[i]?,
      ∀ k ∈ p.2.socket?, s.broadcaster.endpoint? k = some (p.1.address, p.1.port)))
  | .call _ | .io _ .connected | .io _ .connectFailed | .io _ .writeFailed => isTrue trivial

/-- Whenever these calls run one after another with connects that succeed, the bytes of each
go to its endpoint. -/
def AlwaysRouted (valid : String → Bool) (calls : List Call) : Prop :=
  ∀ (es : List SendEvent) (t : Sends), run valid es = some t →
    Run.Along (step valid) Orderly init es → t.calls = calls →
    Run.Along (step valid) Routes init es

/-- The port of the first call with an address. -/
def firstPort (calls : List Call) (address : String) : Option (Fin (2 ^ 16)) :=
  (calls.find? fun c : Call => c.address = address).map Call.port

/-- The first call stays the first one. -/
lemma firstPort_mono {calls calls' : List Call} {address : String} {port : Fin (2 ^ 16)}
    (hp : calls <+: calls') (h : firstPort calls address = some port) :
    firstPort calls' address = some port := by
  obtain ⟨more, rfl⟩ := hp
  unfold firstPort at h ⊢
  obtain ⟨c, hc, hport⟩ := Option.map_eq_some_iff.mp h
  rw [List.find?_append, hc]
  exact congrArg some hport

/-- **When calls are routed**: when each of them that writes anything asks for the port that the
first call with its address asked for.

**Proof sketch.** A call writes to the socket of its cache entry, which has the port of the first
call (`Cached`). For the converse the calls are run, each to its end (`exists_run_calls`); the
call with another port then writes to the port of the first one. -/
lemma alwaysRouted_iff (calls : List Call) :
    AlwaysRouted valid calls ↔ ∀ c ∈ calls, valid c.address = true → c.data ≠ [] →
      firstPort calls c.address = some c.port := by
  constructor
  · intro h c hc hv hdata
    obtain ⟨pre, post, rfl⟩ := List.append_of_mem hc
    cases hfirst : firstPort pre c.address with
    | none =>
      -- the call is the first one with its address
      unfold firstPort at hfirst ⊢
      rw [List.find?_append, Option.map_eq_none_iff.mp hfirst]
      simp
    | some port =>
      have hport := firstPort_mono (List.prefix_append pre (c :: post)) hfirst
      rw [hport]
      -- the calls before it, then the call, then the others
      obtain ⟨es, s, hes, hok, -, hcalls, hin, hret⟩ :=
        exists_run_calls pre (inTurn_init valid) fun p hp => by simp [init] at hp
      replace hcalls : s.calls = pre := hcalls
      obtain ⟨d, hd, hdport⟩ := Option.map_eq_some_iff.mp hfirst
      have hdmem : d ∈ s.calls := hcalls ▸ List.mem_of_find?_eq_some hd
      have hdaddr : d.address = c.address := by simpa using List.find?_some hd
      obtain ⟨k, hk⟩ := hin.cached.exists_entry hdmem
      rw [hdaddr] at hk
      obtain ⟨sock, d', hsock, hd', haddr, hport'⟩ := hin.cached.exists_socket hk
      rw [firstCall, hcalls, hd] at hd'
      obtain rfl := Option.some.inj hd'
      have hconn : sock.connected = true := by
        rcases hin.connected k sock hsock with hconn | hinvalid | ⟨i, d, data, hi⟩
        · exact hconn
        · rw [haddr, hv] at hinvalid
          exact absurd hinvalid (by simp)
        · exact (hret _ (List.mem_of_getElem? hi)).elim
      obtain ⟨u, t, hcall, hu, hwrote, hcalls', hret'⟩ :=
        run_found valid hret hk hsock hconn
      have hpair := Run.exec_cons_eq_some.mpr
        ⟨_, hcall, Run.exec_cons_eq_some.mpr ⟨_, hwrote, Run.exec_nil⟩⟩
      have hpairok : Run.Along (step valid) Orderly s
          [.call c, .io s.sends.length (.wrote c.data.length)] := by
        simp [Run.Along, Orderly, OneByOne, Connects, hret]
      obtain ⟨fs, w, hw, hok', -, hcallsw, -, -⟩ :=
        exists_run_calls post (hin.exec hpairok hpair) hret'
      have hrun := Run.exec_append_eq_some.mpr
        ⟨s, hes, Run.exec_append_eq_some.mpr ⟨t, hpair, hw⟩⟩
      have hroutes := h _ w hrun
        ((Run.along_append hes).mpr ⟨hok, (Run.along_append hpair).mpr ⟨hpairok, hok'⟩⟩)
        (by rw [hcallsw, hcalls', hcalls, List.append_assoc]; rfl)
      have hlast := ((Run.along_append hpair).mp ((Run.along_append hes).mp hroutes).2).1
      have hbad := (hlast.2 u hcall).1 (List.length_pos_iff.mpr hdata)
        (c, .writing k c.data) (by simp [hu]) k (by simp [Send.socket?])
      rw [hu, Broadcaster.endpoint?, hsock] at hbad
      rw [← hdport, ← hport']
      exact congrArg some (Prod.mk.inj (Option.some.inj hbad)).2
  · intro h es t ht hok hcalls
    refine Run.along_iff.mpr fun p e u hp hu => ?_
    obtain ⟨v, more, rfl, hstep, hmore⟩ := Run.step_of_exec ht hp hu
    have hwritten := written hu
    rcases step_cases hstep with ⟨c, b, send, rfl, hsend, rfl⟩ |
      ⟨i, r, c, send, b, send', rfl, hi, hresume, rfl⟩
    · trivial
    have hmem : c ∈ calls := by
      rw [← hcalls]
      refine (calls_run hmore).subset ?_
      rw [calls_set b send' hi]
      exact List.mem_map_of_mem (List.mem_of_getElem? hi)
    -- the socket a call writes to has the call's endpoint
    have hroute : ∀ k rest sock, send = .writing k rest → rest ≠ [] →
        u.broadcaster.sockets[k]? = some sock → sock.connected = true →
          u.broadcaster.endpoint? k = some (c.address, c.port) := by
      rintro k rest sock rfl hrest hsock hconn
      obtain ⟨sock', d, hsock', hd, haddr, hport⟩ :=
        (cached hu).exists_socket ((cached hu).uses i c _ k hi rfl)
      obtain rfl := Option.some.inj (hsock'.symm.trans hsock)
      have hvalid : valid c.address = true := by
        rw [← haddr]
        exact hwritten.connected k sock' hsock hconn
      have hdata : c.data ≠ [] := by
        rintro hnil
        have hsuffix := hwritten.rest i c _ hi
        rw [hnil, List.suffix_nil] at hsuffix
        exact hrest hsuffix
      have hfirst := h c hmem hvalid hdata
      have hd' : firstPort u.calls c.address = some d.port := congrArg (Option.map Call.port) hd
      have hcallsu : u.calls <+: calls := by
        rw [← hcalls]
        exact calls_run (Run.exec_append_eq_some.mpr
          ⟨_, Run.exec_cons_eq_some.mpr ⟨_, hstep, Run.exec_nil⟩, hmore⟩)
      have hport' := (firstPort_mono hcallsu hd').symm.trans hfirst
      rw [Broadcaster.endpoint?, hsock, Option.map_some, Socket.endpoint, haddr, hport,
        Option.some.inj hport']
    cases hresume with
    | connected | connectFailed | writeFailed => trivial
    | finished k rest sock hsock hconn =>
      intro hn p' hp' k' hk'
      obtain rfl := Option.some.inj (hi.symm.trans hp')
      obtain rfl := Option.some.inj hk'
      exact hroute _ rest sock rfl (List.length_pos_iff.mp hn) hsock hconn
    | wrote k part rest sock hsock hconn hpart hrest =>
      intro hn p' hp' k' hk'
      obtain rfl := Option.some.inj (hi.symm.trans hp')
      obtain rfl := Option.some.inj hk'
      exact hroute _ (part ++ rest) sock rfl (by simp [hpart]) hsock hconn

/-! ## One pass over endpoints -/

/-- The calls of one pass over endpoints with the same data. -/
def passCalls (endpoints : List Endpoint) (data : Bytes) : List Call :=
  endpoints.map fun e => e.call data

/-- Whenever a pass over these endpoints is complete, one call after the other and nothing
failing, each endpoint has exactly one connection, and it has the data. -/
def ReachesAll (valid : String → Bool) (endpoints : List Endpoint) : Prop :=
  ∀ (data : Bytes) (es : List SendEvent) (t : Sends), run valid es = some t →
    Run.Along (step valid) Orderly init es → (∀ e ∈ es, Writes e) →
    t.calls = passCalls endpoints data → t.AllReturned →
    ∀ e ∈ endpoints, ∃! k : ℕ, ∃ sock : Socket, t.broadcaster.sockets[k]? = some sock ∧
      sock.endpoint = (e.addressToString, e.port) ∧ data <:+: sock.stream

/-- **When a pass reaches all its endpoints**: when no two of them have the same address and
different ports.

**Proof sketch.** Every address has one socket (`Cached`), so two ports of one address are not
both reached. If each address has one port, the call of an endpoint has its data in the stream of
that socket (`streams`). -/
lemma reachesAll_iff (hvalid : ∀ e : Endpoint, valid e.addressToString = true)
    (endpoints : List Endpoint) :
    ReachesAll valid endpoints ↔
      ∀ e ∈ endpoints, ∀ f ∈ endpoints, e.address = f.address → e.port = f.port := by
  constructor
  · intro h e he f hf haddr
    obtain ⟨es, t, hes, hok, hw, hcalls, hin, hret⟩ :=
      exists_run_calls (passCalls endpoints []) (inTurn_init valid)
        fun p hp => by simp [init] at hp
    have hw := hw (by simpa [passCalls, Endpoint.call] using fun e _ => hvalid e)
    have hreach := h [] es t hes hok hw hcalls hret
    obtain ⟨k, ⟨sock, hsock, hend, -⟩, -⟩ := hreach e he
    obtain ⟨j, ⟨sock', hsock', hend', -⟩, -⟩ := hreach f hf
    have hk := hin.cached.entry_of_socket hsock
    have hj := hin.cached.entry_of_socket hsock'
    have htext : sock.address = sock'.address := by
      rw [show sock.address = e.addressToString from (Prod.mk.inj hend).1,
        show sock'.address = f.addressToString from (Prod.mk.inj hend').1]
      unfold Endpoint.addressToString
      rw [haddr]
    rw [htext] at hk
    obtain rfl := Option.some.inj (hk.symm.trans hj)
    obtain rfl := Option.some.inj (hsock.symm.trans hsock')
    exact (Prod.mk.inj (hend.symm.trans hend')).2
  · intro h data es t ht hok hw hcalls hret e he
    have hcached := cached ht
    have hcall : e.call data ∈ t.calls := by
      rw [hcalls]
      exact List.mem_map_of_mem he
    -- the socket of the address has the port of the first call, which is the endpoint's
    obtain ⟨k, hk⟩ := hcached.exists_entry hcall
    obtain ⟨sock, d, hsock, hd, haddr, hdport⟩ := hcached.exists_socket hk
    have hport : d.port = e.port := by
      have hdmem := List.mem_of_find?_eq_some hd
      have hdaddr : d.address = (e.call data).address := by simpa using List.find?_some hd
      rw [hcalls] at hdmem
      obtain ⟨f, hf, rfl⟩ := List.mem_map.mp hdmem
      exact h f hf e he (Endpoint.address_eq_of_addressToString hdaddr)
    have hend : sock.endpoint = (e.addressToString, e.port) := by
      rw [Socket.endpoint, haddr, hdport, hport]
      rfl
    refine ⟨k, ⟨sock, hsock, hend, ?_⟩, ?_⟩
    · have hstream := streams hok hw ht k sock hsock (by rw [haddr]; exact hvalid e)
      rw [restTo_of_returned hret, List.append_nil] at hstream
      rw [hstream, haddr]
      obtain ⟨p, hp, hpcall⟩ := List.mem_map.mp hcall
      refine List.infix_of_mem_flatten (List.mem_map.mpr ⟨p, hp, ?_⟩)
      rw [hpcall]
      exact if_pos rfl
    · rintro j ⟨sock', hsock', hpair', -⟩
      have hj := hcached.entry_of_socket hsock'
      rw [show sock'.address = e.addressToString from (Prod.mk.inj hpair').1] at hj
      exact (Option.some.inj (hk.symm.trans hj)).symm

/-- **What is routed.** Calls run one after another reach their endpoints exactly when each that
writes anything asks for the port that the first call with its address asked for; and one pass
over the node addresses, or the block receiver addresses, of a committee puts the data on one
connection per endpoint exactly when no two of them differ in the port alone. -/
theorem routed_iff (valid : String → Bool)
    (hvalid : ∀ e : Endpoint, valid e.addressToString = true) (calls : List Call)
    (committee : Committee) :
    (AlwaysRouted valid calls ↔ ∀ c ∈ calls, valid c.address = true → c.data ≠ [] →
      firstPort calls c.address = some c.port) ∧
    (ReachesAll valid committee.getNodeAddresses ↔
      ∀ e ∈ committee.getNodeAddresses, ∀ f ∈ committee.getNodeAddresses,
        e.address = f.address → e.port = f.port) ∧
    (ReachesAll valid committee.getBlockReceiverAddresses ↔
      ∀ e ∈ committee.getBlockReceiverAddresses, ∀ f ∈ committee.getBlockReceiverAddresses,
        e.address = f.address → e.port = f.port) :=
  ⟨alwaysRouted_iff calls, reachesAll_iff hvalid _, reachesAll_iff hvalid _⟩

/-- Two calls to different addresses are routed; the hard-coded committee is not reached. -/
theorem routed_iff_sample :
    AlwaysRouted (fun _ => true) [⟨"127.0.0.1", 1254, [1]⟩, ⟨"0.0.0.0", 1255, [1]⟩] ∧
    ¬ ReachesAll (fun _ => true)
      (Committee.new (Layout.front _) fun _ => 0).getBlockReceiverAddresses := by
  have h := routed_iff (fun _ => true) (fun _ => rfl)
    [⟨"127.0.0.1", 1254, [1]⟩, ⟨"0.0.0.0", 1255, [1]⟩]
    (Committee.new (Layout.front _) fun _ => 0)
  exact ⟨h.1.mpr (by decide), fun hall => absurd (h.2.2.mp hall) (by decide +kernel)⟩

/-- Two calls to two ports of one address are not both routed, and the hard-coded committee is
not reached in a pass. -/
theorem not_routed_committee :
    ¬ AlwaysRouted (fun _ => true) [⟨"0.0.0.0", 1254, [1]⟩, ⟨"0.0.0.0", 1255, [1]⟩] ∧
    ¬ ReachesAll (fun _ => true)
      (Committee.new (Layout.front _) fun _ => 0).getBlockReceiverAddresses := by
  refine ⟨fun h => ?_, fun h => ?_⟩
  · exact absurd ((alwaysRouted_iff _).mp h) (by decide)
  · exact absurd ((reachesAll_iff (fun _ => rfl) _).mp h) (by decide +kernel)

end Sends

end DagRider
