import DagRider.Transport.Routing

set_option relaxedAutoImplicit false
set_option autoImplicit false

/-!
# Calls at the same time

Calls on one broadcaster that interleave at their suspension points. Nothing keeps a call from
writing while another one is part-way through its data on the same socket; as long as that does
not happen, the stream of a socket consists of whole payloads.

## Main definitions

* `DagRider.Sends.PartWay` — a call has written a part of its data.
* `DagRider.Sends.Undisturbed` — a step that writes to no socket on which another call is
  part-way, and in which no write is refused.
* `DagRider.Sends.WholePayloads` — what the stream of a connection consists of.

## Main results

* `DagRider.Sends.payloads_whole` — runs of undisturbed steps.
-/

namespace DagRider

namespace Sends

variable {valid : String → Bool} {s s' t : Sends} {e : SendEvent} {es : List SendEvent}

/-- A call has written a part of its data on a socket, but not all. -/
def PartWay (k : ℕ) : Call × Send → Prop
  | (c, .writing k' rest) => k' = k ∧ rest ≠ c.data
  | (_, .connecting _ _) | (_, .sent) | (_, .failed) => False

instance (k : ℕ) : DecidablePred (PartWay k)
  | (c, .writing k' rest) => inferInstanceAs (Decidable (k' = k ∧ rest ≠ c.data))
  | (_, .connecting _ _) | (_, .sent) | (_, .failed) => isFalse id

/-- A write that fails is one on a socket that is not connected. -/
def WritesConnected (s : Sends) : SendEvent → Prop
  | .io i .writeFailed => ∀ p ∈ s.sends[i]?, ∀ k ∈ p.2.socket?,
    (s.broadcaster.sockets[k]?).any Socket.connected = false
  | _ => True

/-- A call hands over bytes only when no other call is part-way on its socket, and no write is
refused because the socket is not connected yet. -/
def Undisturbed (s : Sends) : SendEvent → Prop
  | .io i (.wrote n) => 0 < n → ∀ p ∈ s.sends[i]?, ∀ k ∈ p.2.socket?,
    ∀ j < s.sends.length, j ≠ i → ∀ q ∈ s.sends[j]?, ¬ PartWay k q
  | .io i .writeFailed => ∀ p ∈ s.sends[i]?, ∀ k ∈ p.2.socket?,
    (s.broadcaster.sockets[k]?).any Socket.connected = true
  | _ => True

instance (s : Sends) : DecidablePred s.WritesConnected
  | .io i .writeFailed => inferInstanceAs (Decidable (∀ p ∈ s.sends[i]?, ∀ k ∈ p.2.socket?,
      (s.broadcaster.sockets[k]?).any Socket.connected = false))
  | .call _ | .io _ .connected | .io _ .connectFailed | .io _ (.wrote _) => isTrue trivial

instance (s : Sends) : DecidablePred s.Undisturbed
  | .io i (.wrote n) => inferInstanceAs (Decidable (0 < n → ∀ p ∈ s.sends[i]?,
      ∀ k ∈ p.2.socket?, ∀ j < s.sends.length, j ≠ i → ∀ q ∈ s.sends[j]?, ¬ PartWay k q))
  | .io i .writeFailed => inferInstanceAs (Decidable (∀ p ∈ s.sends[i]?, ∀ k ∈ p.2.socket?,
      (s.broadcaster.sockets[k]?).any Socket.connected = true))
  | .call _ | .io _ .connected | .io _ .connectFailed => isTrue trivial

/-- The payloads that were sent to an address, in the order of their calls. -/
def sentTo (sends : List (Call × Send)) (address : String) : List Bytes :=
  sends.filterMap fun p =>
    if p.1.address = address ∧ p.2 = .sent then some p.1.data else none

/-- What was written of a payload that is not complete: nothing when no call is part-way on the
socket, and else what the only such call has written. -/
def InProgress (sends : List (Call × Send)) (k : ℕ) (part : Bytes) : Prop :=
  part = [] ∧ (∀ p ∈ sends, ¬ PartWay k p) ∨
  part ≠ [] ∧ ∃ (i : ℕ) (c : Call) (rest : Bytes), sends[i]? = some (c, .writing k rest) ∧
    c.data = part ++ rest ∧
    ∀ (j : ℕ) (p : Call × Send), sends[j]? = some p → PartWay k p → j = i

/-- The stream of a socket consists of whole payloads, one for each call that has sent its data,
and after them of what the one call that is part-way has written. -/
def KeepsWhole (s : Sends) (k : ℕ) (sock : Socket) : Prop :=
  ∃ (ps : List Bytes) (part : Bytes), ps.Perm (sentTo s.sends sock.address) ∧
    sock.stream = ps.flatten ++ part ∧ InProgress s.sends k part

/-- An address has one connection, and its stream consists of whole payloads; once all calls
have returned, of all payloads of the calls with the address, each of them once. -/
def WholePayloads (s : Sends) (address : String) : Prop :=
  ∃ (k : ℕ) (sock : Socket), s.broadcaster.sockets[k]? = some sock ∧ sock.address = address ∧
    (∀ (j : ℕ) (other : Socket), s.broadcaster.sockets[j]? = some other →
      other.address = address → j = k) ∧
    s.KeepsWhole k sock ∧
    (s.AllReturned → ∃ ps : List Bytes,
      ps.Perm ((s.calls.filter fun c : Call => c.address = address).map Call.data) ∧
      sock.stream = ps.flatten)

/-! ## What a call can be -/

/-- Where the calls can be, when no write fails. -/
structure UnderWay (valid : String → Bool) (s : Sends) : Prop where
  /-- A call that connects has written nothing. -/
  connecting : ∀ (i : ℕ) (c : Call) (k : ℕ) (data : Bytes),
    s.sends[i]? = some (c, .connecting k data) → data = c.data
  /-- A call that writes has written nothing, or has not written everything. -/
  writing : ∀ (i : ℕ) (c : Call) (k : ℕ) (rest : Bytes),
    s.sends[i]? = some (c, .writing k rest) → rest = c.data ∨ rest ≠ []
  /-- Only a call with an address that cannot be parsed has failed. -/
  failed : ∀ (i : ℕ) (c : Call), s.sends[i]? = some (c, .failed) → valid c.address = false

/-- No call has been made. -/
lemma underWay_init : UnderWay valid init where
  connecting := fun i c k data h => by simp [init] at h
  writing := fun i c k rest h => by simp [init] at h
  failed := fun i c h => by simp [init] at h

/-- **One step.** -/
lemma UnderWay.step (hs : UnderWay valid s) (hconnect : Connects e) (hwrite : Writes e)
    (h : step valid s e = some s') : UnderWay valid s' := by
  rcases step_cases h with ⟨c, b, send, rfl, hsend, rfl⟩ |
    ⟨i, r, c, send, b, send', rfl, hi, hresume, rfl⟩
  · have hnew := Broadcaster.send_started hsend
    constructor
    · intro j d k data hj
      rcases getElem?_concat_cases hj with hj | ⟨-, heq⟩
      · exact hs.connecting j d k data hj
      · obtain ⟨rfl, rfl⟩ := Prod.mk.inj heq
        rcases hnew with ⟨k', h⟩ | ⟨k', h, -⟩ | ⟨h, -⟩
        · exact absurd h (by simp)
        · exact (Send.connecting.inj h).2
        · exact absurd h (by simp)
    · intro j d k rest hj
      rcases getElem?_concat_cases hj with hj | ⟨-, heq⟩
      · exact hs.writing j d k rest hj
      · obtain ⟨rfl, rfl⟩ := Prod.mk.inj heq
        rcases hnew with ⟨k', h⟩ | ⟨k', h, -⟩ | ⟨h, -⟩
        · exact Or.inl (Send.writing.inj h).2
        · exact absurd h (by simp)
        · exact absurd h (by simp)
    · intro j d hj
      rcases getElem?_concat_cases hj with hj | ⟨-, heq⟩
      · exact hs.failed j d hj
      · obtain ⟨rfl, rfl⟩ := Prod.mk.inj heq
        rcases hnew with ⟨k', h⟩ | ⟨k', h, -⟩ | ⟨-, hv⟩
        · exact absurd h (by simp)
        · exact absurd h (by simp)
        · exact hv
  · constructor
    · intro j d k data hj
      rcases getElem?_set_cases hj with ⟨-, heq⟩ | ⟨-, hj⟩
      · obtain ⟨rfl, rfl⟩ := Prod.mk.inj heq
        cases hresume
      · exact hs.connecting j d k data hj
    · intro j d k rest hj
      rcases getElem?_set_cases hj with ⟨-, heq⟩ | ⟨-, hj⟩
      · obtain ⟨rfl, rfl⟩ := Prod.mk.inj heq
        cases hresume with
        | connected => exact Or.inl (hs.connecting i _ _ _ hi)
        | wrote _ _ _ _ _ _ _ hrest => exact Or.inr hrest
      · exact hs.writing j d k rest hj
    · intro j d hj
      rcases getElem?_set_cases hj with ⟨-, heq⟩ | ⟨-, hj⟩
      · obtain ⟨rfl, rfl⟩ := Prod.mk.inj heq
        cases hresume with
        | connectFailed => exact hconnect.elim
        | writeFailed => exact hwrite.elim
      · exact hs.failed j d hj

/-! ## Whole payloads -/

/-- A list with one place named. -/
lemma exists_split {sends : List (Call × Send)} {p : Call × Send} {i : ℕ}
    (h : sends[i]? = some p) :
    ∃ pre post, sends = pre ++ p :: post ∧ ∀ q, sends.set i q = pre ++ q :: post := by
  obtain ⟨hlt, rfl⟩ := List.getElem?_eq_some_iff.mp h
  refine ⟨sends.take i, sends.drop (i + 1), ?_, fun q => ?_⟩
  · rw [← List.drop_eq_getElem_cons hlt, List.take_append_drop]
  · rw [List.set_eq_take_append_cons_drop, if_pos hlt]

/-- What was sent does not change when a call neither was nor is sent. -/
lemma sentTo_set_of_ne {sends : List (Call × Send)} {i : ℕ} {c : Call} {send send' : Send}
    (hi : sends[i]? = some (c, send)) (hsend : send ≠ .sent) (hsend' : send' ≠ .sent)
    (address : String) : sentTo (sends.set i (c, send')) address = sentTo sends address := by
  obtain ⟨pre, post, rfl, hset⟩ := exists_split hi
  simp [hset, sentTo, hsend, hsend']

/-- A call to another address does not count. -/
lemma sentTo_set_of_address_ne {sends : List (Call × Send)} {i : ℕ} {c : Call}
    {send send' : Send} {address : String} (hi : sends[i]? = some (c, send))
    (ha : c.address ≠ address) :
    sentTo (sends.set i (c, send')) address = sentTo sends address := by
  obtain ⟨pre, post, rfl, hset⟩ := exists_split hi
  simp [hset, sentTo, ha]

/-- A call that is sent adds its data. -/
lemma sentTo_set_sent {sends : List (Call × Send)} {i : ℕ} {c : Call} {send : Send}
    (hi : sends[i]? = some (c, send)) (hsend : send ≠ .sent) :
    (sentTo (sends.set i (c, .sent)) c.address).Perm (c.data :: sentTo sends c.address) := by
  obtain ⟨pre, post, rfl, hset⟩ := exists_split hi
  simp [hset, sentTo, hsend]

/-- A call that starts has sent nothing. -/
lemma sentTo_concat {sends : List (Call × Send)} {c : Call} {send : Send}
    (hsend : send ≠ .sent) (address : String) :
    sentTo (sends ++ [(c, send)]) address = sentTo sends address := by
  simp [sentTo, hsend]

/-- The payload in progress depends on the calls that are part-way only. -/
lemma InProgress.congr {sends sends' : List (Call × Send)} {k : ℕ} {part : Bytes}
    (h : InProgress sends k part)
    (hsame : ∀ (j : ℕ) (p : Call × Send), PartWay k p →
      (sends'[j]? = some p ↔ sends[j]? = some p)) : InProgress sends' k part := by
  rcases h with ⟨rfl, hidle⟩ | ⟨hpart, i, c, rest, hi, hdata, honly⟩
  · refine Or.inl ⟨rfl, fun p hp hway => ?_⟩
    obtain ⟨j, hj⟩ := List.mem_iff_getElem?.mp hp
    exact hidle p (List.mem_of_getElem? ((hsame j p hway).mp hj)) hway
  · have hway : PartWay k (c, .writing k rest) := ⟨rfl, by simp [hdata, hpart]⟩
    refine Or.inr ⟨hpart, i, c, rest, (hsame i _ hway).mpr hi, hdata, fun j p hj hp => ?_⟩
    exact honly j p ((hsame j p hp).mp hj) hp

/-- A new call is not part-way. -/
lemma partWay_concat {sends : List (Call × Send)} {k : ℕ} {p : Call × Send}
    (hp : ¬ PartWay k p) (j : ℕ) (q : Call × Send) (hq : PartWay k q) :
    (sends ++ [p])[j]? = some q ↔ sends[j]? = some q := by
  constructor
  · intro h
    rcases getElem?_concat_cases h with h | ⟨-, rfl⟩
    · exact h
    · exact absurd hq hp
  · intro h
    rwa [List.getElem?_append_left (List.getElem?_eq_some_iff.mp h).1]

/-- A call that goes on, part-way neither before nor after. -/
lemma partWay_set {sends : List (Call × Send)} {i k : ℕ} {p p' : Call × Send}
    (hi : sends[i]? = some p) (hp : ¬ PartWay k p) (hp' : ¬ PartWay k p') (j : ℕ)
    (q : Call × Send) (hq : PartWay k q) :
    (sends.set i p')[j]? = some q ↔ sends[j]? = some q := by
  constructor
  · intro h
    rcases getElem?_set_cases h with ⟨-, rfl⟩ | ⟨-, h⟩
    · exact absurd hq hp'
    · exact h
  · intro h
    have hij : i ≠ j := by
      rintro rfl
      obtain rfl := Option.some.inj (hi.symm.trans h)
      exact hp hq
    rwa [List.getElem?_set_ne hij]

/-- When no other call is part-way on its socket, what a call has written of its data is the
payload in progress. -/
lemma InProgress.data_eq {sends : List (Call × Send)} {i k : ℕ} {c : Call} {part rest : Bytes}
    (h : InProgress sends k part) (hi : sends[i]? = some (c, .writing k rest))
    (hother : ∀ (j : ℕ) (p : Call × Send), sends[j]? = some p → PartWay k p → j = i) :
    c.data = part ++ rest := by
  rcases h with ⟨rfl, hidle⟩ | ⟨hpart, i', c', rest', hi', hdata, -⟩
  · by_contra hne
    exact hidle _ (List.mem_of_getElem? hi) ⟨rfl, fun h => hne h.symm⟩
  · have hway : PartWay k (c', .writing k rest') := ⟨rfl, by simp [hdata, hpart]⟩
    obtain rfl := hother i' _ hi' hway
    obtain ⟨rfl, hsend⟩ := Prod.mk.inj (Option.some.inj (hi.symm.trans hi'))
    rw [hdata, (Send.writing.inj hsend).2]

/-- A step that leaves the part-way calls, what was sent and the stream of a socket alone. -/
lemma KeepsWhole.congr {k : ℕ} {sock sock' : Socket} (h : s.KeepsWhole k sock)
    (hstream : sock'.stream = sock.stream) (haddr : sock'.address = sock.address)
    (hsent : sentTo s'.sends sock.address = sentTo s.sends sock.address)
    (hsame : ∀ (j : ℕ) (p : Call × Send), PartWay k p →
      (s'.sends[j]? = some p ↔ s.sends[j]? = some p)) : s'.KeepsWhole k sock' := by
  obtain ⟨ps, part, hperm, heq, hpart⟩ := h
  exact ⟨ps, part, by rw [haddr, hsent]; exact hperm, hstream.trans heq, hpart.congr hsame⟩

/-- A step that starts a call. -/
lemma KeepsWhole.call (hs : ∀ (k : ℕ) (sock : Socket), s.broadcaster.sockets[k]? = some sock →
      s.KeepsWhole k sock) (hcached : s.Cached) {c : Call} {b : Broadcaster} {send : Send}
    (h : s.broadcaster.send valid c.address c.port c.data = (b, send)) (k : ℕ) (sock : Socket)
    (hk : b.sockets[k]? = some sock) : KeepsWhole ⟨b, s.sends ++ [(c, send)]⟩ k sock := by
  have hnew : send ≠ .sent ∧ ∀ j, ¬ PartWay j (c, send) := by
    rcases Broadcaster.send_started h with ⟨k', rfl⟩ | ⟨k', rfl, -⟩ | ⟨rfl, -⟩
    · exact ⟨by simp, fun j hj => hj.2 rfl⟩
    · exact ⟨by simp, fun j hj => hj⟩
    · exact ⟨by simp, fun j hj => hj⟩
  rcases Broadcaster.send_sockets h hk with hold | ⟨hnone, rfl, rfl, -⟩
  · exact (hs k sock hold).congr rfl rfl (sentTo_concat hnew.1 _) (partWay_concat (hnew.2 k))
  · -- a new socket has no stream, and no call uses it
    refine ⟨[], [], ?_, rfl, Or.inl ⟨rfl, fun p hp hway => ?_⟩⟩
    · have hnosent : sentTo s.sends c.address = [] := by
        refine List.filterMap_eq_nil_iff.mpr fun p hp => if_neg fun ha => ?_
        have hne := List.find?_eq_none.mp (hcached.fresh _ hnone) p.1 (List.mem_map_of_mem hp)
        simp [ha.1] at hne
      rw [sentTo_concat hnew.1, hnosent]
    · obtain ⟨j, hj⟩ := List.mem_iff_getElem?.mp hp
      have hj := (partWay_concat (hnew.2 _) j p hway).mp hj
      obtain ⟨d, send'⟩ := p
      cases send' with
      | writing k' rest =>
        obtain ⟨rfl, -⟩ := hway
        obtain ⟨sock, d', hsock, -⟩ := hcached.exists_socket (hcached.uses j d _ _ hj rfl)
        simp at hsock
      | connecting => exact hway
      | sent => exact hway
      | failed => exact hway

/-- A step in which a call goes on. -/
lemma KeepsWhole.io (hs : ∀ (k : ℕ) (sock : Socket), s.broadcaster.sockets[k]? = some sock →
      s.KeepsWhole k sock) (hcached : s.Cached) (hway : UnderWay valid s) {i : ℕ} {r : IoResult}
    {c : Call} {send send' : Send} {b : Broadcaster} (hi : s.sends[i]? = some (c, send))
    (hresume : s.broadcaster.Resumes send r b send') (hconnect : Connects (.io i r))
    (hwrite : Writes (.io i r)) (hok : s.Undisturbed (.io i r)) (k : ℕ) (sock : Socket)
    (hk : b.sockets[k]? = some sock) :
    KeepsWhole ⟨b, s.sends.set i (c, send')⟩ k sock := by
  -- the socket the call writes to has its address, and another socket has another one
  have haddr : ∀ j (old : Socket), send.socket? = some j →
      s.broadcaster.sockets[k]? = some old → (old.address = c.address ↔ k = j) := by
    intro j old hj hold
    have huses := hcached.uses i c send j hi hj
    constructor
    · intro ha
      have hentry := hcached.entry_of_socket hold
      rw [ha, huses] at hentry
      exact (Option.some.inj hentry).symm
    · rintro rfl
      obtain ⟨sock', d, hsock', -, ha, -⟩ := hcached.exists_socket huses
      obtain rfl := Option.some.inj (hsock'.symm.trans hold)
      exact ha
  -- with more than nothing to write, no other call is part-way on the socket
  have halone : ∀ j rest n, send = .writing j rest → r = .wrote n → 0 < n →
      ∀ (l : ℕ) (p : Call × Send), s.sends[l]? = some p → PartWay j p → l = i := by
    rintro j rest n rfl rfl hn l p hl hp
    by_contra hne
    exact hok hn _ hi j rfl l (List.getElem?_eq_some_iff.mp hl).1 hne p hl hp
  cases hresume with
  | connected j data =>
    obtain rfl := hway.connecting i c j data hi
    obtain ⟨old, hold, hcase⟩ := Broadcaster.sockets_modify hk
    have hsame : sock.stream = old.stream ∧ sock.address = old.address := by
      rcases hcase with ⟨-, rfl⟩ | ⟨-, rfl⟩ <;> exact ⟨rfl, rfl⟩
    exact (hs k old hold).congr hsame.1 hsame.2 (sentTo_set_of_ne hi (by simp) (by simp) _)
      (partWay_set hi id fun h => h.2 rfl)
  | connectFailed => exact hconnect.elim
  | writeFailed => exact hwrite.elim
  | finished j rest =>
    obtain ⟨old, hold, ⟨rfl, rfl⟩ | ⟨hne, rfl⟩⟩ := Broadcaster.sockets_modify hk
    · have ha : c.address = old.address := ((haddr k old rfl hold).mpr rfl).symm
      obtain ⟨ps, part, hperm, hstream, hpart⟩ := hs k old hold
      have hperm' : (ps ++ [c.data]).Perm
          (sentTo (s.sends.set i (c, .sent)) old.address) := by
        rw [← ha] at hperm ⊢
        exact (List.perm_append_singleton c.data ps).trans
          ((hperm.cons c.data).trans (sentTo_set_sent hi (by simp)).symm)
      by_cases hrest : rest = []
      · -- no data at all
        subst hrest
        have hdata : c.data = [] := by
          rcases hway.writing i c k [] hi with h | h
          · exact h.symm
          · exact absurd rfl h
        refine ⟨ps ++ [c.data], part, hperm', ?_, hpart.congr (partWay_set hi ?_ id)⟩
        · simp [hstream, hdata]
        · exact fun h => h.2 hdata.symm
      · have hother := halone k rest _ rfl rfl (List.length_pos_iff.mpr hrest)
        have hdata := hpart.data_eq hi hother
        refine ⟨ps ++ [c.data], [], hperm', ?_, Or.inl ⟨rfl, fun p hp hpw => ?_⟩⟩
        · simp [hstream, hdata]
        · obtain ⟨l, hl⟩ := List.mem_iff_getElem?.mp hp
          rcases getElem?_set_cases hl with ⟨-, rfl⟩ | ⟨hil, hl⟩
          · exact hpw
          · exact hil (hother l p hl hpw).symm
    · have ha : c.address ≠ sock.address := fun ha => hne ((haddr j sock rfl hold).mp ha.symm)
      exact (hs k sock hold).congr rfl rfl (sentTo_set_of_address_ne hi ha)
        (partWay_set hi (fun h => hne h.1.symm) id)
  | wrote j new rest _ _ _ hnew hrest =>
    obtain ⟨old, hold, ⟨rfl, rfl⟩ | ⟨hne, rfl⟩⟩ := Broadcaster.sockets_modify hk
    · obtain ⟨ps, part, hperm, hstream, hpart⟩ := hs k old hold
      have hother := halone k (new ++ rest) _ rfl rfl (List.length_pos_iff.mpr hnew)
      have hdata := hpart.data_eq hi hother
      refine ⟨ps, part ++ new, ?_, ?_, Or.inr ⟨by simp [hnew], i, c, rest, ?_, ?_, ?_⟩⟩
      · rw [sentTo_set_of_ne hi (by simp) (by simp)]
        exact hperm
      · simp [hstream]
      · simp [(List.getElem?_eq_some_iff.mp hi).1]
      · rw [hdata, List.append_assoc]
      · intro l p hl hp
        rcases getElem?_set_cases hl with ⟨hil, -⟩ | ⟨-, hl⟩
        · exact hil.symm
        · exact hother l p hl hp
    · exact (hs k sock hold).congr rfl rfl (sentTo_set_of_ne hi (by simp) (by simp) _)
        (partWay_set hi (fun h => hne h.1.symm) fun h => hne h.1.symm)

/-! ## Every run -/

/-- A write that fails is refused, or fails on a connected socket. -/
lemma writes_of_undisturbed (h : step valid s e = some s') (hwrite : s.WritesConnected e)
    (hok : s.Undisturbed e) : Writes e := by
  rcases step_cases h with ⟨c, b, send, rfl, hsend, rfl⟩ |
    ⟨i, r, c, send, b, send', rfl, hi, hresume, rfl⟩
  · trivial
  · cases hresume with
    | writeFailed k rest => simpa [hwrite _ hi k rfl] using hok _ hi k rfl
    | connected => trivial
    | connectFailed => trivial
    | finished => trivial
    | wrote => trivial

/-- When all calls have returned and none has failed, everything was sent. -/
lemma UnderWay.sentTo_eq (hs : UnderWay valid s) (hret : s.AllReturned) {address : String}
    (hv : valid address = true) :
    sentTo s.sends address =
      (s.calls.filter fun c : Call => c.address = address).map Call.data := by
  have hsent : ∀ p ∈ s.sends, p.1.address = address → p.2 = .sent := by
    rintro ⟨c, send⟩ hp rfl
    obtain ⟨i, hi⟩ := List.mem_iff_getElem?.mp hp
    cases send with
    | sent => rfl
    | failed => exact absurd (hv.symm.trans (hs.failed i c hi)) (by simp)
    | connecting => exact (hret _ hp).elim
    | writing => exact (hret _ hp).elim
  unfold sentTo calls
  rw [List.filter_map, List.map_map, ← List.filterMap_eq_map, ← List.filterMap_eq_filter,
    List.filterMap_filterMap]
  refine List.filterMap_congr fun p hp => ?_
  by_cases ha : p.1.address = address
  · simp [Option.guard, ha, hsent p hp ha]
  · simp [Option.guard, ha]

/-- Where the calls are, and what the sockets have, after every undisturbed run. -/
lemma keepsWhole (h : run valid es = some t) (hconnect : ∀ e ∈ es, Connects e)
    (hwrite : Run.Along (step valid) WritesConnected init es)
    (hok : Run.Along (step valid) Undisturbed init es) :
    UnderWay valid t ∧ ∀ (k : ℕ) (sock : Socket), t.broadcaster.sockets[k]? = some sock →
      t.KeepsWhole k sock := by
  refine Run.prefix_induction
    (J := fun _ t => UnderWay valid t ∧ ∀ (k : ℕ) (sock : Socket),
      t.broadcaster.sockets[k]? = some sock → t.KeepsWhole k sock) ?_ ?_ h
  · refine ⟨underWay_init, fun k sock hk => ?_⟩
    simp [init, Broadcaster.new] at hk
  · rintro p t e u hpre hp ⟨hway, hwhole⟩ hu
    have hconn := hconnect e (hpre.subset (by simp))
    have hdist := Run.along_iff.mp hok p e t hpre hp
    have hw := writes_of_undisturbed hu (Run.along_iff.mp hwrite p e t hpre hp) hdist
    refine ⟨hway.step hconn hw hu, ?_⟩
    rcases step_cases hu with ⟨c, b, send, rfl, hsend, rfl⟩ |
      ⟨i, r, c, send, b, send', rfl, hi, hresume, rfl⟩
    · exact KeepsWhole.call hwhole (cached hp) hsend
    · exact KeepsWhole.io hwhole (cached hp) hway hi hresume hconn hw hdist

/-- **Payloads stay whole in undisturbed runs.** In every run in which connects succeed, only
writes on sockets that are not connected fail, no write is refused in that way, and no call hands
over bytes while another one is part-way through its data on the same socket, the stream of each
connection consists of whole payloads.

**Proof sketch.** `keepsWhole`: by induction over the run, the stream of a socket is a
concatenation of the payloads that were sent, followed by what the one part-way call has written.
A call that writes is that call, or there is none. -/
theorem payloads_whole (valid : String → Bool) {es : List SendEvent} {t : Sends}
    (h : run valid es = some t) (hconnect : ∀ e ∈ es, Connects e)
    (hwrite : Run.Along (step valid) WritesConnected init es)
    (hok : Run.Along (step valid) Undisturbed init es) {address : String}
    (hv : valid address = true) (hcalled : ∃ c ∈ t.calls, c.address = address) :
    t.WholePayloads address := by
  obtain ⟨hway, hwhole⟩ := keepsWhole h hconnect hwrite hok
  have hcached := cached h
  obtain ⟨c, hc, rfl⟩ := hcalled
  obtain ⟨k, hk⟩ := hcached.exists_entry hc
  obtain ⟨sock, d, hsock, -, haddr, -⟩ := hcached.exists_socket hk
  refine ⟨k, sock, hsock, haddr, ?_, hwhole k sock hsock, fun hret => ?_⟩
  · intro j other hj ha
    have hentry := hcached.entry_of_socket hj
    rw [ha] at hentry
    exact Option.some.inj (hentry.symm.trans hk)
  · obtain ⟨ps, part, hperm, hstream, hpart⟩ := hwhole k sock hsock
    rw [haddr, hway.sentTo_eq hret hv] at hperm
    refine ⟨ps, hperm, ?_⟩
    rcases hpart with ⟨rfl, -⟩ | ⟨-, i, c, rest, hi, -⟩
    · rw [hstream, List.append_nil]
    · exact (hret _ (List.mem_of_getElem? hi)).elim

/-- Two calls to one endpoint; the first one connects and writes a half of its data. -/
def sampleCalls : List SendEvent :=
  [.call ⟨"0.0.0.0", 1254, [1, 2]⟩, .call ⟨"0.0.0.0", 1254, [3, 4]⟩, .io 0 .connected,
    .io 0 (.wrote 1)]

/-- The second call writes when the first one is done. -/
theorem payloads_whole_sample :
    ∃ t, run (fun _ => true) (sampleCalls ++ [.io 0 (.wrote 1), .io 1 (.wrote 2)]) = some t ∧
      t.WholePayloads "0.0.0.0" := by
  have hrun : (run (fun _ => true)
      (sampleCalls ++ [.io 0 (.wrote 1), .io 1 (.wrote 2)])).any
        (fun t => decide (∃ c ∈ t.calls, c.address = "0.0.0.0")) = true := by
    decide +kernel
  obtain ⟨t, ht, hcalled⟩ := Run.exists_exec_of_any hrun
  exact ⟨t, ht, payloads_whole (fun _ => true) ht (by decide +kernel) (by decide +kernel)
    (by decide +kernel) rfl (by simpa using hcalled)⟩

/-- The second call writes while the first one is part-way. Connects and writes succeed, the
calls have the same endpoint, and the first payload is torn. -/
theorem not_wholePayloads :
    ∃ es t, run (fun _ => true) es = some t ∧ (∀ e ∈ es, Connects e ∧ Writes e) ∧
      (∀ c ∈ t.calls, c.address = "0.0.0.0" ∧ c.port = 1254) ∧ t.AllReturned ∧
      ¬ t.WholePayloads "0.0.0.0" := by
  have hrun : (run (fun _ => true)
      (sampleCalls ++ [.io 1 (.wrote 2), .io 0 (.wrote 1)])).any
        (fun t => decide (t.AllReturned ∧
          t.broadcaster.sockets = [⟨"0.0.0.0", 1254, true, [1, 3, 4, 2]⟩] ∧
          t.calls = [⟨"0.0.0.0", 1254, [1, 2]⟩, ⟨"0.0.0.0", 1254, [3, 4]⟩])) = true := by
    decide +kernel
  obtain ⟨t, ht, hend⟩ := Run.exists_exec_of_any hrun
  obtain ⟨hret, hsockets, hcalls⟩ := of_decide_eq_true hend
  refine ⟨_, t, ht, by decide, by simp [hcalls], hret, ?_⟩
  rintro ⟨k, sock, hk, -, -, -, hall⟩
  obtain ⟨ps, hperm, hstream⟩ := hall hret
  have hsock : sock.stream = [1, 3, 4, 2] := by
    rw [hsockets, List.getElem?_singleton] at hk
    split_ifs at hk
    rw [← Option.some.inj hk]
  rw [hsock] at hstream
  -- the stream starts with neither payload
  cases ps with
  | nil => simp at hstream
  | cons p ps =>
    have hp : p = [1, 2] ∨ p = [3, 4] := by
      have hmem := hperm.subset (List.mem_cons_self (a := p) (l := ps))
      simpa [hcalls] using hmem
    rcases hp with rfl | rfl <;> simp at hstream

end Sends

end DagRider
