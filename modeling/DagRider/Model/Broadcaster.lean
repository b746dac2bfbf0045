import DagRider.Lib.Run
import DagRider.Lib.Json
import DagRider.Lib.UnorderedMap
import DagRider.Model.Vertex

set_option relaxedAutoImplicit false
set_option autoImplicit false

/-!
# The broadcaster

`src/network/broadcaster.cpp`. `Broadcaster::send` is a coroutine that is suspended while it
connects and while it writes; every resumption is a step here, with the outcome that the
operating system gives. A write may take any part of the bytes. The map of connections holds
shared pointers; here they are places in the list of all sockets ever made.

## Main definitions

* `DagRider.Socket`, `DagRider.Broadcaster`.
* `DagRider.Broadcaster.send` — a call, up to its first suspension.
* `DagRider.Broadcaster.resume` — a suspended call goes on.
* `DagRider.Sends` — a broadcaster with all calls made on it, as a transition system.
-/

namespace DagRider

/-- A socket that `send` made. -/
structure Socket where
  /-- The endpoint it is to be connected to. -/
  address : String
  port : Fin (2 ^ 16)
  /-- Whether the connect has succeeded. -/
  connected : Bool
  /-- What was written on it. -/
  stream : Bytes
deriving DecidableEq

/-- `Broadcaster`: the cache of connections, and the sockets. -/
structure Broadcaster where
  connections : UnorderedMap String ℕ
  sockets : List Socket

/-- Where a call of `send` is suspended, or how it has returned. -/
inductive Send where
  /-- In `async_connect` on a socket, with the data still to be written. -/
  | connecting (socket : ℕ) (data : Bytes)
  /-- In `async_write` on a socket, with the rest of the data. -/
  | writing (socket : ℕ) (rest : Bytes)
  /-- Returned after the whole of the data was written. -/
  | sent
  /-- Returned after an error, which is caught. -/
  | failed
deriving DecidableEq

/-- The outcome of the operation a call waits for. -/
inductive IoResult where
  | connected
  | connectFailed
  /-- The next `n` bytes are taken. -/
  | wrote (n : ℕ)
  | writeFailed
deriving DecidableEq

namespace Send

/-- The call has returned. -/
def Returned : Send → Prop
  | connecting _ _ | writing _ _ => False
  | sent | failed => True

instance : DecidablePred Returned
  | connecting _ _ | writing _ _ => isFalse id
  | sent | failed => isTrue trivial

end Send

namespace Broadcaster

/-- A broadcaster without connections. -/
def new : Broadcaster := ⟨UnorderedMap.empty, []⟩

/-- `Broadcaster::send` up to its first suspension. The cache is keyed by the address alone:
an address that has an entry is written to on the socket of that entry. `valid` tells which
strings `make_address` accepts. The cache is only looked up, so its layout makes no
difference. -/
def send (valid : String → Bool) (b : Broadcaster) (address : String) (port : Fin (2 ^ 16))
    (data : Bytes) : Broadcaster × Send :=
  match b.connections.find? address with
  | some socket => (b, .writing socket data)
  | none =>
    let socket := b.sockets.length
    let b' : Broadcaster :=
      ⟨b.connections.set (Layout.front _) address socket,
        b.sockets ++ [⟨address, port, false, []⟩]⟩
    if valid address then (b', .connecting socket data) else (b', .failed)

/-- A suspended call goes on. A connect or a write that fails ends it; a write needs a
connected socket. -/
def resume (b : Broadcaster) : Send → IoResult → Option (Broadcaster × Send)
  | .connecting socket data, .connected =>
    some ({ b with sockets := b.sockets.modify socket fun s => { s with connected := true } },
      .writing socket data)
  | .connecting _ _, .connectFailed => some (b, .failed)
  | .writing socket rest, .wrote n =>
    match b.sockets[socket]? with
    | none => none
    | some s =>
      if s.connected = true ∧ n ≤ rest.length ∧ (0 < n ∨ rest = []) then
        some ({ b with sockets := b.sockets.modify socket fun s =>
            { s with stream := s.stream ++ rest.take n } },
          if n = rest.length then .sent else .writing socket (rest.drop n))
      else none
  | .writing _ _, .writeFailed => some (b, .failed)
  | _, _ => none

end Broadcaster

/-! ## All calls on one broadcaster -/

/-- The arguments of a call of `send`. -/
structure Call where
  address : String
  port : Fin (2 ^ 16)
  data : Bytes
deriving DecidableEq

namespace Endpoint

/-- `address().to_string()`: the four bytes of the address in decimal, with dots between
them. -/
def addressToString (e : Endpoint) : String :=
  String.intercalate "." ([24, 16, 8, 0].map fun i => Nat.repr (e.address.val / 2 ^ i % 256))

/-- A decimal has no dot. -/
lemma dot_notMem_toDigits {n : ℕ} : '.' ∉ Nat.toDigits 10 n := by
  intro h
  have hdigit := Nat.isDigit_of_mem_toDigits (by decide) (by decide) h
  exact absurd hdigit (by decide)

/-- A number is known from its decimal. -/
lemma repr_injective {m n : ℕ} (h : Nat.repr m = Nat.repr n) : m = n := by
  have h := congrArg (fun s => Nat.ofDigitChars 10 (String.toList s) 0) h
  simpa using h

/-- An address is known from its text: the text splits at its dots into the four bytes. -/
lemma address_eq_of_addressToString {e f : Endpoint}
    (h : e.addressToString = f.addressToString) : e.address = f.address := by
  have hlist := congrArg String.toList h
  unfold addressToString at hlist
  have hdot : ".".toList = ['.'] := rfl
  rw [String.toList_intercalate, String.toList_intercalate, hdot] at hlist
  have hsplit := congrArg (List.splitOn '.') hlist
  rw [List.splitOn_intercalate _ (by simp [dot_notMem_toDigits]) (by simp),
    List.splitOn_intercalate _ (by simp [dot_notMem_toDigits]) (by simp)] at hsplit
  simp only [List.map_cons, List.map_nil, List.cons.injEq, String.toList_inj] at hsplit
  obtain ⟨h3, h2, h1, h0, -⟩ := hsplit
  have h3 := repr_injective h3
  have h2 := repr_injective h2
  have h1 := repr_injective h1
  have h0 := repr_injective h0
  omega

/-- The call that sends data to an endpoint. -/
def call (e : Endpoint) (data : Bytes) : Call := ⟨e.addressToString, e.port, data⟩

end Endpoint

/-- A broadcaster, and the calls made on it, in the order in which they started. -/
structure Sends where
  broadcaster : Broadcaster
  sends : List (Call × Send)

/-- What happens next. -/
inductive SendEvent where
  /-- A call starts. -/
  | call (c : Call)
  /-- The operation that the call with this number waits for completes. -/
  | io (i : ℕ) (result : IoResult)
deriving DecidableEq

namespace Sends

/-- One step. -/
def step (valid : String → Bool) (s : Sends) : SendEvent → Option Sends
  | .call c =>
    let (broadcaster, send) := s.broadcaster.send valid c.address c.port c.data
    some ⟨broadcaster, s.sends ++ [(c, send)]⟩
  | .io i result => do
    let (c, send) ← s.sends[i]?
    let (broadcaster, send) ← s.broadcaster.resume send result
    return ⟨broadcaster, s.sends.set i (c, send)⟩

/-- No calls yet. -/
def init : Sends := ⟨Broadcaster.new, []⟩

/-- The state after a run. -/
abbrev run (valid : String → Bool) (es : List SendEvent) : Option Sends :=
  Run.exec (step valid) init es

/-- The calls made so far. -/
def calls (s : Sends) : List Call := s.sends.map Prod.fst

/-- All calls have returned. -/
def AllReturned (s : Sends) : Prop := ∀ p ∈ s.sends, p.2.Returned

instance (s : Sends) : Decidable s.AllReturned :=
  inferInstanceAs (Decidable (∀ p ∈ s.sends, p.2.Returned))

/-- Calls run one after another: each starts when all before it have returned. -/
def OneByOne (s : Sends) : SendEvent → Prop
  | .call _ => s.AllReturned
  | .io _ _ => True

/-- The connect succeeds, if the event is the end of one. -/
def Connects : SendEvent → Prop
  | .io _ .connectFailed => False
  | _ => True

/-- The write does not fail, if the event is the end of one. -/
def Writes : SendEvent → Prop
  | .io _ .writeFailed => False
  | _ => True

instance (s : Sends) : DecidablePred s.OneByOne
  | .call _ => inferInstanceAs (Decidable s.AllReturned)
  | .io _ _ => isTrue trivial

instance : DecidablePred Connects
  | .io _ .connectFailed => isFalse id
  | .io _ .connected | .io _ (.wrote _) | .io _ .writeFailed | .call _ => isTrue trivial

instance : DecidablePred Writes
  | .io _ .writeFailed => isFalse id
  | .io _ .connected | .io _ (.wrote _) | .io _ .connectFailed | .call _ => isTrue trivial

end Sends

end DagRider
