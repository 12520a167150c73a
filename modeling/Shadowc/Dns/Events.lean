import Shadowc.Dns.Resolver
import Shadowc.EventLoop.Model

/-!
# The resolver in the event loop

`create_dns_socket`, `add_to_loop` and `handle_event`.  What `recvfrom` gives back is data: the return value `nread`
and the array `buf` afterwards, whose bytes from `nread` on are those the stack held before, as those behind the array
are.
-/

namespace Shadowc.Dns

open Lib Reading EventLoop

def epollIn : ℕ := 1
def epollErr : ℕ := 8
def epollEt : ℕ := 2 ^ 31

/-- What `recvfrom` returns, and the memory from the array it was given on, afterwards. -/
structure Received where
  nread : ℤ
  buf : List UInt8

def bufSize : ℕ := 1024

namespace Resolver

variable {Cb H : Type}

/-- `fd` is the number `socket()` hands out; `none` when it is in use. -/
def createDnsSocket (s : Resolver Cb) (k : Kernel) (fd : ℤ) : Option (Resolver Cb × Kernel) :=
  if s.dnsSocket ≠ 0 then some (s, k)
  else (k.openFd fd true).map fun k => ({ s with dnsSocket := fd }, k)

/-- `loop` is the address of the event loop, `this` the resolver as its handler. -/
def addToLoop (s : Resolver Cb) (l : State H) (loop : ℕ) (this : H) (fd : ℤ) : Option (Resolver Cb × State H) :=
  match s.loop with
  | some _ => some (s, l)
  | none => (s.createDnsSocket l.kernel fd).map fun (s, k) =>
    ({ s with loop := some loop }, { l with kernel := k }.add s.dnsSocket (epollIn + epollEt) this)

/-- The new state, the calls made, and the descriptor that is closed. -/
def handleEvent (env : Env) (s : Resolver Cb) (evt : Event) (received : Received) :
    Run (Resolver Cb × List (Invocation Cb) × Option ℤ) := do
  if s.dnsSocket ≠ evt.fd then
    return (s, [], none)
  else if evt.events &&& epollErr ≠ 0 then
    return (s, [], some evt.fd)
  else
    let (s, calls) ← s.handleData env received.buf
    return (s, calls, none)

/-- `handle_event` gets as far as `recvfrom`. -/
def Reads (s : Resolver Cb) (evt : Event) : Prop := s.dnsSocket = evt.fd ∧ evt.events &&& epollErr = 0

instance (s : Resolver Cb) (evt : Event) : Decidable (s.Reads evt) := by unfold Reads; infer_instance

theorem callCallback_dnsSocket (s : Resolver Cb) (hostname : Host) (ip : String) :
    (s.callCallback hostname ip).1.dnsSocket = s.dnsSocket := by
  unfold callCallback
  split <;> rfl

theorem handleData_dnsSocket {env : Env} {s s' : Resolver Cb} {data : List UInt8} {calls : List (Invocation Cb)}
    (h : s.handleData env data = .ok (s', calls)) : s'.dnsSocket = s.dnsSocket := by
  obtain ⟨answers, -, ⟨-, rfl, -⟩ | ⟨hostname, ip, -, rfl, -⟩⟩ := handleData_cases h
  · rfl
  · exact callCallback_dnsSocket s hostname ip

/-- An event leaves the resolver with the socket it had. -/
theorem handleEvent_dnsSocket {env : Env} {s s' : Resolver Cb} {evt : Event} {received : Received}
    {calls : List (Invocation Cb)} {closed : Option ℤ}
    (h : s.handleEvent env evt received = .ok (s', calls, closed)) : s'.dnsSocket = s.dnsSocket := by
  unfold handleEvent at h
  split at h
  · cases h; rfl
  split at h
  · cases h; rfl
  · obtain ⟨⟨s₁, calls₁⟩, hd, h⟩ := bind_eq_ok.1 h
    cases h
    exact handleData_dnsSocket hd

end Resolver

end Shadowc.Dns
