import Shadowc.Dns.EncodeSpec
import Shadowc.Dns.Resolver
import Shadowc.Lib.Trace

/-!
# Which bytes of its array `send_req` uses

`send_req` builds the query in an array of 128 bytes.  The functions of this module are those of the query builder with
a log of the indices they write and of the lengths they hand to `sendto`; without the log they are the functions they
were (`sendReqTraced_outcome`).

The last byte that is written is the last one that is sent (`all_sendReqTraced`), so that everything is inside exactly
when the length is: for host names of up to 109 characters, and one more when the terminator happens to stand where it
belongs.
-/

namespace Shadowc.Dns

open Lib Reading Memory Trace Traced

/-- A use of the array: a byte that is written, or a number of bytes that is sent. -/
inductive BufUse where
  | write (index : ℕ)
  | send (len : ℕ)
  deriving DecidableEq, Repr

/-- `unsigned char buf[128]` -/
def bufLen : ℕ := 128

def BufUse.Inside : BufUse → Prop
  | .write index => index < bufLen
  | .send len => len ≤ bufLen

abbrev BufLog (α : Type) := Traced BufUse Empty α

/-! ### The functions with their log -/

def store (m : Mem) (i : ℕ) (v : UInt8) : BufLog Mem := do
  emit (.write i)
  return Function.update m i v

/-- `storeBytes`, byte by byte. -/
def storeBytesTraced (m : Mem) (i : ℕ) : List UInt8 → BufLog Mem
  | [] => return m
  | b :: l => do
    let m ← store m i b
    storeBytesTraced m (i + 1) l

def Encoder.putTraced (e : Encoder) (v : UInt8) : BufLog Encoder :=
  if v = 46 then do
    let buf ← store e.buf e.labelLenPtr e.labelLen
    return { buf, dns := e.dns + 1, labelLen := 0, labelLenPtr := e.dns }
  else do
    let buf ← store e.buf e.dns v
    return { e with buf, dns := e.dns + 1, labelLen := e.labelLen + 1 }

def changeToDnsNameFormatTraced (buf : Mem) (dns : ℕ) (host : List UInt8) : BufLog Mem := do
  let e ← host.foldlM Encoder.putTraced { buf, dns := dns + 1, labelLen := 0, labelLenPtr := dns }
  let buf ← store e.buf e.labelLenPtr e.labelLen
  -- `*++dns = '\0'`
  store buf (e.dns + 1) 0

def buildQueryTraced (stack : Mem) (pid : ℕ) (hostname : List UInt8) (queryType : ℕ) : BufLog (Mem × ℕ) := do
  let qname := sizeofDnsHeader
  let buf ← storeBytesTraced stack 0 (queryHeader pid).bytes
  let buf ← changeToDnsNameFormatTraced buf qname hostname
  let strlenQname := firstZero (fun i => buf (qname + i)) (hostname.length + 2)
  let qinfo := sizeofDnsHeader + (strlenQname + 1)
  let buf ← storeBytesTraced buf qinfo (u16Bytes (htons queryType) ++ u16Bytes (htons 1))
  return (buf, sizeofDnsHeader + (strlenQname + 1) + sizeofQuestion)

/-- The loop over the servers. -/
def sendTraced (socket : ℤ) (buf : Mem) (len : ℕ) : List String → BufLog (List Sent)
  | [] => return []
  | server :: servers => do
    emit (.send len)
    let sent ← sendTraced socket buf len servers
    return { socket, server, bytes := slice buf 0 len } :: sent

def Resolver.sendReqTraced {Cb : Type} (env : Env) (s : Resolver Cb) (hostname : Host) (queryType : ℕ) :
    BufLog (List Sent) := do
  let (buf, len) ← buildQueryTraced env.stack env.pid hostname queryType
  sendTraced s.dnsSocket buf len (s.servers.take s.numServers)

/-! ### Without the log -/

theorem storeBytesTraced_outcome (m : Mem) (i : ℕ) (l : List UInt8) :
    (storeBytesTraced m i l).outcome = .ok (storeBytes m i l) := by
  induction l generalizing m i with
  | nil => rw [storeBytes_nil]; rfl
  | cons b l ih => rw [storeBytes_cons, ← ih]; rfl

theorem Encoder.putTraced_outcome (e : Encoder) (v : UInt8) : (e.putTraced v).outcome = .ok (e.put v) := by
  unfold putTraced put
  split <;> rfl

theorem foldlM_putTraced_outcome (host : List UInt8) (e : Encoder) :
    (host.foldlM Encoder.putTraced e).outcome = .ok (host.foldl Encoder.put e) := by
  induction host generalizing e with
  | nil => rfl
  | cons v host ih =>
    rw [List.foldlM_cons, bind_ok (e.putTraced_outcome v)]
    exact ih (e.put v)

theorem changeToDnsNameFormatTraced_outcome (buf : Mem) (dns : ℕ) (host : List UInt8) :
    (changeToDnsNameFormatTraced buf dns host).outcome = .ok (changeToDnsNameFormat buf dns host) := by
  rw [changeToDnsNameFormatTraced, bind_ok (foldlM_putTraced_outcome host _)]
  rfl

theorem buildQueryTraced_outcome (stack : Mem) (pid : ℕ) (hostname : List UInt8) (queryType : ℕ) :
    (buildQueryTraced stack pid hostname queryType).outcome = .ok (buildQuery stack pid hostname queryType) := by
  rw [buildQueryTraced, bind_ok (storeBytesTraced_outcome ..), bind_ok (changeToDnsNameFormatTraced_outcome ..),
    bind_ok (storeBytesTraced_outcome ..)]
  rfl

theorem sendTraced_outcome (socket : ℤ) (buf : Mem) (len : ℕ) (servers : List String) :
    (sendTraced socket buf len servers).outcome =
      .ok (servers.map fun server => { socket, server, bytes := slice buf 0 len }) := by
  induction servers with
  | nil => rfl
  | cons server servers ih =>
    rw [sendTraced, bind_ok (outcome_emit _), bind_ok ih]
    rfl

/-- **The log makes no difference** to what `send_req` sends. -/
theorem sendReqTraced_outcome {Cb : Type} (env : Env) (s : Resolver Cb) (hostname : Host) (queryType : ℕ) :
    (s.sendReqTraced env hostname queryType).outcome = .ok (s.sendReq env hostname queryType) := by
  rw [Resolver.sendReqTraced, bind_ok (buildQueryTraced_outcome ..)]
  exact sendTraced_outcome ..

/-! ### The indices -/

section Indices

variable {p : BufUse → Prop}

theorem all_store (m : Mem) (i : ℕ) (v : UInt8) : All p (store m i v) ↔ p (.write i) := by
  simp [store, all_bind]

theorem all_storeBytesTraced (m : Mem) (i : ℕ) (l : List UInt8) :
    All p (storeBytesTraced m i l) ↔ ∀ k < l.length, p (.write (i + k)) := by
  induction l generalizing m i with
  | nil => simp [storeBytesTraced]
  | cons b l ih =>
    have hstore : (store m i b).outcome = .ok (Function.update m i b) := rfl
    rw [storeBytesTraced, all_bind_ok hstore, all_store, ih]
    constructor
    · rintro ⟨h0, h⟩ k hk
      cases k with
      | zero => exact h0
      | succ k =>
        rw [List.length_cons] at hk
        rw [show i + (k + 1) = i + 1 + k by omega]
        exact h k (by omega)
    · intro h
      refine ⟨h 0 (by simp), ?_⟩
      intro k hk
      rw [show i + 1 + k = i + (k + 1) by omega]
      exact h (k + 1) (by simpa using hk)

theorem all_sendTraced (socket : ℤ) (buf : Mem) (len : ℕ) (servers : List String) (h : p (.send len)) :
    All p (sendTraced socket buf len servers) := by
  induction servers with
  | nil => exact all_pure _
  | cons server servers ih =>
    rw [sendTraced, all_bind_ok (outcome_emit _), all_bind_ok (sendTraced_outcome ..)]
    exact ⟨(all_emit _).2 h, ih, all_pure _⟩

end Indices

/-- The pointers of the encoder move on by one cell for each character, the one to the length byte behind the other. -/
theorem foldl_put_dns (host : List UInt8) {e : Encoder} (h : e.labelLenPtr < e.dns) :
    (host.foldl Encoder.put e).dns = e.dns + host.length ∧
      (host.foldl Encoder.put e).labelLenPtr < (host.foldl Encoder.put e).dns := by
  induction host generalizing e with
  | nil => exact ⟨rfl, h⟩
  | cons v host ih =>
    have hput : (e.put v).dns = e.dns + 1 ∧ (e.put v).labelLenPtr < (e.put v).dns := by
      unfold Encoder.put
      split
      · exact ⟨rfl, Nat.lt_succ_self _⟩
      · exact ⟨rfl, Nat.lt_succ_of_lt h⟩
    obtain ⟨hdns, hptr⟩ := ih hput.2
    refine ⟨?_, hptr⟩
    show (host.foldl Encoder.put (e.put v)).dns = e.dns + (host.length + 1)
    rw [hdns, hput.1]
    omega

/-- What is written lies before index `n`. -/
def BufUse.WriteBelow (n : ℕ) : BufUse → Prop
  | .write index => index < n
  | .send _ => False

theorem all_foldlM_putTraced (host : List UInt8) {e : Encoder} (h : e.labelLenPtr < e.dns) :
    All (BufUse.WriteBelow (e.dns + host.length)) (host.foldlM Encoder.putTraced e) := by
  induction host generalizing e with
  | nil => exact all_pure _
  | cons v host ih =>
    rw [List.foldlM_cons, all_bind_ok (e.putTraced_outcome v)]
    have hput := foldl_put_dns [v] h
    constructor
    · unfold Encoder.putTraced
      split
      · rw [all_bind_ok (a := Function.update e.buf e.labelLenPtr e.labelLen) rfl, all_store]
        refine ⟨?_, all_pure _⟩
        show e.labelLenPtr < e.dns + (v :: host).length
        omega
      · rw [all_bind_ok (a := Function.update e.buf e.dns v) rfl, all_store]
        refine ⟨?_, all_pure _⟩
        show e.dns < e.dns + (v :: host).length
        simp
    · have hrest := ih hput.2
      rw [hput.1] at hrest
      rw [List.length_cons, show e.dns + (host.length + 1) = e.dns + [v].length + host.length by simp; omega]
      exact hrest

/-- The encoder writes no further than the terminator it sets. -/
theorem all_changeToDnsNameFormatTraced (buf : Mem) (dns : ℕ) (host : List UInt8) :
    All (BufUse.WriteBelow (dns + host.length + 3)) (changeToDnsNameFormatTraced buf dns host) := by
  have hptr : ({ buf, dns := dns + 1, labelLen := 0, labelLenPtr := dns } : Encoder).labelLenPtr <
      ({ buf, dns := dns + 1, labelLen := 0, labelLenPtr := dns } : Encoder).dns := Nat.lt_succ_self dns
  obtain ⟨hdns, hlt⟩ := foldl_put_dns host hptr
  rw [changeToDnsNameFormatTraced, all_bind_ok (foldlM_putTraced_outcome host _)]
  refine ⟨(all_foldlM_putTraced host hptr).mono fun u hu => ?_, ?_⟩
  · cases u with
    | write index =>
      have hu : index < dns + 1 + host.length := hu
      show index < dns + host.length + 3
      omega
    | send len => exact hu
  · rw [all_bind_ok (a := Function.update _ _ _) rfl, all_store, all_store]
    simp only [BufUse.WriteBelow]
    simp only at hdns
    omega

/-- **The builder stays inside exactly when the length does**: the last byte of the fields is the last one written. -/
theorem all_buildQueryTraced {ls : Name} (h : HostName ls) (stack : Mem) (pid queryType : ℕ) :
    All BufUse.Inside (buildQueryTraced stack pid (dotted ls) queryType) ↔
      12 + (strlenQname stack ls + 1) + 4 ≤ bufLen := by
  have hname : changeToDnsNameFormat (storeBytes stack 0 (queryHeader pid).bytes) 12 (dotted ls) =
      nameBuf stack pid ls := changeToDnsNameFormat_dotted h _ _
  have hstrlen : (dotted ls).length + 1 ≤ strlenQname stack ls := by
    unfold strlenQname
    split <;> omega
  rw [buildQueryTraced, all_bind_ok (storeBytesTraced_outcome ..), all_bind_ok (changeToDnsNameFormatTraced_outcome ..),
    all_bind_ok (storeBytesTraced_outcome ..)]
  simp only [sizeofDnsHeader, hname, firstZero_nameBuf h, all_storeBytesTraced]
  constructor
  · rintro ⟨-, -, hfields, -⟩
    have hlast : 12 + (strlenQname stack ls + 1) + 3 < bufLen := hfields 3 (by simp [u16Bytes])
    omega
  · intro hlen
    refine ⟨fun k hk => ?_, ?_, fun k hk => ?_, all_pure _⟩
    · rw [length_queryHeader] at hk
      show 0 + k < bufLen
      omega
    · refine (all_changeToDnsNameFormatTraced _ 12 (dotted ls)).mono ?_
      intro u hu
      cases u with
      | write index =>
        have hu : index < 12 + (dotted ls).length + 3 := hu
        show index < bufLen
        omega
      | send len => exact hu.elim
    · have hk : k < 4 := hk
      show 12 + (strlenQname stack ls + 1) + k < bufLen
      omega

/-- **When `send_req` stays in its array.**  For every host name of `n` characters, whatever the array holds before,
all bytes that are written and the length given to `sendto` lie within the 128 bytes exactly when `n` is at most 109,
or 110 and the byte behind the encoded name is zero before. -/
theorem query_inside_iff {Cb : Type} {ls : Name} (h : HostName ls) (env : Env) (s : Resolver Cb) (queryType : ℕ) :
    All BufUse.Inside (s.sendReqTraced env (dotted ls) queryType) ↔
      (dotted ls).length ≤ 109 ∨ ((dotted ls).length = 110 ∧ env.stack (12 + 111) = 0) := by
  have hlen : 12 + (strlenQname env.stack ls + 1) + 4 ≤ bufLen ↔
      (dotted ls).length ≤ 109 ∨ ((dotted ls).length = 110 ∧ env.stack (12 + 111) = 0) := by
    unfold strlenQname bufLen
    by_cases h110 : (dotted ls).length = 110
    · rw [h110]
      split <;> simp_all
    · split <;> omega
  rw [← hlen, ← all_buildQueryTraced h env.stack env.pid queryType, Resolver.sendReqTraced,
    all_bind_ok (buildQueryTraced_outcome ..), buildQuery_dotted h]
  refine ⟨fun hall => hall.1, fun hall => ⟨hall, all_sendTraced _ _ _ _ ?_⟩⟩
  exact (all_buildQueryTraced h env.stack env.pid queryType).1 hall

theorem query_inside_iff_short : HostName [[97], [98]] ∧
    All BufUse.Inside ((Resolver.init : Resolver Unit).sendReqTraced
      { heap := fun _ => 0, stack := fun _ => 170, pid := 1 } [97, 46, 98] qtypeA) := by
  have h : HostName [[97], [98]] := by decide
  exact ⟨h, (query_inside_iff h _ _ qtypeA).2 (.inl (by decide))⟩

/-- Two labels of 63 characters: 127 characters in all. -/
def longHost : Name := [List.replicate 63 97, List.replicate 63 97]

/-- The query for such a name does not fit, whatever the array holds before. -/
theorem query_overruns : HostName longHost ∧ (dotted longHost).length ≤ 253 ∧
    ∀ (env : Env) (s : Resolver Unit), ¬ All BufUse.Inside (s.sendReqTraced env (dotted longHost) qtypeA) := by
  have h : HostName longHost := by decide
  have hlen : (dotted longHost).length = 127 := by simp [longHost, dotted, List.intercalate_cons_cons]
  refine ⟨h, by omega, ?_⟩
  intro env s hall
  rw [Resolver.sendReqTraced, all_bind_ok (buildQueryTraced_outcome ..)] at hall
  have hfit := (all_buildQueryTraced h env.stack env.pid qtypeA).1 hall.1
  unfold strlenQname bufLen at hfit
  split at hfit <;> omega

end Shadowc.Dns
