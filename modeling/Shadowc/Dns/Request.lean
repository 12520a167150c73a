import Shadowc.Dns.Response

/-!
# `change_to_dns_name_format` and `send_req`

The query is built in an array `buf` on the stack, which holds `stack` before.  What is sent is the first `len` bytes
of it, once for each server.
-/

namespace Shadowc.Dns

open Lib Reading Memory

/-- The variables of `change_to_dns_name_format`; `dns` and `labelLenPtr` are indices into the array. -/
structure Encoder where
  buf : Mem
  dns : ℕ
  labelLen : UInt8
  labelLenPtr : ℕ

/-- One character of the host name. -/
def Encoder.put (e : Encoder) (v : UInt8) : Encoder :=
  if v = 46 then
    { buf := Function.update e.buf e.labelLenPtr e.labelLen, dns := e.dns + 1, labelLen := 0, labelLenPtr := e.dns }
  else
    { e with buf := Function.update e.buf e.dns v, dns := e.dns + 1, labelLen := e.labelLen + 1 }

/-- `www.google.com` to `3www6google3com`, written from index `dns` on. -/
def changeToDnsNameFormat (buf : Mem) (dns : ℕ) (host : List UInt8) : Mem :=
  let e := host.foldl Encoder.put { buf, dns := dns + 1, labelLen := 0, labelLenPtr := dns }
  let buf := Function.update e.buf e.labelLenPtr e.labelLen
  -- `*++dns = '\0'`
  Function.update buf (e.dns + 1) 0

def htons (v : ℕ) : ℕ := ntohs v

/-- The two bytes of an `unsigned short` in memory. -/
def u16Bytes (v : ℕ) : List UInt8 := [UInt8.ofNat (v % 256), UInt8.ofNat (v / 256 % 256)]

/-- `struct DNS_HEADER`; the bit-fields are numbers. -/
structure DnsHeader where
  id : ℕ
  rd : ℕ
  tc : ℕ
  aa : ℕ
  opcode : ℕ
  qr : ℕ
  rcode : ℕ
  cd : ℕ
  ad : ℕ
  z : ℕ
  ra : ℕ
  qCount : ℕ
  ansCount : ℕ
  authCount : ℕ
  addCount : ℕ

/-- The header in memory, the first bit-field of a byte in its lowest bits. -/
def DnsHeader.bytes (h : DnsHeader) : List UInt8 :=
  u16Bytes h.id ++
  [UInt8.ofNat (h.rd + 2 * h.tc + 4 * h.aa + 8 * h.opcode + 128 * h.qr),
    UInt8.ofNat (h.rcode + 16 * h.cd + 32 * h.ad + 64 * h.z + 128 * h.ra)] ++
  u16Bytes h.qCount ++ u16Bytes h.ansCount ++ u16Bytes h.authCount ++ u16Bytes h.addCount

/-- The header of a query of process `pid`. -/
def queryHeader (pid : ℕ) : DnsHeader where
  id := htons (pid % 65536)
  qr := 0
  opcode := 0
  aa := 0
  tc := 0
  rd := 1
  ra := 0
  z := 0
  ad := 0
  cd := 0
  rcode := 0
  qCount := htons 1
  ansCount := 0
  authCount := 0
  addCount := 0

/-- A call of `sendto`. -/
structure Sent where
  socket : ℤ
  server : String
  bytes : List UInt8
  deriving DecidableEq, Repr

/-- The list `l` stored at index `i`. -/
def storeBytes (m : Mem) (i : ℕ) (l : List UInt8) : Mem :=
  fun k => if i ≤ k then l[k - i]?.getD (m k) else m k

/-- The array `buf` of `send_req` as it is sent, and `len`. -/
def buildQuery (stack : Mem) (pid : ℕ) (hostname : List UInt8) (queryType : ℕ) : Mem × ℕ :=
  let qname := sizeofDnsHeader
  let buf := storeBytes stack 0 (queryHeader pid).bytes
  let buf := changeToDnsNameFormat buf qname hostname
  -- the terminator that was written stands `hostname.length + 2` cells after the start of the name
  let strlenQname := firstZero (fun i => buf (qname + i)) (hostname.length + 2)
  let qinfo := sizeofDnsHeader + (strlenQname + 1)
  let buf := storeBytes buf qinfo (u16Bytes (htons queryType) ++ u16Bytes (htons 1))
  (buf, sizeofDnsHeader + (strlenQname + 1) + sizeofQuestion)

end Shadowc.Dns
