import Shadowc.Dns.ReadName

/-!
# `parse_response` and the reading half of `handle_data`

`data` is the memory from the pointer that `parse_response` is given on, with whatever can be read behind the message
and behind the 1024 bytes of the receive buffer; a pointer into it is an offset, and a read past its end stops the code.
The structures the source lays over the message (`DNS_HEADER`, `R_DATA`) are read on a little-endian machine, so that
their fields come out in network order and go through `ntohs`, `ntohl`.

`heap` is what `malloc` leaves in a block.
-/

namespace Shadowc.Dns

open Lib Reading Memory

/-! ### Fixed-size fields -/

def ntohs (v : ℕ) : ℕ := v % 256 * 256 + v / 256 % 256

def ntohl (v : ℕ) : ℕ := ntohs (v % 65536) * 65536 + ntohs (v / 65536)

/-- An `unsigned short` at offset `i`. -/
def loadU16 (data : List UInt8) (i : ℕ) : Run ℕ := do
  let lo ← readByte data i
  let hi ← readByte data (i + 1)
  return lo.toNat + 256 * hi.toNat

/-- An `unsigned int` at offset `i`. -/
def loadU32 (data : List UInt8) (i : ℕ) : Run ℕ := do
  let lo ← loadU16 data i
  let hi ← loadU16 data (i + 2)
  return lo + 65536 * hi

/-- `struct R_DATA`, as it lies in the message. -/
structure RData where
  type : ℕ
  _class : ℕ
  ttl : ℕ
  dataLen : ℕ
  deriving DecidableEq, Repr

/-- The structure a pointer `(R_DATA*)` to offset `i` shows. -/
def RData.load (data : List UInt8) (i : ℕ) : Run RData := do
  let type ← loadU16 data i
  let _class ← loadU16 data (i + 2)
  let ttl ← loadU32 data (i + 4)
  let dataLen ← loadU16 data (i + 8)
  return { type, _class, ttl, dataLen }

def sizeofDnsHeader : ℕ := 12
def sizeofQuestion : ℕ := 4
def sizeofRData : ℕ := 10

/-! ### `parse_response` -/

/-- `struct RES_RECORD`: the strings in the two blocks, and the offset of the `R_DATA`. -/
structure ResRecord where
  name : List UInt8
  resource : ℕ
  rdata : List UInt8
  deriving DecidableEq, Repr

/-- `for (j = 0; j < resource_len; ++j) rdata[j] = reader[j];` -/
def copyBytes (data : List UInt8) : ℕ → ℕ → Run (List UInt8)
  | 0, _ => return []
  | n + 1, reader => do
    let b ← readByte data reader
    let bs ← copyBytes data n (reader + 1)
    return b :: bs

/-- One turn of the answer loop: the record, and the reader after it. -/
def parseRecord (heap : Mem) (data : List UInt8) (reader : ℕ) : Run (ResRecord × ℕ) := do
  let (name, stop) ← readName heap data reader
  let resource := reader + stop
  let reader := resource + sizeofRData
  let type ← loadU16 data resource
  if ntohs type = 1 then
    let resourceLen := ntohs (← loadU16 data (resource + 8))
    let rdata ← copyBytes data resourceLen reader
    return ({ name, resource, rdata }, reader + resourceLen)
  else
    let (rdata, stop) ← readName heap data reader
    return ({ name, resource, rdata }, reader + stop)

/-- The answer loop, with `n` records to go. -/
def parseRecords (heap : Mem) (data : List UInt8) : ℕ → ℕ → Run (List ResRecord)
  | 0, _ => return []
  | n + 1, reader => do
    let (answer, reader) ← parseRecord heap data reader
    let answers ← parseRecords heap data n reader
    return answer :: answers

def parseResponse (heap : Mem) (data : List UInt8) : Run (List ResRecord) := do
  let queryLen := (← strlen (data.drop sizeofDnsHeader)) + 1
  let readerStartIdx := sizeofDnsHeader + queryLen + sizeofQuestion
  let ansCount := ntohs (← loadU16 data 6)
  parseRecords heap data ansCount readerStartIdx

/-! ### The loop of `handle_data` -/

def qtypeA : ℕ := 1

/-- `*(long*) rdata`: the octets, the zero after them, and then whatever the heap holds. -/
def loadLong (heap : Mem) (rdata : List UInt8) : ℕ :=
  (List.range 8).foldr (fun k v => (load (rdata ++ [0]) heap k).toNat + 256 * v) 0

/-- `inet_ntoa` of an address that lies in memory in the order of its octets. -/
def inetNtoa (sAddr : ℕ) : String :=
  toString (sAddr % 256) ++ "." ++ toString (sAddr / 256 % 256) ++ "." ++ toString (sAddr / 65536 % 256) ++ "." ++
    toString (sAddr / 16777216 % 256)

/-- `a.sin_addr.s_addr = *p; ip = inet_ntoa(a.sin_addr);`, the `long` cut down to 32 bits. -/
def addressText (heap : Mem) (rdata : List UInt8) : String := inetNtoa (loadLong heap rdata % 2 ^ 32)

/-- `hostname` and `ip` after the loop over the answers; `none` when `ip` is still `NULL`. -/
def firstAddress (heap : Mem) (data : List UInt8) : List ResRecord → Run (Option (List UInt8 × String))
  | [] => return none
  | ans :: answers => do
    let type ← loadU16 data ans.resource
    if ntohs type = qtypeA then return some (ans.name, addressText heap ans.rdata)
    else firstAddress heap data answers

end Shadowc.Dns
