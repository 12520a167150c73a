import Shadowc.Dns.Accesses
import Shadowc.Dns.RawMessage
import Shadowc.Dns.Resolution

/-!
# Which bytes of its RDATA blocks the resolver uses

For an answer of type A, `parse_response` allocates as many bytes as the record announces, copies them and writes a
zero behind them, which is the first byte behind the block; `handle_data` then reads eight bytes of it.  So the
accesses stay inside only as long as no answer of type A is read to its end: `rdata_inside_iff`.

`data` is the memory from the message on.  It may be longer than the 1024 bytes of the receive buffer: a record that
announces more bytes than the buffer has left is copied from what stands behind it.
-/

namespace Shadowc.Dns

open Lib Reading Memory Trace Traced

/-- An access to an RDATA block lies within it. -/
def Access.RdataInside : Access → Prop
  | .rdata size index => index < size
  | _ => True

/-! ### The records that are read -/

/-- With `n` records to go from `r` on, the parser comes to the start of a record at `p`. -/
inductive RecordStart (data : List UInt8) : ℕ → ℕ → ℕ → Prop
  | here {n r : ℕ} : RecordStart data (n + 1) r r
  | next {n r r' p : ℕ} : RawRecord data r r' → RecordStart data n r' p → RecordStart data (n + 1) r p

/-- At `r` there is a record of type A: its owner is read to the end, and as many bytes follow as it announces. -/
def AddressAt (data : List UInt8) (r : ℕ) : Prop :=
  ∃ owner k len, RawName data r owner k ∧ Field16 data (r + k) 1 ∧ Field16 data (r + k + 8) len ∧
    ∀ j < len, r + k + 10 + j < data.length

/-- `parse_response` reads a record of type A to its end. -/
def AddressRead (data : List UInt8) : Prop :=
  ∃ len count p, strlen (data.drop sizeofDnsHeader) = .ok len ∧ Field16 data 6 count ∧
    RecordStart data count (sizeofDnsHeader + (len + 1) + sizeofQuestion) p ∧ AddressAt data p

/-! ### One record -/

/-- **One turn of the answer loop** stays inside unless it reads a record of type A to its end. -/
theorem all_parseRecordTraced (heap : Mem) (data : List UInt8) (r : ℕ) :
    All Access.RdataInside (parseRecordTraced heap data r) ↔ ¬ AddressAt data r := by
  have hread : ∀ reader, All Access.RdataInside (readNameTraced heap data reader) :=
    all_readNameTraced (fun _ => trivial) heap data
  constructor
  · rintro h ⟨owner, k, len, hk, htype, hlen, hdata⟩
    obtain ⟨name, hname⟩ := (readName_ok_iff heap data r k).2 ⟨owner, hk⟩
    obtain ⟨type, hload, h1⟩ := (loadU16_iff ..).2 htype
    obtain ⟨x, hx, rfl⟩ := (loadU16_iff ..).2 hlen
    obtain ⟨rdata, hcopy⟩ := (copyBytes_ok_iff ..).2 hdata
    have hown : (readNameTraced heap data r).outcome = .ok (name, k) := (readNameTraced_outcome ..).trans hname
    have hcopied : (copyBytesTraced data (ntohs x) (ntohs x) 0 (r + k + sizeofRData)).outcome = .ok rdata :=
      (copyBytesTraced_outcome ..).trans hcopy
    rw [parseRecordTraced, all_bind_ok (outcome_emit _), all_bind_ok hown,
      all_bind_ok (x := lift (loadU16 data (r + k))) hload, if_pos h1,
      all_bind_ok (x := lift (loadU16 data (r + k + 8))) hx] at h
    have h := ((all_bind_ok hcopied).1 h.2.2.2.2).2
    rw [all_bind_ok (outcome_emit _), all_emit] at h
    exact absurd h.1 (Nat.lt_irrefl (ntohs x))
  · intro h
    refine all_bind.2 ⟨(all_emit _).2 trivial, fun _ _ => all_bind.2 ⟨hread r, ?_⟩⟩
    rintro ⟨name, k⟩ hname
    rw [readNameTraced_outcome] at hname
    obtain ⟨owner, hk⟩ := (readName_ok_iff heap data r k).1 ⟨name, hname⟩
    refine all_bind.2 ⟨all_lift _, ?_⟩
    intro type htype
    split
    · next h1 =>
      refine all_bind.2 ⟨all_lift _, fun x hx => all_bind.2 ⟨all_copyBytesTraced _ _ ?_, fun rdata hcopy => ?_⟩⟩
      · intro i hi
        show i < ntohs x
        omega
      rw [copyBytesTraced_outcome] at hcopy
      refine absurd ⟨owner, k, ntohs x, hk, ?_, ?_, ?_⟩ h
      · exact (loadU16_iff ..).1 ⟨type, htype, h1⟩
      · exact (loadU16_iff ..).1 ⟨x, hx, rfl⟩
      · exact (copyBytes_ok_iff ..).1 ⟨rdata, hcopy⟩
    · exact all_bind.2 ⟨hread _, fun _ _ => all_pure _⟩

/-! ### All records -/

theorem all_parseRecordsTraced (heap : Mem) (data : List UInt8) (n r : ℕ) :
    All Access.RdataInside (parseRecordsTraced heap data n r) ↔ ∀ p, RecordStart data n r p → ¬ AddressAt data p := by
  induction n generalizing r with
  | zero =>
    refine ⟨fun _ p hp => ?_, fun _ => all_pure _⟩
    cases hp
  | succ n ih =>
    rw [parseRecordsTraced, all_bind, all_parseRecordTraced]
    constructor
    · rintro ⟨hhead, hrest⟩ p hp
      cases hp with
      | here => exact hhead
      | @next _ _ r' _ hrec hp =>
        obtain ⟨rec, hrec⟩ := (parseRecord_ok_iff heap data r r').2 hrec
        have hall := hrest (rec, r') ((parseRecordTraced_outcome ..).trans hrec)
        exact (ih r').1 (all_bind.1 hall).1 p hp
    · intro h
      refine ⟨h r .here, ?_⟩
      rintro ⟨rec, r'⟩ hrec
      rw [parseRecordTraced_outcome] at hrec
      have hraw := (parseRecord_ok_iff heap data r r').1 ⟨rec, hrec⟩
      exact all_bind.2 ⟨(ih r').2 fun p hp => h p (.next hraw hp), fun _ _ => all_pure _⟩

theorem all_parseResponseTraced (heap : Mem) (data : List UInt8) :
    All Access.RdataInside (parseResponseTraced heap data) ↔ ¬ AddressRead data := by
  constructor
  · rintro h ⟨len, count, p, hlen, hcount, hp, haddr⟩
    obtain ⟨x, hx, rfl⟩ := (loadU16_iff ..).2 hcount
    rw [parseResponseTraced, all_bind_ok (x := lift (strlen (data.drop sizeofDnsHeader))) hlen] at h
    have h := h.2
    rw [all_bind_ok (x := lift (loadU16 data 6)) hx] at h
    exact (all_parseRecordsTraced heap data _ _).1 h.2 p hp haddr
  · intro h
    refine all_bind.2 ⟨all_lift _, ?_⟩
    intro len hlen
    refine all_bind.2 ⟨all_lift _, ?_⟩
    intro x hx
    refine (all_parseRecordsTraced ..).2 fun p hp haddr => h ⟨len, ntohs x, p, hlen, ?_, hp, haddr⟩
    exact (loadU16_iff ..).1 ⟨x, hx, rfl⟩

/-! ### `handle_data` -/

/-- An answer of type A comes from a record that was read to its end. -/
theorem addressAt_of_parseRecord {heap : Mem} {data : List UInt8} {r r' : ℕ} {rec : ResRecord}
    (h : parseRecord heap data r = .ok (rec, r')) {type : ℕ} (htype : loadU16 data rec.resource = .ok type)
    (h1 : ntohs type = 1) : AddressAt data r := by
  obtain ⟨⟨name, k⟩, hname, h⟩ := bind_eq_ok.1 h
  obtain ⟨type', htype', h⟩ := bind_eq_ok.1 h
  obtain ⟨owner, hk⟩ := (readName_ok_iff heap data r k).1 ⟨name, hname⟩
  split at h
  · obtain ⟨x, hx, h⟩ := bind_eq_ok.1 h
    obtain ⟨rdata, hcopy, h⟩ := bind_eq_ok.1 h
    cases h
    exact ⟨owner, k, ntohs x, hk, (loadU16_iff ..).1 ⟨type, htype, h1⟩, (loadU16_iff ..).1 ⟨x, hx, rfl⟩,
      (copyBytes_ok_iff ..).1 ⟨rdata, hcopy⟩⟩
  · next hne =>
    obtain ⟨⟨rdata, k'⟩, -, h⟩ := bind_eq_ok.1 h
    cases h
    obtain rfl := Except.ok.inj (htype'.symm.trans htype)
    exact absurd h1 hne

theorem addressAt_of_parseRecords {heap : Mem} {data : List UInt8} {n r : ℕ} {recs : List ResRecord}
    (h : parseRecords heap data n r = .ok recs) {rec : ResRecord} (hmem : rec ∈ recs) {type : ℕ}
    (htype : loadU16 data rec.resource = .ok type) (h1 : ntohs type = 1) :
    ∃ p, RecordStart data n r p ∧ AddressAt data p := by
  induction n generalizing r recs with
  | zero =>
    cases h
    cases hmem
  | succ n ih =>
    obtain ⟨⟨first, r'⟩, hrec, h⟩ := bind_eq_ok.1 h
    obtain ⟨rest, hrest, h⟩ := bind_eq_ok.1 h
    cases h
    rcases List.mem_cons.1 hmem with rfl | hmem
    · exact ⟨r, .here, addressAt_of_parseRecord hrec htype h1⟩
    · obtain ⟨p, hp, haddr⟩ := ih hrest hmem
      exact ⟨p, .next ((parseRecord_ok_iff heap data r r').1 ⟨first, hrec⟩) hp, haddr⟩

/-- Without an answer of type A no RDATA is read back. -/
theorem all_firstAddressTraced (heap : Mem) (data : List UInt8) {answers : List ResRecord}
    (h : ∀ rec ∈ answers, ∀ type, loadU16 data rec.resource = .ok type → ntohs type ≠ 1) :
    All Access.RdataInside (firstAddressTraced heap data answers) := by
  induction answers with
  | nil => exact all_pure _
  | cons rec answers ih =>
    refine all_bind.2 ⟨all_lift _, ?_⟩
    intro type htype
    have hne : ¬ ntohs type = qtypeA := h rec (by simp) type htype
    rw [if_neg hne]
    exact ih fun rec' hrec' => h rec' (List.mem_cons_of_mem _ hrec')

/-- **When the accesses to RDATA stay inside.**  Whatever the message and the state of the resolver, everything that
`parse_response` writes to the blocks it allocates for RDATA and that `handle_data` reads back lies within them exactly
when no record of type A is read to its end, whatever lengths such records announce. -/
theorem rdata_inside_iff {Cb : Type} (env : Env) (s : Resolver Cb) (data : List UInt8) :
    All Access.RdataInside (s.handleDataTraced env data) ↔ ¬ AddressRead data := by
  rw [Resolver.handleDataTraced, all_bind, all_parseResponseTraced]
  refine ⟨fun h => h.1, fun h => ⟨h, ?_⟩⟩
  intro answers hanswers
  rw [parseResponseTraced_outcome] at hanswers
  refine all_bind.2 ⟨all_firstAddressTraced _ _ fun rec hrec type htype h1 => h ?_, fun first _ => ?_⟩
  · obtain ⟨len, hlen, hanswers⟩ := bind_eq_ok.1 hanswers
    obtain ⟨x, hx, hanswers⟩ := bind_eq_ok.1 hanswers
    obtain ⟨p, hp, haddr⟩ := addressAt_of_parseRecords hanswers hrec htype h1
    exact ⟨len, ntohs x, p, hlen, (loadU16_iff ..).1 ⟨x, hx, rfl⟩, hp, haddr⟩
  · cases first <;> exact all_pure _

/-- An answer of type A with four bytes of RDATA: the zero goes to the fifth. -/
theorem address_record_outside : ¬ All Access.RdataInside (askedForA.handleDataTraced .zero directReply.msg) := by
  intro h
  have hout : Access.rdata 4 4 ∈ (askedForA.handleDataTraced .zero directReply.msg).trace := by decide
  exact absurd (h _ hout) (Nat.lt_irrefl 4)

end Shadowc.Dns
