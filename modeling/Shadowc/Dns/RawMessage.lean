import Shadowc.Dns.ParseSpec

/-!
# What `parse_response` looks at

Any bytes may come as a message.  What the parser makes of them is said here without its loops, and without a
well-formed message: `RawName` is a name that is read to its zero byte, `RawRecord` a record whose names are, and
`NameStart` holds of the offsets at which the parser comes to a name.

* `parseRecords_ok_iff`: the answer loop returns exactly when the records follow each other in the message;
* `parseRecords_hang_iff`: it goes on for ever exactly when one of the names does that it comes to;
* `complete_iff`: in all other messages it runs off the end.
-/

namespace Shadowc.Dns

open Lib Reading

/-! ### Fields -/

/-- A 16-bit field of the message. -/
def Field16 (data : List UInt8) (i v : ℕ) : Prop :=
  ∃ hi lo, data[i]? = some hi ∧ data[i + 1]? = some lo ∧ v = hi.toNat * 256 + lo.toNat

theorem loadU16_iff (data : List UInt8) (i v : ℕ) : (∃ x, loadU16 data i = .ok x ∧ ntohs x = v) ↔ Field16 data i v := by
  constructor
  · rintro ⟨x, h, rfl⟩
    obtain ⟨hi, hhi, h⟩ := bind_eq_ok.1 h
    obtain ⟨lo, hlo, h⟩ := bind_eq_ok.1 h
    cases h
    exact ⟨hi, lo, readByte_ok hhi, readByte_ok hlo, ntohs_swap hi.toNat_lt lo.toNat_lt⟩
  · rintro ⟨hi, lo, hhi, hlo, rfl⟩
    exact ⟨_, loadU16_eq hhi hlo, ntohs_swap hi.toNat_lt lo.toNat_lt⟩

theorem Field16.unique {data : List UInt8} {i v w : ℕ} (hv : Field16 data i v) (hw : Field16 data i w) : v = w := by
  obtain ⟨x, hx, rfl⟩ := (loadU16_iff data i v).2 hv
  obtain ⟨y, hy, rfl⟩ := (loadU16_iff data i w).2 hw
  obtain rfl := Except.ok.inj (hx.symm.trans hy)
  rfl

theorem readByte_ne_hang (data : List UInt8) (i : ℕ) : readByte data i ≠ .error .hang := by
  unfold readByte
  split <;> simp

theorem loadU16_ne_hang (data : List UInt8) (i : ℕ) : loadU16 data i ≠ .error .hang := by
  intro h
  rcases bind_eq_error.1 h with h | ⟨_, -, h⟩
  · exact readByte_ne_hang _ _ h
  rcases bind_eq_error.1 h with h | ⟨_, -, h⟩
  · exact readByte_ne_hang _ _ h
  · cases h

theorem copyBytes_ne_hang (data : List UInt8) (n r : ℕ) : copyBytes data n r ≠ .error .hang := by
  induction n generalizing r with
  | zero => simp [copyBytes, pure, Except.pure]
  | succ n ih =>
    intro h
    rcases bind_eq_error.1 h with h | ⟨_, -, h⟩
    · exact readByte_ne_hang _ _ h
    rcases bind_eq_error.1 h with h | ⟨_, -, h⟩
    · exact ih _ h
    · cases h

theorem copyBytes_ok_iff (data : List UInt8) (n r : ℕ) :
    (∃ bs, copyBytes data n r = .ok bs) ↔ ∀ j < n, r + j < data.length := by
  induction n generalizing r with
  | zero => simp [copyBytes, pure, Except.pure]
  | succ n ih =>
    constructor
    · rintro ⟨bs, h⟩ j hj
      obtain ⟨b, hb, h⟩ := bind_eq_ok.1 h
      obtain ⟨cs, hcs, -⟩ := bind_eq_ok.1 h
      cases j with
      | zero => exact (List.getElem?_eq_some_iff.1 (readByte_ok hb)).1
      | succ j =>
        have := (ih (r + 1)).1 ⟨cs, hcs⟩ j (by omega)
        omega
    · intro h
      have hr : r < data.length := h 0 (by omega)
      obtain ⟨cs, hcs⟩ := (ih (r + 1)).2 fun j hj => by
        have := h (j + 1) (by omega)
        omega
      exact ⟨data[r] :: cs, bind_eq_ok.2 ⟨data[r], readByte_eq (List.getElem?_eq_getElem hr),
        bind_eq_ok.2 ⟨cs, hcs, rfl⟩⟩⟩

/-! ### Records -/

/-- How many bytes a name takes in place is determined by where it starts. -/
theorem RawName.unique {data : List UInt8} {r k k' : ℕ} {bs bs' : List UInt8} (h : RawName data r bs k)
    (h' : RawName data r bs' k') : k = k' := by
  obtain ⟨name, hn⟩ := (readName_ok_iff (fun _ => 0) data r k).2 ⟨bs, h⟩
  obtain ⟨name', hn'⟩ := (readName_ok_iff (fun _ => 0) data r k').2 ⟨bs', h'⟩
  exact congrArg Prod.snd (Except.ok.inj (hn.symm.trans hn'))

/-- A record starts at `r`, its names are read to the end, and the next one starts at `r'`. -/
inductive RawRecord (data : List UInt8) : ℕ → ℕ → Prop
  | address {r k len : ℕ} {name : List UInt8} : RawName data r name k → Field16 data (r + k) 1 →
      Field16 data (r + k + 8) len → (∀ j < len, r + k + 10 + j < data.length) → RawRecord data r (r + k + 10 + len)
  | domain {r k type k' : ℕ} {name target : List UInt8} : RawName data r name k → Field16 data (r + k) type →
      type ≠ 1 → RawName data (r + k + 10) target k' → RawRecord data r (r + k + 10 + k')

/-- From `r` on `n` records follow each other. -/
inductive RawRecords (data : List UInt8) : ℕ → ℕ → Prop
  | nil {r : ℕ} : RawRecords data 0 r
  | cons {n r r' : ℕ} : RawRecord data r r' → RawRecords data n r' → RawRecords data (n + 1) r

/-- With `n` records to go from `r` on, the parser comes to a name at `p`. -/
inductive NameRead (data : List UInt8) : ℕ → ℕ → ℕ → Prop
  | owner {n r : ℕ} : NameRead data (n + 1) r r
  | target {n r k type : ℕ} {name : List UInt8} : RawName data r name k → Field16 data (r + k) type → type ≠ 1 →
      NameRead data (n + 1) r (r + k + 10)
  | next {n r r' p : ℕ} : RawRecord data r r' → NameRead data n r' p → NameRead data (n + 1) r p

theorem parseRecord_ok_iff (heap : Memory.Mem) (data : List UInt8) (r r' : ℕ) :
    (∃ rec, parseRecord heap data r = .ok (rec, r')) ↔ RawRecord data r r' := by
  constructor
  · rintro ⟨rec, h⟩
    obtain ⟨⟨name, k⟩, hname, h⟩ := bind_eq_ok.1 h
    obtain ⟨type, htype, h⟩ := bind_eq_ok.1 h
    obtain ⟨owner, hk⟩ := (readName_ok_iff heap data r k).1 ⟨name, hname⟩
    have ht := (loadU16_iff data (r + k) _).1 ⟨type, htype, rfl⟩
    split at h
    · next h1 =>
      obtain ⟨len, hlen, h⟩ := bind_eq_ok.1 h
      obtain ⟨rdata, hcopy, h⟩ := bind_eq_ok.1 h
      cases h
      rw [h1] at ht
      exact .address hk ht ((loadU16_iff data _ _).1 ⟨len, hlen, rfl⟩) ((copyBytes_ok_iff ..).1 ⟨rdata, hcopy⟩)
    · next h1 =>
      obtain ⟨⟨rdata, k'⟩, hrdata, h⟩ := bind_eq_ok.1 h
      cases h
      obtain ⟨target, hk'⟩ := (readName_ok_iff heap data _ k').1 ⟨rdata, hrdata⟩
      exact .domain hk ht h1 hk'
  · intro h
    cases h with
    | @address k len owner hk ht hl hcopy =>
      obtain ⟨name, hname⟩ := (readName_ok_iff heap data r k).2 ⟨owner, hk⟩
      obtain ⟨type, htype, h1⟩ := (loadU16_iff ..).2 ht
      obtain ⟨x, hx, rfl⟩ := (loadU16_iff ..).2 hl
      obtain ⟨rdata, hrdata⟩ := (copyBytes_ok_iff ..).2 hcopy
      simp only [parseRecord, hname, htype, if_pos h1, hx, sizeofRData, hrdata, Bind.bind, Except.bind]
      exact ⟨_, rfl⟩
    | @domain k type k' owner target hk ht h1 hk' =>
      obtain ⟨name, hname⟩ := (readName_ok_iff heap data r k).2 ⟨owner, hk⟩
      obtain ⟨x, hx, rfl⟩ := (loadU16_iff ..).2 ht
      obtain ⟨rdata, hrdata⟩ := (readName_ok_iff heap data _ k').2 ⟨target, hk'⟩
      simp only [parseRecord, hname, hx, if_neg h1, sizeofRData, hrdata, Bind.bind, Except.bind]
      exact ⟨_, rfl⟩

theorem parseRecords_ok_iff (heap : Memory.Mem) (data : List UInt8) (n r : ℕ) :
    (∃ recs, parseRecords heap data n r = .ok recs) ↔ RawRecords data n r := by
  induction n generalizing r with
  | zero => exact ⟨fun _ => .nil, fun _ => ⟨[], rfl⟩⟩
  | succ n ih =>
    constructor
    · rintro ⟨recs, h⟩
      obtain ⟨⟨rec, r'⟩, hrec, h⟩ := bind_eq_ok.1 h
      obtain ⟨rest, hrest, -⟩ := bind_eq_ok.1 h
      exact .cons ((parseRecord_ok_iff heap data r r').1 ⟨rec, hrec⟩) ((ih r').1 ⟨rest, hrest⟩)
    · intro h
      cases h with
      | @cons _ _ r' hrec hrest =>
        obtain ⟨rec, hrec⟩ := (parseRecord_ok_iff heap data r r').2 hrec
        obtain ⟨rest, hrest⟩ := (ih r').2 hrest
        exact ⟨rec :: rest, bind_eq_ok.2 ⟨(rec, r'), hrec, bind_eq_ok.2 ⟨rest, hrest, rfl⟩⟩⟩

/-- **One turn of the answer loop** goes on for ever in the owner name or in the name of the RDATA. -/
theorem parseRecord_hang_iff (heap : Memory.Mem) (data : List UInt8) (r : ℕ) :
    parseRecord heap data r = .error .hang ↔ Walk.Loops (hop data) r ∨
      ∃ name k type, RawName data r name k ∧ Field16 data (r + k) type ∧ type ≠ 1 ∧
        Walk.Loops (hop data) (r + k + 10) := by
  constructor
  · intro h
    rcases bind_eq_error.1 h with h | ⟨⟨name, k⟩, hname, h⟩
    · exact .inl ((readName_hang_iff ..).1 h)
    obtain ⟨owner, hk⟩ := (readName_ok_iff heap data r k).1 ⟨name, hname⟩
    rcases bind_eq_error.1 h with h | ⟨type, htype, h⟩
    · exact absurd h (loadU16_ne_hang _ _)
    split at h
    · -- an address is copied, which always ends
      rcases bind_eq_error.1 h with h | ⟨len, -, h⟩
      · exact absurd h (loadU16_ne_hang _ _)
      rcases bind_eq_error.1 h with h | ⟨rdata, -, h⟩
      · exact absurd h (copyBytes_ne_hang _ _ _)
      · cases h
    · next h1 =>
      rcases bind_eq_error.1 h with h | ⟨_, -, h⟩
      · have ht := (loadU16_iff data (r + k) _).1 ⟨type, htype, rfl⟩
        exact .inr ⟨owner, k, ntohs type, hk, ht, h1, (readName_hang_iff ..).1 h⟩
      · cases h
  · rintro (h | ⟨owner, k, type, hk, ht, h1, h⟩)
    · exact bind_eq_error.2 (.inl ((readName_hang_iff ..).2 h))
    · obtain ⟨name, hname⟩ := (readName_ok_iff heap data r k).2 ⟨owner, hk⟩
      obtain ⟨x, hx, rfl⟩ := (loadU16_iff ..).2 ht
      have hang := (readName_hang_iff heap data (r + k + 10)).2 h
      simp only [parseRecord, hname, hx, if_neg h1, sizeofRData, hang, Bind.bind, Except.bind]

/-- **The answer loop goes on for ever** exactly when a name it comes to does. -/
theorem parseRecords_hang_iff (heap : Memory.Mem) (data : List UInt8) (n r : ℕ) :
    parseRecords heap data n r = .error .hang ↔ ∃ p, NameRead data n r p ∧ Walk.Loops (hop data) p := by
  induction n generalizing r with
  | zero =>
    refine ⟨fun h => (by cases h), ?_⟩
    rintro ⟨p, hp, -⟩
    cases hp
  | succ n ih =>
    constructor
    · intro h
      rcases bind_eq_error.1 h with h | ⟨⟨rec, r'⟩, hrec, h⟩
      · rcases (parseRecord_hang_iff ..).1 h with h | ⟨_, k, type, hk, ht, h1, h⟩
        · exact ⟨r, .owner, h⟩
        · exact ⟨_, .target hk ht h1, h⟩
      · rcases bind_eq_error.1 h with h | ⟨_, -, h⟩
        · obtain ⟨p, hp, hl⟩ := (ih r').1 h
          exact ⟨p, .next ((parseRecord_ok_iff heap data r r').1 ⟨rec, hrec⟩) hp, hl⟩
        · cases h
    · rintro ⟨p, hp, hl⟩
      cases hp with
      | owner => exact bind_eq_error.2 (.inl ((parseRecord_hang_iff ..).2 (.inl hl)))
      | target hk ht h1 => exact bind_eq_error.2 (.inl ((parseRecord_hang_iff ..).2 (.inr ⟨_, _, _, hk, ht, h1, hl⟩)))
      | @next _ _ r' _ hrec hp =>
        obtain ⟨rec, hrec⟩ := (parseRecord_ok_iff heap data r r').2 hrec
        exact bind_eq_error.2 (.inr ⟨(rec, r'), hrec, bind_eq_error.2 (.inl ((ih r').2 ⟨p, hp, hl⟩))⟩)

/-! ### Messages -/

/-- The parser comes to a name at `p`: the question is a string of `len` bytes, and `count` records follow it. -/
def NameStart (data : List UInt8) (p : ℕ) : Prop :=
  ∃ len count, strlen (data.drop sizeofDnsHeader) = .ok len ∧ Field16 data 6 count ∧
    NameRead data count (sizeofDnsHeader + (len + 1) + sizeofQuestion) p

theorem parseResponse_hang_iff (heap : Memory.Mem) (data : List UInt8) :
    parseResponse heap data = .error .hang ↔ ∃ p, NameStart data p ∧ Walk.Loops (hop data) p := by
  constructor
  · intro h
    rcases bind_eq_error.1 h with h | ⟨len, hlen, h⟩
    · exact absurd h (strlen_ne_hang _)
    rcases bind_eq_error.1 h with h | ⟨count, hcount, h⟩
    · exact absurd h (loadU16_ne_hang _ _)
    obtain ⟨p, hp, hl⟩ := (parseRecords_hang_iff ..).1 h
    exact ⟨p, ⟨len, ntohs count, hlen, (loadU16_iff ..).1 ⟨count, hcount, rfl⟩, hp⟩, hl⟩
  · rintro ⟨p, ⟨len, count, hlen, hcount, hp⟩, hl⟩
    obtain ⟨x, hx, rfl⟩ := (loadU16_iff ..).2 hcount
    exact bind_eq_error.2 (.inr ⟨len, hlen, bind_eq_error.2 (.inr ⟨x, hx, (parseRecords_hang_iff ..).2 ⟨p, hp, hl⟩⟩)⟩)

/-- The header, the question and as many records as ANCOUNT says are there. -/
def Whole (data : List UInt8) : Prop :=
  ∃ len count, strlen (data.drop sizeofDnsHeader) = .ok len ∧ Field16 data 6 count ∧
    RawRecords data count (sizeofDnsHeader + (len + 1) + sizeofQuestion)

theorem parseResponse_ok_iff (heap : Memory.Mem) (data : List UInt8) :
    (∃ recs, parseResponse heap data = .ok recs) ↔ Whole data := by
  constructor
  · rintro ⟨recs, h⟩
    obtain ⟨len, hlen, h⟩ := bind_eq_ok.1 h
    obtain ⟨count, hcount, h⟩ := bind_eq_ok.1 h
    exact ⟨len, ntohs count, hlen, (loadU16_iff ..).1 ⟨count, hcount, rfl⟩, (parseRecords_ok_iff ..).1 ⟨recs, h⟩⟩
  · rintro ⟨len, count, hlen, hcount, h⟩
    obtain ⟨x, hx, rfl⟩ := (loadU16_iff ..).2 hcount
    obtain ⟨recs, hrecs⟩ := (parseRecords_ok_iff heap ..).2 h
    exact ⟨recs, bind_eq_ok.2 ⟨len, hlen, bind_eq_ok.2 ⟨x, hx, hrecs⟩⟩⟩

/-- Every byte that is looked at is there: the message is whole, or one of its names is read for ever. -/
def Complete (data : List UInt8) : Prop := Whole data ∨ ∃ p, NameStart data p ∧ Walk.Loops (hop data) p

/-- **`parse_response` runs off the end of a message** exactly when the message is not complete. -/
theorem complete_iff (heap : Memory.Mem) (data : List UInt8) :
    Complete data ↔ parseResponse heap data ≠ .error .oob := by
  rw [Complete, ← parseResponse_ok_iff heap, ← parseResponse_hang_iff heap]
  cases parseResponse heap data with
  | ok recs => simp
  | error e => cases e <;> simp

end Shadowc.Dns
