import Shadowc.Dns.EncodeSpec
import Mathlib.Data.Nat.Find

/-!
# The encoder of `dns.c`

`dns.c` is the plain client that the resolver was made from.  Its `ChangetoDnsNameFormat` appends a dot to the host
name and copies a label whenever it meets one, where `change_to_dns_name_format` fills in the lengths afterwards.

Both write the labels between the dots with their lengths, for every host name (`changeToDnsNameFormat_eq`,
`changetoDnsNameFormat_eq`), and they differ in the cell that gets the terminator.  `queries_agree_iff` says when the
two programs send the same query.  Memory is flat here: what is written behind `send_req`'s `char buf[128]` goes to the
cells that follow, so that in the program the host name has to fit into the array (`Shadowc.Dns.QueryBounds`).
-/

namespace Shadowc.Dns

open Lib Reading Memory

/-! ### `ChangetoDnsNameFormat` -/

namespace Lookup

/-- The variables of `ChangetoDnsNameFormat`; `lock` is the index at which the current label starts. -/
structure Encoder where
  buf : Mem
  dns : ℕ
  lock : ℕ

/-- `for (; lock < i; lock++) *dns++ = host[lock];`, with `n` turns to go. -/
def Encoder.copyLabel (host : List UInt8) : ℕ → Encoder → Encoder
  | 0, e => e
  | n + 1, e =>
    copyLabel host n { buf := Function.update e.buf e.dns (host.getD e.lock 0), dns := e.dns + 1, lock := e.lock + 1 }

/-- The turn for `host[i]`. -/
def Encoder.turn (host : List UInt8) (e : Encoder) (i : ℕ) : Encoder :=
  if host.getD i 0 = 46 then
    let e := copyLabel host (i - e.lock)
      { e with buf := Function.update e.buf e.dns (UInt8.ofNat (i - e.lock)), dns := e.dns + 1 }
    { e with lock := e.lock + 1 }
  else e

/-- `www.google.com` to `3www6google3com`, written from index `dns` on. -/
def changetoDnsNameFormat (buf : Mem) (dns : ℕ) (host : List UInt8) : Mem :=
  -- `strcat(host, ".")`
  let host := host ++ [46]
  let e := (List.range host.length).foldl (Encoder.turn host) { buf, dns, lock := 0 }
  Function.update e.buf e.dns 0

/-- The array `buf` of `ngethostbyname` as it is sent, and how much of it. -/
def buildQuery (stack : Mem) (pid : ℕ) (host : List UInt8) (queryType : ℕ) : Mem × ℕ :=
  let qname := sizeofDnsHeader
  let buf := storeBytes stack 0 (queryHeader pid).bytes
  let buf := changetoDnsNameFormat buf qname host
  -- the terminator that was written stands `host.length + 1` cells after the start of the name
  let strlenQname := firstZero (fun i => buf (qname + i)) (host.length + 1)
  let qinfo := sizeofDnsHeader + (strlenQname + 1)
  let buf := storeBytes buf qinfo (u16Bytes (htons queryType) ++ u16Bytes (htons 1))
  (buf, sizeofDnsHeader + (strlenQname + 1) + sizeofQuestion)

theorem copyLabel_eq {host pre l rest : List UInt8} (h : host = pre ++ l ++ rest) (buf : Mem) (dns : ℕ) :
    Encoder.copyLabel host l.length { buf, dns, lock := pre.length } =
      { buf := storeBytes buf dns l, dns := dns + l.length, lock := pre.length + l.length } := by
  induction l generalizing pre buf dns with
  | nil => simp [Encoder.copyLabel, storeBytes_nil]
  | cons b l ih =>
    have hb : host.getD pre.length 0 = b := by simp [h]
    have h' : host = (pre ++ [b]) ++ l ++ rest := by simp [h]
    have ih := ih h' (Function.update buf dns b) (dns + 1)
    rw [List.length_append, List.length_singleton] at ih
    rw [List.length_cons, Encoder.copyLabel, hb, ih, storeBytes_cons, Encoder.mk.injEq]
    exact ⟨rfl, by omega, by omega⟩

/-- The characters of a label change nothing. -/
theorem foldl_turn_label {host pre l rest : List UInt8} (h : host = pre ++ l ++ rest) (hl : ∀ b ∈ l, b ≠ 46)
    (e : Encoder) : (List.range' pre.length l.length).foldl (Encoder.turn host) e = e := by
  induction l generalizing pre with
  | nil => rfl
  | cons b l ih =>
    have hb : host.getD pre.length 0 = b := by simp [h]
    have h' : host = (pre ++ [b]) ++ l ++ rest := by simp [h]
    have ih := ih h' fun c hc => hl c (List.mem_cons_of_mem _ hc)
    rw [List.length_append, List.length_singleton] at ih
    rw [List.length_cons, List.range'_succ, List.foldl_cons, Encoder.turn, hb, if_neg (hl b (by simp)), ih]

/-- **The loop of the encoder**, from the start of a label on: each label is copied when its dot is met. -/
theorem foldl_turn_labels {ls : Name} (hls : ∀ l ∈ ls, ∀ b ∈ l, b ≠ 46) {host pre : List UInt8}
    (h : host = pre ++ dotEach ls) (buf : Mem) (dns : ℕ) :
    (List.range' pre.length (dotEach ls).length).foldl (Encoder.turn host) { buf, dns, lock := pre.length } =
      { buf := storeBytes buf dns (encodeLabels ls), dns := dns + (encodeLabels ls).length, lock := host.length } := by
  induction ls generalizing pre buf dns with
  | nil => simp [dotEach, encodeLabels, storeBytes_nil, h]
  | cons l ls ih =>
    have hcons : dotEach (l :: ls) = l ++ (46 :: dotEach ls) := by simp [dotEach]
    rw [hcons] at h
    have hlabel : host = pre ++ l ++ (46 :: dotEach ls) := by rw [h, List.append_assoc]
    have hdot : host.getD (pre.length + l.length) 0 = 46 := by
      rw [hlabel, ← List.length_append, List.getD_eq_getElem?_getD]
      simp
    have hnext : host = (pre ++ l ++ [46]) ++ dotEach ls := by simp [hlabel]
    have ih := ih (fun l' hl' => hls l' (List.mem_cons_of_mem _ hl')) hnext
      (storeBytes buf dns (UInt8.ofNat l.length :: l)) (dns + 1 + l.length)
    have hpre : (pre ++ l ++ [46]).length = pre.length + l.length + 1 := by simp; omega
    rw [hpre] at ih
    -- the characters of the label, its dot, and the other labels
    have hturns : List.range' pre.length (l ++ 46 :: dotEach ls).length =
        List.range' pre.length l.length ++ (pre.length + l.length) ::
          List.range' (pre.length + l.length + 1) (dotEach ls).length := by
      rw [List.length_append, List.length_cons, ← List.range'_append_1, List.range'_succ]
    have hcopy := copyLabel_eq hlabel (Function.update buf dns (UInt8.ofNat l.length)) (dns + 1)
    have hturn : Encoder.turn host { buf, dns, lock := pre.length } (pre.length + l.length) =
        { buf := storeBytes buf dns (UInt8.ofNat l.length :: l), dns := dns + 1 + l.length,
          lock := pre.length + l.length + 1 } := by
      rw [Encoder.turn, if_pos hdot]
      simp only [Nat.add_sub_cancel_left]
      rw [hcopy, storeBytes_cons]
    rw [hcons, hturns, List.foldl_append, foldl_turn_label hlabel (hls l (by simp)), List.foldl_cons, hturn, ih]
    have henc : encodeLabels (l :: ls) = (UInt8.ofNat l.length :: l) ++ encodeLabels ls := rfl
    rw [henc, storeBytes_append, Encoder.mk.injEq, List.length_append, List.length_cons]
    exact ⟨by rw [show dns + (l.length + 1) = dns + 1 + l.length by omega], by omega, rfl⟩

end Lookup

/-! ### What both write -/

/-- The labels of a host name that is given as a string: what stands between its dots. -/
def labels (host : List UInt8) : Name := host.splitOn 46

theorem dotted_labels (host : List UInt8) : dotted (labels host) = host := List.intercalate_splitOn 46

theorem labels_ne_nil (host : List UInt8) : labels host ≠ [] := List.splitOn_ne_nil 46 host

theorem ne_dot_of_mem_labels (host : List UInt8) : ∀ l ∈ labels host, ∀ b ∈ l, b ≠ 46 := by
  induction host with
  | nil => simp [labels]
  | cons c host ih =>
    intro l hl b hb
    rw [labels, List.splitOn_cons_eq_if_modifyHead] at hl
    split at hl
    · rcases List.mem_cons.1 hl with rfl | hl
      · cases hb
      · exact ih l hl b hb
    · next hc =>
      obtain ⟨l₀, ls, hls⟩ := List.exists_cons_of_ne_nil (labels_ne_nil host)
      rw [labels] at hls
      rw [hls, List.modifyHead_cons] at hl
      rcases List.mem_cons.1 hl with rfl | hl
      · rcases List.mem_cons.1 hb with rfl | hb
        · simpa using hc
        · exact ih l₀ (by rw [labels, hls]; simp) b hb
      · exact ih l (by rw [labels, hls]; exact List.mem_cons_of_mem _ hl) b hb

theorem length_encode_labels (host : List UInt8) : (encodeLabels (labels host)).length = host.length + 1 := by
  rw [length_encodeLabels (labels_ne_nil host), dotted_labels]

/-- **The encoder of the resolver**, for every host name. -/
theorem changeToDnsNameFormat_eq (buf : Mem) (dns : ℕ) (host : List UInt8) :
    changeToDnsNameFormat buf dns host =
      Function.update (storeBytes buf dns (encodeLabels (labels host))) (dns + (host.length + 2)) 0 := by
  have h := changeToDnsNameFormat_labels (labels_ne_nil host) (ne_dot_of_mem_labels host) buf dns
  rwa [dotted_labels] at h

/-- **The encoder of `dns.c`**, for every host name. -/
theorem Lookup.changetoDnsNameFormat_eq (buf : Mem) (dns : ℕ) (host : List UInt8) :
    Lookup.changetoDnsNameFormat buf dns host =
      Function.update (storeBytes buf dns (encodeLabels (labels host))) (dns + (host.length + 1)) 0 := by
  have hdots : host ++ [46] = [] ++ dotEach (labels host) := by
    rw [dotEach_eq (labels_ne_nil host), dotted_labels, List.nil_append]
  have h := Lookup.foldl_turn_labels (ne_dot_of_mem_labels host) hdots buf dns
  rw [← List.nil_append (dotEach (labels host)), ← hdots, List.length_nil, ← List.range_eq_range'] at h
  simp only [Lookup.changetoDnsNameFormat, h, length_encode_labels]

/-! ### The queries -/

/-- What is sent of an array. -/
def datagram (query : Mem × ℕ) : List UInt8 := slice query.1 0 query.2

/-- The array of a query when its labels have been written. -/
def labelBuf (stack : Mem) (pid : ℕ) (host : List UInt8) : Mem :=
  storeBytes (storeBytes stack 0 (queryHeader pid).bytes) 12 (encodeLabels (labels host))

/-- A query whose name ends `k` bytes after its start. -/
def endedAt (buf : Mem) (k queryType : ℕ) : List UInt8 :=
  slice buf 0 (12 + (k + 1)) ++ (be16 queryType ++ be16 1)

theorem length_endedAt (buf : Mem) (k queryType : ℕ) : (endedAt buf k queryType).length = k + 17 := by
  simp [endedAt, be16]
  omega

theorem endedAt_congr {buf buf' : Mem} {k : ℕ} (queryType : ℕ) (h : ∀ i < 12 + (k + 1), buf i = buf' i) :
    endedAt buf k queryType = endedAt buf' k queryType := by
  have hslice : slice buf 0 (12 + (k + 1)) = slice buf' 0 (12 + (k + 1)) :=
    slice_congr fun i hi => h (0 + i) (by omega)
  rw [endedAt, endedAt, hslice]

theorem slice_query (buf : Mem) (k queryType : ℕ) :
    slice (storeBytes buf (12 + (k + 1)) (u16Bytes (htons queryType) ++ u16Bytes (htons 1))) 0 (12 + (k + 1) + 4) =
      endedAt buf k queryType := by
  rw [u16Bytes_htons, u16Bytes_htons, slice_add, slice_storeBytes_of_lt _ _ (by omega), Nat.zero_add]
  exact congrArg (slice buf 0 (12 + (k + 1)) ++ ·) (slice_storeBytes buf _ (be16 queryType ++ be16 1))

theorem datagram_buildQuery (stack : Mem) (pid : ℕ) (host : List UInt8) (queryType : ℕ) :
    datagram (buildQuery stack pid host queryType) =
      endedAt (Function.update (labelBuf stack pid host) (12 + (host.length + 2)) 0)
        (firstZero (fun i => Function.update (labelBuf stack pid host) (12 + (host.length + 2)) 0 (12 + i))
          (host.length + 2)) queryType := by
  simp only [datagram, buildQuery, sizeofDnsHeader, sizeofQuestion, changeToDnsNameFormat_eq]
  exact slice_query _ _ queryType

theorem Lookup.datagram_buildQuery (stack : Mem) (pid : ℕ) (host : List UInt8) (queryType : ℕ) :
    datagram (Lookup.buildQuery stack pid host queryType) =
      endedAt (Function.update (labelBuf stack pid host) (12 + (host.length + 1)) 0)
        (firstZero (fun i => Function.update (labelBuf stack pid host) (12 + (host.length + 1)) 0 (12 + i))
          (host.length + 1)) queryType := by
  simp only [datagram, Lookup.buildQuery, sizeofDnsHeader, sizeofQuestion, Lookup.changetoDnsNameFormat_eq]
  exact slice_query _ _ queryType

theorem labelBuf_gap (stack : Mem) (pid : ℕ) (host : List UInt8) :
    labelBuf stack pid host (12 + (host.length + 1)) = stack (12 + (host.length + 1)) := by
  have hlen := length_encode_labels host
  rw [labelBuf, storeBytes_of_ge _ _ (by omega), storeBytes_of_ge]
  rw [length_queryHeader]
  omega

/-- The cells of the labels. -/
theorem mem_labels_iff (stack : Mem) (pid : ℕ) (host : List UInt8) (b : UInt8) :
    b ∈ encodeLabels (labels host) ↔ ∃ i ≤ host.length, labelBuf stack pid host (12 + i) = b := by
  have hslice : slice (labelBuf stack pid host) 12 (host.length + 1) = encodeLabels (labels host) := by
    rw [← length_encode_labels]
    exact slice_storeBytes _ 12 _
  rw [← hslice]
  simp only [slice, List.mem_map, List.mem_range, Nat.lt_succ_iff]

/-- A length byte is zero when the length is zero or too large for a byte. -/
theorem zero_mem_encodeLabels {ls : Name} (h : ∀ l ∈ ls, ∀ b ∈ l, b ≠ 0) :
    0 ∈ encodeLabels ls ↔ ∃ l ∈ ls, l.length % 256 = 0 := by
  induction ls with
  | nil => simp [encodeLabels]
  | cons l ls ih =>
    have hzero : (0 : UInt8) = UInt8.ofNat l.length ↔ l.length % 256 = 0 := by
      rw [← UInt8.toNat_inj]
      simp [eq_comm]
    have hl : (0 : UInt8) ∉ l := fun h0 => h l (by simp) 0 h0 rfl
    have ih := ih fun l' hl' => h l' (List.mem_cons_of_mem _ hl')
    simp only [encodeLabels, List.mem_cons, List.mem_append, hl, false_or, ih, hzero, exists_eq_or_imp]

theorem mem_of_mem_labels {host l : List UInt8} (hl : l ∈ labels host) {b : UInt8} (hb : b ∈ l) : b ∈ host := by
  have hmem : b ∈ dotEach (labels host) := List.mem_flatMap.2 ⟨l, hl, List.mem_append_left _ hb⟩
  rw [dotEach_eq (labels_ne_nil host), dotted_labels] at hmem
  rcases List.mem_append.1 hmem with hmem | hmem
  · exact hmem
  · exact absurd (List.mem_singleton.1 hmem) (ne_dot_of_mem_labels host l hl b hb)

/-- **When the resolver sends the query of `dns.c`.**  For every host name, the two programs send the same bytes
exactly when one of its labels has a length byte of zero (it is empty, or its length a multiple of 256), where both
break off, or the cell behind the labels was zero before. -/
theorem queries_agree_iff {host : List UInt8} (h : ∀ b ∈ host, b ≠ 0) (stack : Mem) (pid queryType : ℕ) :
    datagram (buildQuery stack pid host queryType) = datagram (Lookup.buildQuery stack pid host queryType) ↔
      (∃ l ∈ labels host, l.length % 256 = 0) ∨ stack (12 + (host.length + 1)) = 0 := by
  have hgap := labelBuf_gap stack pid host
  have hzero := zero_mem_encodeLabels fun l hl b hb => h b (mem_of_mem_labels hl hb)
  rw [datagram_buildQuery, Lookup.datagram_buildQuery, ← hzero, mem_labels_iff stack pid]
  generalize labelBuf stack pid host = buf at *
  -- the two arrays, which differ in the cells behind the labels
  have hnew : ∀ i ≤ host.length + 1, Function.update buf (12 + (host.length + 2)) 0 (12 + i) = buf (12 + i) :=
    fun i hi => Function.update_of_ne (by omega) ..
  have hold : ∀ i ≤ host.length, Function.update buf (12 + (host.length + 1)) 0 (12 + i) = buf (12 + i) :=
    fun i hi => Function.update_of_ne (by omega) ..
  by_cases hlabel : ∃ i ≤ host.length, buf (12 + i) = 0
  · -- both break off at the first zero
    have hfirst := Nat.find_spec hlabel
    have hleast : ∀ i < Nat.find hlabel, buf (12 + i) ≠ 0 := fun i hi h0 =>
      Nat.find_min hlabel hi ⟨by omega, h0⟩
    rw [firstZero_eq (k := Nat.find hlabel) (by omega) ((hnew _ (by omega)).trans hfirst.2)
        fun i hi => by rw [hnew i (by omega)]; exact hleast i hi,
      firstZero_eq (k := Nat.find hlabel) (by omega) ((hold _ hfirst.1).trans hfirst.2)
        fun i hi => by rw [hold i (by omega)]; exact hleast i hi]
    refine iff_of_true (endedAt_congr queryType fun i hi => ?_) (.inl hlabel)
    rw [Function.update_of_ne (by omega), Function.update_of_ne (by omega)]
  · have hne : ∀ i ≤ host.length, buf (12 + i) ≠ 0 := fun i hi h0 => hlabel ⟨i, hi, h0⟩
    have hold' : firstZero (fun i => Function.update buf (12 + (host.length + 1)) 0 (12 + i)) (host.length + 1) =
        host.length + 1 :=
      firstZero_eq le_rfl (Function.update_self ..) fun i hi => by rw [hold i (by omega)]; exact hne i (by omega)
    rw [hold', or_iff_right hlabel, ← hgap]
    by_cases h0 : buf (12 + (host.length + 1)) = 0
    · -- the cell in between is the terminator
      rw [firstZero_eq (k := host.length + 1) (by omega) ((hnew _ le_rfl).trans h0)
        fun i hi => by rw [hnew i (by omega)]; exact hne i (by omega)]
      refine iff_of_true (endedAt_congr queryType fun i hi => ?_) h0
      rw [Function.update_of_ne (by omega)]
      by_cases hi' : i = 12 + (host.length + 1)
      · rw [hi', Function.update_self, h0]
      · rw [Function.update_of_ne hi']
    · -- the resolver's query is longer by that cell
      have hnew' : firstZero (fun i => Function.update buf (12 + (host.length + 2)) 0 (12 + i)) (host.length + 2) =
          host.length + 2 := by
        refine firstZero_eq le_rfl (Function.update_self ..) fun i hi => ?_
        rw [hnew i (by omega)]
        by_cases hi' : i = host.length + 1
        · rwa [hi']
        · exact hne i (by omega)
      rw [hnew']
      refine iff_of_false (fun heq => ?_) h0
      have hlen := congrArg List.length heq
      rw [length_endedAt, length_endedAt] at hlen
      omega

/-- `a` into arrays that hold other bytes, and `.a`, whose first label is empty. -/
theorem queries_agree_iff_a : datagram (buildQuery (fun _ => 170) 1 [97] qtypeA) ≠
      datagram (Lookup.buildQuery (fun _ => 170) 1 [97] qtypeA) ∧
    datagram (buildQuery (fun _ => 170) 1 [46, 97] qtypeA) =
      datagram (Lookup.buildQuery (fun _ => 170) 1 [46, 97] qtypeA) := by
  constructor
  · intro heq
    exact absurd ((queries_agree_iff (by simp) (fun _ => 170) 1 qtypeA).1 heq) (by decide)
  · exact (queries_agree_iff (by simp) (fun _ => 170) 1 qtypeA).2 (.inl ⟨[], by decide, rfl⟩)

end Shadowc.Dns
