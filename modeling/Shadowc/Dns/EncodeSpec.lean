import Shadowc.Dns.NameSpec
import Shadowc.Dns.Request

/-!
# What `change_to_dns_name_format` and `send_req` write

For a host name of labels the encoder stores the labels with their lengths, and a zero *two* cells after the last
character (`changeToDnsNameFormat_dotted`).  The cell in between, where the terminator of the name belongs, keeps what
it held before.  `send_req` looks for the terminator from the start of the name and places type and class behind the
one it finds (`buildQuery_dotted`), so that the query is right exactly when the cell happened to hold a zero:
`encoded_iff`.
-/

namespace Shadowc.Dns

open Lib Reading Memory

/-! ### Stores -/

section Stores

variable (m : Mem) (i : ℕ)

theorem storeBytes_nil : storeBytes m i [] = m := by
  funext k
  simp [storeBytes]

theorem storeBytes_cons (b : UInt8) (l : List UInt8) :
    storeBytes m i (b :: l) = storeBytes (Function.update m i b) (i + 1) l := by
  funext k
  unfold storeBytes
  rcases Nat.lt_trichotomy k i with hk | rfl | hk
  · rw [if_neg (by omega), if_neg (by omega), Function.update_of_ne (by omega)]
  · rw [if_pos le_rfl, if_neg (by omega), Function.update_self]
    simp
  · rw [if_pos (by omega), if_pos (by omega), Function.update_of_ne (by omega)]
    rw [show k - i = k - (i + 1) + 1 by omega, List.getElem?_cons_succ]

theorem storeBytes_append (l l' : List UInt8) :
    storeBytes m i (l ++ l') = storeBytes (storeBytes m i l) (i + l.length) l' := by
  induction l generalizing m i with
  | nil => rw [storeBytes_nil]; rfl
  | cons b l ih =>
    rw [List.cons_append, storeBytes_cons, storeBytes_cons, ih, List.length_cons]
    rw [show i + 1 + l.length = i + (l.length + 1) by omega]

/-- A cell before those that are stored can be written before or after. -/
theorem update_storeBytes {j : ℕ} (v : UInt8) (l : List UInt8) (h : j < i) :
    Function.update (storeBytes m i l) j v = storeBytes (Function.update m j v) i l := by
  funext k
  by_cases hk : k = j
  · subst hk
    rw [Function.update_self, storeBytes, if_neg (by omega), Function.update_self]
  · rw [Function.update_of_ne hk]
    simp only [storeBytes, Function.update_of_ne hk]

theorem storeBytes_of_lt {l : List UInt8} {k : ℕ} (h : k < i) : storeBytes m i l k = m k := by
  rw [storeBytes, if_neg (by omega)]

theorem storeBytes_of_ge {l : List UInt8} {k : ℕ} (h : i + l.length ≤ k) : storeBytes m i l k = m k := by
  rw [storeBytes, if_pos (by omega), List.getElem?_eq_none (by omega)]
  rfl

theorem slice_storeBytes (l : List UInt8) : slice (storeBytes m i l) i l.length = l := by
  refine List.ext_getElem? ?_
  intro k
  rcases Nat.lt_or_ge k l.length with hk | hk
  · rw [getElem?_slice _ _ hk, storeBytes, if_pos (by omega), show i + k - i = k by omega]
    rw [List.getElem?_eq_getElem hk]
    rfl
  · rw [List.getElem?_eq_none hk, List.getElem?_eq_none (by simpa using hk)]

theorem slice_storeBytes_of_lt {l : List UInt8} {j n : ℕ} (h : j + n ≤ i) :
    slice (storeBytes m i l) j n = slice m j n :=
  slice_congr fun k hk => storeBytes_of_lt m i (by omega)

end Stores

/-! ### Host names -/

/-- A label of a host name that is given as a string: 1 to 63 characters, none of them a dot. -/
def HostLabel (l : Label) : Prop := 0 < l.length ∧ l.length < 64 ∧ ∀ b ∈ l, b ≠ 0 ∧ b ≠ 46

instance (l : Label) : Decidable (HostLabel l) :=
  have : Decidable (∀ b ∈ l, b ≠ 0 ∧ b ≠ 46) := List.decidableBAll _ l
  instDecidableAnd

/-- A host name of one or more labels, without a trailing dot. -/
def HostName (ls : Name) : Prop := ls ≠ [] ∧ ∀ l ∈ ls, HostLabel l

instance (ls : Name) : Decidable (HostName ls) := by unfold HostName; infer_instance

theorem HostName.ne_zero {ls : Name} (h : HostName ls) : ∀ b ∈ encodeLabels ls, b ≠ 0 :=
  encodeLabels_ne_zero fun l hl => ⟨(h.2 l hl).1, (h.2 l hl).2.1, fun b hb => ((h.2 l hl).2.2 b hb).1⟩

/-- On the wire the labels take one byte more than the string. -/
theorem length_encodeLabels {ls : Name} (h : ls ≠ []) : (encodeLabels ls).length = (dotted ls).length + 1 := by
  have hlen : (encodeLabels ls).length = (dotEach ls).length := by
    clear h
    induction ls with
    | nil => rfl
    | cons l ls ih =>
      simp only [dotEach, List.flatMap_cons, encodeLabels, List.length_cons, List.length_append] at ih ⊢
      rw [ih]
      simp
      omega
  rw [hlen, dotEach_eq h]
  simp

/-! ### The encoder -/

/-- The characters of a label go to the cells from `dns` on. -/
theorem foldl_put_label {l : List UInt8} (hl : ∀ b ∈ l, b ≠ 46) (e : Encoder) :
    l.foldl Encoder.put e =
      { e with
        buf := storeBytes e.buf e.dns l
        dns := e.dns + l.length
        labelLen := e.labelLen + UInt8.ofNat l.length } := by
  induction l generalizing e with
  | nil => simp [storeBytes_nil]
  | cons b l ih =>
    have hput : e.put b =
        { e with buf := Function.update e.buf e.dns b, dns := e.dns + 1, labelLen := e.labelLen + 1 } :=
      if_neg (hl b (by simp))
    rw [List.foldl_cons, ih (fun c hc => hl c (List.mem_cons_of_mem _ hc)), hput, storeBytes_cons]
    simp only [List.length_cons, Encoder.mk.injEq, true_and, and_true]
    refine ⟨by omega, ?_⟩
    rw [UInt8.ofNat_add, UInt8.add_assoc, UInt8.add_comm 1]
    rfl

/-- **The loop of the encoder**: what stands in the buffer when the last length byte has been patched in. -/
theorem foldl_put_labels {ls : Name} (hne : ls ≠ []) (hls : ∀ l ∈ ls, ∀ b ∈ l, b ≠ 46) (buf : Mem) (p : ℕ) :
    ∃ e, (dotted ls).foldl Encoder.put { buf, dns := p + 1, labelLen := 0, labelLenPtr := p } = e ∧
      e.dns = p + 1 + (dotted ls).length ∧
      Function.update e.buf e.labelLenPtr e.labelLen = storeBytes buf p (encodeLabels ls) := by
  induction ls generalizing buf p with
  | nil => exact absurd rfl hne
  | cons l ls ih =>
    have hlab := foldl_put_label (hls l (by simp)) { buf, dns := p + 1, labelLen := 0, labelLenPtr := p }
    simp only [UInt8.zero_add] at hlab
    -- the label with its length, once the pointer to the length byte has been followed
    have hbuf : Function.update (storeBytes buf (p + 1) l) p (UInt8.ofNat l.length) =
        storeBytes buf p (UInt8.ofNat l.length :: l) := by
      rw [update_storeBytes _ _ _ _ (by omega), storeBytes_cons]
    cases ls with
    | nil =>
      refine ⟨_, rfl, ?_, ?_⟩
      · simp [dotted, hlab]
      · simp [dotted, hlab, hbuf, encodeLabels]
    | cons l' ls =>
      obtain ⟨e, he, hdns, hfinal⟩ := ih (by simp) (fun l'' hl'' => hls l'' (List.mem_cons_of_mem _ hl''))
        (storeBytes buf p (UInt8.ofNat l.length :: l)) (p + 1 + l.length)
      have hd : dotted (l :: l' :: ls) = l ++ 46 :: dotted (l' :: ls) := by
        simp [dotted, List.intercalate_cons_cons]
      refine ⟨e, ?_, ?_, ?_⟩
      · rw [hd, List.foldl_append, hlab, List.foldl_cons, Encoder.put, if_pos rfl, hbuf, ← he]
      · rw [hdns, hd, List.length_append, List.length_cons]
        omega
      · have hcons : encodeLabels (l :: l' :: ls) = (UInt8.ofNat l.length :: l) ++ encodeLabels (l' :: ls) := rfl
        have hlen : p + (UInt8.ofNat l.length :: l).length = p + 1 + l.length := by
          rw [List.length_cons]
          omega
        rw [hfinal, hcons, storeBytes_append, hlen]

/-- **What the encoder leaves behind**: the labels with their lengths, and a zero one cell too far. -/
theorem changeToDnsNameFormat_labels {ls : Name} (hne : ls ≠ []) (hls : ∀ l ∈ ls, ∀ b ∈ l, b ≠ 46) (buf : Mem)
    (dns : ℕ) : changeToDnsNameFormat buf dns (dotted ls) =
      Function.update (storeBytes buf dns (encodeLabels ls)) (dns + ((dotted ls).length + 2)) 0 := by
  obtain ⟨e, he, hdns, hbuf⟩ := foldl_put_labels hne hls buf dns
  show Function.update (Function.update (List.foldl Encoder.put _ _).buf _ _) _ _ = _
  rw [he, hbuf, hdns]
  congr 1
  omega

theorem changeToDnsNameFormat_dotted {ls : Name} (h : HostName ls) (buf : Mem) (dns : ℕ) :
    changeToDnsNameFormat buf dns (dotted ls) =
      Function.update (storeBytes buf dns (encodeLabels ls)) (dns + ((dotted ls).length + 2)) 0 :=
  changeToDnsNameFormat_labels h.1 (fun l hl b hb => ((h.2 l hl).2.2 b hb).2) buf dns

/-! ### The query -/

theorem u16Bytes_htons (v : ℕ) : u16Bytes (htons v) = be16 v := by
  have hlo : v / 256 % 256 < 256 := Nat.mod_lt _ (by omega)
  have h0 : htons v % 256 = v / 256 % 256 := by unfold htons ntohs; omega
  have h1 : htons v / 256 % 256 = v % 256 := by
    unfold htons ntohs
    generalize v / 256 % 256 = b at hlo
    omega
  rw [u16Bytes, be16, h0, h1]
  congr 1
  exact UInt8.ofNat_mod_size

theorem length_queryHeader (pid : ℕ) : (queryHeader pid).bytes.length = 12 := rfl

/-- The array of `send_req` when the name has been encoded. -/
def nameBuf (stack : Mem) (pid : ℕ) (ls : Name) : Mem :=
  Function.update (storeBytes (storeBytes stack 0 (queryHeader pid).bytes) 12 (encodeLabels ls))
    (12 + ((dotted ls).length + 2)) 0

/-- `strlen(qname)`: the terminator is looked for from the start of the name. -/
def strlenQname (stack : Mem) (ls : Name) : ℕ :=
  if stack (12 + ((dotted ls).length + 1)) = 0 then (dotted ls).length + 1 else (dotted ls).length + 2

theorem slice_nameBuf {ls : Name} (h : ls ≠ []) (stack : Mem) (pid : ℕ) :
    slice (nameBuf stack pid ls) 12 ((dotted ls).length + 1) = encodeLabels ls := by
  rw [nameBuf, slice_update_of_ge _ _ (by omega), ← length_encodeLabels h, slice_storeBytes]

/-- The cell behind the labels, where the terminator belongs, is as it was. -/
theorem nameBuf_gap {ls : Name} (h : ls ≠ []) (stack : Mem) (pid : ℕ) :
    nameBuf stack pid ls (12 + ((dotted ls).length + 1)) = stack (12 + ((dotted ls).length + 1)) := by
  have hlen := length_encodeLabels h
  rw [nameBuf, Function.update_of_ne (by omega), storeBytes_of_ge _ _ (by omega), storeBytes_of_ge]
  rw [length_queryHeader]
  omega

theorem firstZero_nameBuf {ls : Name} (h : HostName ls) (stack : Mem) (pid : ℕ) :
    firstZero (fun i => nameBuf stack pid ls (12 + i)) ((dotted ls).length + 2) = strlenQname stack ls := by
  have hgap := nameBuf_gap h.1 stack pid
  have hlast : nameBuf stack pid ls (12 + ((dotted ls).length + 2)) = 0 := Function.update_self ..
  have hname : ∀ i < (dotted ls).length + 1, nameBuf stack pid ls (12 + i) ≠ 0 := by
    intro i hi
    have hcell := getElem?_slice (nameBuf stack pid ls) 12 hi
    rw [slice_nameBuf h.1] at hcell
    exact h.ne_zero _ (List.mem_of_getElem? hcell)
  unfold strlenQname
  split
  · next h0 => exact firstZero_eq (by omega) (hgap.trans h0) hname
  · next h0 =>
    refine firstZero_eq le_rfl hlast ?_
    intro i hi
    rcases Nat.lt_or_ge i ((dotted ls).length + 1) with hlt | hge
    · exact hname i hlt
    · rw [show i = (dotted ls).length + 1 by omega, hgap]
      exact h0

/-- **What `send_req` builds**: type and class stand behind the terminator that `strlen` finds. -/
theorem buildQuery_dotted {ls : Name} (h : HostName ls) (stack : Mem) (pid queryType : ℕ) :
    buildQuery stack pid (dotted ls) queryType =
      (storeBytes (nameBuf stack pid ls) (12 + (strlenQname stack ls + 1)) (be16 queryType ++ be16 1),
        12 + (strlenQname stack ls + 1) + 4) := by
  have hname : changeToDnsNameFormat (storeBytes stack 0 (queryHeader pid).bytes) 12 (dotted ls) =
      nameBuf stack pid ls := changeToDnsNameFormat_dotted h _ _
  simp only [buildQuery, sizeofDnsHeader, sizeofQuestion, hname, firstZero_nameBuf h, u16Bytes_htons]

/-- The query that is sent holds one question behind its header, for the name, and nothing behind that. -/
def AsksFor (query : Mem × ℕ) (ls : Name) (queryType : ℕ) : Prop :=
  query.2 = 12 + (questionBytes ls queryType 1).length ∧
    slice query.1 12 (questionBytes ls queryType 1).length = questionBytes ls queryType 1

instance (query : Mem × ℕ) (ls : Name) (queryType : ℕ) : Decidable (AsksFor query ls queryType) := by
  unfold AsksFor; infer_instance

/-- **When a host name is encoded as the wire format has it.**  For every host name of `n` characters the encoder
writes the labels with their lengths and the terminator at index `n + 1` exactly when the buffer held a zero there
before; and the query of `send_req` holds the question for the name, its type and class right behind the terminator,
exactly when its array did. -/
theorem encoded_iff {ls : Name} (h : HostName ls) :
    (∀ (buf : Mem) (dns : ℕ), slice (changeToDnsNameFormat buf dns (dotted ls)) dns ((dotted ls).length + 2) =
      encodeLabels ls ++ [0] ↔ buf (dns + ((dotted ls).length + 1)) = 0) ∧
    ∀ (stack : Mem) (pid queryType : ℕ), AsksFor (buildQuery stack pid (dotted ls) queryType) ls queryType ↔
      stack (12 + ((dotted ls).length + 1)) = 0 := by
  have hlen := length_encodeLabels h.1
  have hquestion : ∀ queryType, (questionBytes ls queryType 1).length = (dotted ls).length + 6 := by
    intro queryType
    simp [questionBytes, be16, hlen]
  constructor
  · intro buf dns
    rw [changeToDnsNameFormat_dotted h, slice_update_of_ge _ _ (by omega)]
    rw [show (dotted ls).length + 2 = (encodeLabels ls).length + 1 by omega, slice_add, slice_storeBytes, slice_succ,
      storeBytes_of_ge _ _ (by omega), hlen]
    simp
  · intro stack pid queryType
    rw [buildQuery_dotted h]
    unfold AsksFor
    rw [hquestion]
    constructor
    · rintro ⟨hsent, -⟩
      by_contra h0
      simp only [strlenQname, if_neg h0] at hsent
      omega
    · intro h0
      have hstrlen : strlenQname stack ls = (dotted ls).length + 1 := if_pos h0
      refine ⟨by simp only [hstrlen]; omega, ?_⟩
      simp only [hstrlen]
      rw [show (dotted ls).length + 6 = (dotted ls).length + 1 + 1 + 4 by omega, slice_add,
        slice_storeBytes_of_lt _ _ (by omega), slice_add, slice_nameBuf h.1, slice_succ, slice_zero,
        nameBuf_gap h.1, h0]
      show encodeLabels ls ++ [0] ++ slice (storeBytes _ _ _) _ (be16 queryType ++ be16 1).length = _
      rw [slice_storeBytes]
      simp [questionBytes]

/-- `a.bc` into memory that holds zeros. -/
theorem encoded_iff_zeros : HostName [[97], [98, 99]] ∧
    slice (changeToDnsNameFormat (fun _ => 0) 0 [97, 46, 98, 99]) 0 6 = encodeLabels [[97], [98, 99]] ++ [0] ∧
    AsksFor (buildQuery (fun _ => 0) 1 [97, 46, 98, 99] qtypeA) [[97], [98, 99]] qtypeA := by
  have h : HostName [[97], [98, 99]] := by decide
  obtain ⟨hencoder, hquery⟩ := encoded_iff h
  exact ⟨h, (hencoder (fun _ => 0) 0).2 rfl, (hquery (fun _ => 0) 1 qtypeA).2 rfl⟩

/-- `a` into memory that holds other bytes: the name is not ended, and the query says something else. -/
theorem not_encoded_dirty : HostName [[97]] ∧
    slice (changeToDnsNameFormat (fun _ => 170) 0 (dotted [[97]])) 0 3 = [1, 97, 170] ∧
    slice (changeToDnsNameFormat (fun _ => 170) 0 (dotted [[97]])) 0 3 ≠ encodeLabels [[97]] ++ [0] ∧
    ¬ AsksFor (buildQuery (fun _ => 170) 1 (dotted [[97]]) qtypeA) [[97]] qtypeA := by decide

end Shadowc.Dns
