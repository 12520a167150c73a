import Shadowc.Dns.ReadName
import Shadowc.Dns.Wire

/-!
# `read_name` decodes the names of the wire format

* `nameAt_rawName`: what is collected from a name are exactly its labels with their lengths;
* `cString_dotName`: the dot conversion of the collected bytes;
* `readName_nameAt`: both together;
* `name_decoded`: the same, with the bytes that lie in place.
-/

namespace Shadowc.Dns

open Lib Reading Memory

/-! ### Bytes of the message -/

theorem getElem?_of_bytesAt {msg bs : List UInt8} {off i : ℕ} (h : BytesAt msg off bs) (hi : i < bs.length) :
    msg[off + i]? = bs[i]? := by
  obtain ⟨t, ht⟩ := h
  rw [← List.getElem?_drop, ← ht, List.getElem?_append_left hi]

theorem getElem?_bytesAt {msg bs : List UInt8} {off i : ℕ} {b : UInt8} (h : BytesAt msg off bs) (hi : bs[i]? = some b) :
    msg[off + i]? = some b := by
  rw [getElem?_of_bytesAt h (List.getElem?_eq_some_iff.1 hi).1, hi]

theorem bytesAt_append {msg bs cs : List UInt8} {off : ℕ} :
    BytesAt msg off (bs ++ cs) ↔ BytesAt msg off bs ∧ BytesAt msg (off + bs.length) cs := by
  constructor
  · rintro ⟨t, ht⟩
    refine ⟨⟨cs ++ t, by rw [← List.append_assoc, ht]⟩, ⟨t, ?_⟩⟩
    rw [← List.drop_drop, ← ht, List.append_assoc, List.drop_left' rfl]
  · rintro ⟨⟨t, ht⟩, ⟨u, hu⟩⟩
    refine ⟨u, ?_⟩
    rw [← List.drop_drop, ← ht, List.drop_left' rfl] at hu
    rw [List.append_assoc, hu, ht]

/-! ### The labels that are collected -/

/-- Plain bytes are collected as they stand. -/
theorem rawName_bytes {msg : List UInt8} {bs cs : List UInt8} {k : ℕ}
    (hbs : ∀ b ∈ bs, 0 < b.toNat ∧ b.toNat < 192) :
    ∀ {off : ℕ}, BytesAt msg off bs → RawName msg (off + bs.length) cs k →
      RawName msg off (bs ++ cs) (k + bs.length) := by
  induction bs with
  | nil => exact fun _ h => h
  | cons b bs ih =>
    intro off hat h
    have hb : msg[off]? = some b := by simpa using getElem?_of_bytesAt (i := 0) hat (by simp)
    have hrest : BytesAt msg (off + 1) bs := by
      obtain ⟨t, ht⟩ := hat
      refine ⟨t, ?_⟩
      rw [← List.drop_drop, ← ht]
      rfl
    have h0 : b ≠ 0 := by rintro rfl; simpa using (hbs 0 (by simp)).1
    rw [List.length_cons, ← Nat.add_assoc, Nat.add_right_comm] at h
    exact .plain hb h0 (hbs b (by simp)).2 (ih (fun c hc => hbs c (List.mem_cons_of_mem _ hc)) hrest h)

/-- **From a name of the wire format its labels are collected**, with their lengths. -/
theorem nameAt_rawName {msg : List UInt8} {off n : ℕ} {ls : Name} (h : NameAt msg off ls n)
    (hls : ∀ l ∈ ls, Label.Ok l) : RawName msg off (encodeLabels ls) n := by
  induction h with
  | root h0 => exact .zero h0
  | @label off n l ls hpos hlt hat _ ih =>
    have hl := (hls l (by simp)).2.2
    have hlen : (UInt8.ofNat l.length).toNat = l.length := by simp; omega
    have hbs : ∀ b ∈ UInt8.ofNat l.length :: l, 0 < b.toNat ∧ b.toNat < 192 := by
      intro b hb
      rcases List.mem_cons.1 hb with rfl | hb
      · omega
      · exact hl b hb
    have hrest := ih fun l' hl' => hls l' (List.mem_cons_of_mem _ hl')
    rw [Nat.add_comm 1 l.length] at hrest ⊢
    rw [Nat.add_comm (l.length + 1) n]
    exact rawName_bytes hbs hat hrest
  | pointer hhi hlo h192 _ ih => exact .pointer hhi hlo h192 (ih hls)

/-! ### The dot conversion -/

/-- The cells from `i` to `i + n` take the value of the next cell. -/
theorem shiftLabel_eq (n : ℕ) (m : Mem) (i : ℕ) :
    shiftLabel n m i = (fun k => if i ≤ k ∧ k < i + n then m (k + 1) else m k, i + n) := by
  induction n generalizing m i with
  | zero =>
    have h : (fun k => if i ≤ k ∧ k < i + 0 then m (k + 1) else m k) = m :=
      funext fun k => if_neg (by omega)
    rw [shiftLabel, h]
    rfl
  | succ n ih =>
    rw [shiftLabel, ih, show i + 1 + n = i + (n + 1) by omega]
    congr 1
    funext k
    by_cases hk : k = i
    · subst hk
      rw [if_neg (by omega), if_pos (by omega), Function.update_self]
    · have h1 : Function.update m i (m (i + 1)) k = m k := Function.update_of_ne hk _ _
      by_cases hin : i + 1 ≤ k ∧ k < i + (n + 1)
      · have h2 : Function.update m i (m (i + 1)) (k + 1) = m (k + 1) := Function.update_of_ne (by omega) _ _
        rw [if_pos hin, if_pos (by omega), h2]
      · rw [if_neg hin, if_neg (by omega), h1]

/-- Each label followed by a dot. -/
def dotEach (ls : Name) : List UInt8 := ls.flatMap fun l => l ++ [46]

theorem dotEach_eq {ls : Name} (h : ls ≠ []) : dotEach ls = dotted ls ++ [46] := by
  induction ls with
  | nil => exact absurd rfl h
  | cons l ls ih =>
    cases ls with
    | nil => simp [dotEach, dotted]
    | cons l' ls =>
      have := ih (by simp)
      simp only [dotEach, dotted, List.flatMap_cons] at this ⊢
      rw [List.intercalate_cons_cons, this]
      simp

theorem Label.Ok.ne_zero {l : Label} (h : l.Ok) : 0 < l.length ∧ l.length < 64 ∧ ∀ b ∈ l, b ≠ 0 := by
  refine ⟨h.1, h.2.1, ?_⟩
  rintro b hb rfl
  simpa using (h.2.2 0 hb).1

theorem encodeLabels_ne_zero {ls : Name} (h : ∀ l ∈ ls, 0 < l.length ∧ l.length < 64 ∧ ∀ b ∈ l, b ≠ 0) :
    ∀ b ∈ encodeLabels ls, b ≠ 0 := by
  induction ls with
  | nil => simp [encodeLabels]
  | cons l ls ih =>
    obtain ⟨hpos, hlt, hl⟩ := h l (by simp)
    intro b hmem
    rw [encodeLabels] at hmem
    rcases List.mem_cons.1 hmem with rfl | hmem
    · intro h0
      have := congrArg UInt8.toNat h0
      simp at this
      omega
    rcases List.mem_append.1 hmem with hmem | hmem
    · exact hl b hmem
    · exact ih (fun l' hl' => h l' (List.mem_cons_of_mem _ hl')) b hmem

theorem firstZero_of_slice {m : Mem} {s : List UInt8} {n : ℕ} (hs : slice m 0 n = s) (h0 : m n = 0)
    (hne : ∀ b ∈ s, b ≠ 0) : firstZero m n = n := by
  apply firstZero_eq le_rfl h0
  intro i hi
  have h := getElem?_slice m 0 hi
  rw [hs, Nat.zero_add] at h
  exact hne _ (List.mem_of_getElem? h)

/-- One turn of the conversion: the label at `i` moves one cell down, over its length byte, and a dot follows it. -/
theorem dotLoop_label {m : Mem} {last i : ℕ} {l : Label} {pre rest : List UInt8} (hl : l.length < 64)
    (hi : pre.length = i) (hlast : last = i + (1 + l.length + rest.length))
    (hs : slice m 0 last = pre ++ (UInt8.ofNat l.length :: (l ++ rest))) (h0 : m last = 0)
    (hz : firstZero m last = last) (n : ℕ) :
    ∃ m', dotLoop last (n + 1) m i = dotLoop last n m' (i + (1 + l.length)) ∧
      slice m' 0 last = (pre ++ (l ++ [46])) ++ rest ∧ m' last = 0 := by
  -- the cells before the label, its length byte, the label and the rest
  have hsplit := hs
  rw [hlast, slice_add, slice_add, slice_add, slice_succ, slice_zero, List.append_assoc] at hsplit
  obtain ⟨hpre, hsplit⟩ := List.append_inj hsplit (by simp [hi])
  simp only [List.cons_append, List.nil_append, List.cons.injEq, Nat.zero_add] at hsplit
  obtain ⟨hlen, hsplit⟩ := hsplit
  obtain ⟨hlab, hrest⟩ := List.append_inj hsplit (by simp)
  have hmi : (m i).toNat = l.length := by rw [hlen]; simp; omega
  refine ⟨Function.update (shiftLabel l.length m i).1 (i + l.length) 46, ?_, ?_, ?_⟩
  · have hlt : i < firstZero m last := by omega
    rw [dotLoop, if_pos hlt, hmi]
    simp only [shiftLabel_eq]
    rw [show i + l.length + 1 = i + (1 + l.length) by omega]
  · rw [hlast, show i + (1 + l.length + rest.length) = i + l.length + 1 + rest.length by omega, slice_add, slice_add,
      slice_add, slice_succ, slice_zero, shiftLabel_eq]
    simp only [Nat.zero_add, Function.update_self]
    rw [slice_update_of_ge _ _ (by omega), slice_update_of_ge _ _ (by omega), slice_update_of_lt _ _ (by omega)]
    have e1 : slice (fun k => if i ≤ k ∧ k < i + l.length then m (k + 1) else m k) 0 i = pre := by
      rw [← hpre]
      exact slice_congr fun k hk => if_neg (by omega)
    have e2 : slice (fun k => if i ≤ k ∧ k < i + l.length then m (k + 1) else m k) i l.length = l := by
      conv_rhs => rw [← hlab]
      apply slice_congr
      intro k hk
      rw [if_pos (by omega), show i + k + 1 = i + 1 + k by omega]
    have e3 : slice (fun k => if i ≤ k ∧ k < i + l.length then m (k + 1) else m k) (i + l.length + 1) rest.length
        = rest := by
      conv_rhs => rw [← hrest]
      apply slice_congr
      intro k hk
      rw [if_neg (by omega), show i + l.length + 1 + k = i + (1 + l.length) + k by omega]
    rw [e1, e2, e3]
    simp
  · rw [Function.update_of_ne (by omega), shiftLabel_eq]
    simp only
    rw [if_neg (by omega), h0]

theorem dotLoop_labels {last : ℕ} (ls : Name) (hls : ∀ l ∈ ls, Label.Ok l) :
    ∀ (pre : List UInt8) (m : Mem) (n : ℕ), (∀ b ∈ pre, b ≠ 0) → last = pre.length + (encodeLabels ls).length →
      slice m 0 last = pre ++ encodeLabels ls → m last = 0 → ls.length < n →
      ∃ m', dotLoop last n m pre.length = (m', last) ∧ slice m' 0 last = pre ++ dotEach ls ∧ m' last = 0 := by
  induction ls with
  | nil =>
    intro pre m n hpre hlast hs h0 hn
    obtain ⟨n, rfl⟩ : ∃ k, n = k + 1 := ⟨n - 1, by omega⟩
    have hz := firstZero_of_slice hs h0 (by simpa [encodeLabels] using hpre)
    have hl : last = pre.length := by simpa [encodeLabels] using hlast
    refine ⟨m, ?_, by simpa [encodeLabels, dotEach] using hs, h0⟩
    rw [dotLoop, hz, hl]
    simp
  | cons l ls ih =>
    intro pre m n hpre hlast hs h0 hn
    obtain ⟨n, rfl⟩ : ∃ k, n = k + 1 := ⟨n - 1, by omega⟩
    have hlt := (hls l (by simp)).2.1
    have hls' : ∀ l' ∈ ls, Label.Ok l' := fun l' hl' => hls l' (List.mem_cons_of_mem _ hl')
    have hz : firstZero m last = last := by
      apply firstZero_of_slice hs h0
      intro b hb
      rcases List.mem_append.1 hb with hb | hb
      · exact hpre b hb
      · exact encodeLabels_ne_zero (fun l' hl' => (hls l' hl').ne_zero) b hb
    have hlast' : last = pre.length + (1 + l.length + (encodeLabels ls).length) := by
      rw [hlast, encodeLabels]; simp; omega
    obtain ⟨m', hm, hs', h0'⟩ := dotLoop_label hlt rfl hlast' hs h0 hz n
    have hpre' : ∀ b ∈ pre ++ (l ++ [46]), b ≠ 0 := by
      intro b hmem
      simp only [List.mem_append, List.mem_singleton] at hmem
      rcases hmem with hmem | hmem | rfl
      · exact hpre b hmem
      · exact (hls l (by simp)).ne_zero.2.2 b hmem
      · decide
    have hplen : (pre ++ (l ++ [46])).length = pre.length + (1 + l.length) := by simp; omega
    obtain ⟨m'', hm', hs'', h0''⟩ := ih hls' (pre ++ (l ++ [46])) m' n hpre' (by rw [hplen, hlast']; omega) hs' h0'
      (by simp at hn; omega)
    refine ⟨m'', ?_, ?_, h0''⟩
    · rw [hm, ← hplen, hm']
    · rw [hs'']
      simp [dotEach]

/-- **The dot conversion**: the collected labels of a name become the name with dots. -/
theorem cString_dotName {m : Mem} {ls : Name} {last : ℕ} (hne : ls ≠ []) (hls : ∀ l ∈ ls, Label.Ok l)
    (hs : slice m 0 last = encodeLabels ls) (h0 : m last = 0) : cString (dotName last m) last = dotted ls := by
  have hlen : last = (encodeLabels ls).length := by rw [← hs]; simp
  have hn : ls.length < last + 1 := by
    have : ls.length ≤ (encodeLabels ls).length := by
      clear hne hls hs hlen
      induction ls with
      | nil => simp
      | cons l ls ih => simp only [encodeLabels, List.length_cons, List.length_append]; omega
    omega
  obtain ⟨m', hm, hs', h0'⟩ := dotLoop_labels ls hls [] m (last + 1) (by simp) (by simpa using hlen) (by simpa using hs)
    h0 hn
  have hdot : slice m' 0 last = dotted ls ++ [46] := by rw [hs', List.nil_append, dotEach_eq hne]
  obtain ⟨k, hk⟩ : ∃ k, last = k + 1 := ⟨(dotted ls).length, by
    have := congrArg List.length hdot
    simpa using this⟩
  have hdlen : (dotted ls).length = k := by
    have := congrArg List.length hdot
    simp at this
    omega
  have hname : dotName last m = Function.update m' k 0 := by
    rw [dotName]
    simp only [List.length_nil] at hm
    rw [hm, hk]
  rw [hname]
  refine cString_eq (by omega) ?_ (by rw [hdlen, Function.update_self]) ?_
  · rw [slice_update_of_ge _ _ (by omega), hdlen]
    rw [hk, slice_add] at hdot
    exact (List.append_inj hdot (by simp [hdlen])).1
  · intro b hb
    have hmem : b ∈ dotEach ls := by rw [dotEach_eq hne]; exact List.mem_append_left _ hb
    simp only [dotEach, List.mem_flatMap, List.mem_append, List.mem_singleton] at hmem
    obtain ⟨l, hl, hbl | rfl⟩ := hmem
    · exact (hls l hl).ne_zero.2.2 b hbl
    · decide

/-- A name of any length is decoded, the root too. -/
theorem readName_labels (heap : Mem) {msg : List UInt8} {off n : ℕ} {ls : Name} (h : NameAt msg off ls n)
    (hls : ∀ l ∈ ls, Label.Ok l) : readName heap msg off = .ok (dotted ls, n) := by
  obtain ⟨m, hs, h0, hread⟩ := readName_rawName heap (nameAt_rawName h hls)
  rw [hread]
  cases ls with
  | nil => rfl
  | cons l ls => rw [cString_dotName (List.cons_ne_nil l ls) hls hs h0]

/-- **`read_name` decodes the names of the wire format**: the labels joined by dots, and the bytes the name takes in
place. -/
theorem readName_nameAt (heap : Mem) {msg : List UInt8} {off n : ℕ} {ls : Name} (h : NameAt msg off ls n)
    (hls : Name.Ok ls) : readName heap msg off = .ok (dotted ls, n) :=
  readName_labels heap h hls.2.1

/-! ### What lies in place -/

/-- The first `n` bytes at offset `off` are all the labels of the name and the terminating zero, or some first labels of
it and the two bytes of a pointer. -/
def InPlace (msg : List UInt8) (off : ℕ) (ls : Name) (n : ℕ) : Prop :=
  (BytesAt msg off (encodeLabels ls ++ [0]) ∧ n = (encodeLabels ls).length + 1) ∨
  ∃ front hi lo, front <+: ls ∧ BytesAt msg off (encodeLabels front ++ [hi, lo]) ∧ 192 ≤ hi.toNat ∧
    n = (encodeLabels front).length + 2

theorem bytesAt_one {msg : List UInt8} {off : ℕ} {b : UInt8} (h : msg[off]? = some b) : BytesAt msg off [b] := by
  obtain ⟨hlt, rfl⟩ := List.getElem?_eq_some_iff.1 h
  exact ⟨msg.drop (off + 1), by rw [List.drop_eq_getElem_cons hlt]; rfl⟩

/-- A label in front of what lies in place. -/
theorem bytesAt_label {msg bs : List UInt8} {off : ℕ} {l : Label} {ls : Name}
    (hl : BytesAt msg off (UInt8.ofNat l.length :: l))
    (h : BytesAt msg (off + (1 + l.length)) (encodeLabels ls ++ bs)) :
    BytesAt msg off (encodeLabels (l :: ls) ++ bs) := by
  have hlen : (UInt8.ofNat l.length :: l).length = 1 + l.length := by simp [Nat.add_comm]
  have := bytesAt_append.2 ⟨hl, hlen ▸ h⟩
  simpa [encodeLabels] using this

/-- **What a name takes in place**: the labels up to its zero byte or up to its first pointer, and either of them. -/
theorem NameAt.inPlace {msg : List UInt8} {off n : ℕ} {ls : Name} (h : NameAt msg off ls n) : InPlace msg off ls n := by
  induction h with
  | root h0 => exact .inl ⟨bytesAt_one h0, rfl⟩
  | @label off n l ls hpos hlt hat _ ih =>
    rcases ih with ⟨hbytes, hn⟩ | ⟨front, hi, lo, ⟨rest, hfront⟩, hbytes, h192, hn⟩
    · refine .inl ⟨bytesAt_label hat hbytes, ?_⟩
      simp [encodeLabels]
      omega
    · refine .inr ⟨l :: front, hi, lo, ⟨rest, by rw [← hfront]; rfl⟩, bytesAt_label hat hbytes, h192, ?_⟩
      simp [encodeLabels]
      omega
  | @pointer off n hi lo ls hhi hlo h192 _ _ =>
    refine .inr ⟨[], hi, lo, List.nil_prefix, ?_, h192, rfl⟩
    show BytesAt msg off ([hi] ++ [lo])
    exact bytesAt_append.2 ⟨bytesAt_one hhi, bytesAt_one hlo⟩

/-- **Names are decoded.**  At every offset at which a name is encoded, with labels of bytes in 1..191 and pointers
nested to any depth, `read_name` returns the labels joined by dots; and `*count` is what the name takes in place, up to
its zero byte or its first pointer, whatever that pointer leads to. -/
theorem name_decoded (heap : Mem) {msg : List UInt8} {off n : ℕ} {ls : Name} (h : NameAt msg off ls n)
    (hls : Name.Ok ls) : readName heap msg off = .ok (dotted ls, n) ∧ InPlace msg off ls n :=
  ⟨readName_nameAt heap h hls, h.inPlace⟩

/-- `b` at offset 0, `a.b` at offset 3 with a pointer back to it. -/
theorem name_decoded_pointer : readName (fun _ => 0) [1, 98, 0, 1, 97, 192, 0] 3 = .ok ([97, 46, 98], 4) ∧
    InPlace [1, 98, 0, 1, 97, 192, 0] 3 [[97], [98]] 4 := by
  have hb : NameAt [1, 98, 0, 1, 97, 192, 0] 0 [[98]] 3 := .label (l := [98]) (by decide) (by decide) (by decide)
    (.root rfl)
  have hpointer : NameAt [1, 98, 0, 1, 97, 192, 0] 5 [[98]] 2 := .pointer rfl rfl (by decide) hb
  have hab : NameAt [1, 98, 0, 1, 97, 192, 0] 3 [[97], [98]] 4 := .label (l := [97]) (by decide) (by decide) (by decide)
    hpointer
  exact name_decoded _ hab (by decide)

end Shadowc.Dns
