import Shadowc.Cryptor.Session
import Shadowc.Lib.Interference
import Shadowc.Lib.Transducer

/-!
# The stream of a `Cryptor`

For a cipher in a streaming mode the calls of `encrypt` are one transducer, cut into chunks, with the IV in front
(`encrypt_run`), and the calls of `decrypt` are another, whose context is made of the first bytes (`decrypt_run`).  The
chunks of the two sides need not agree.

* `wire_format_iff`: when what is sent depends on the plaintext and not on its chunks;
* `round_trip_iff`: when what is received is the plaintext.

Both fail when the length of the first chunk and that of the IV, which `encrypt` adds up, are too large for an `int`.
-/

namespace Shadowc.Cryptor

open Lib Memory Transducer Interference

variable {evp : Evp}

/-- A buffer and its length, an `int` that is not negative. -/
structure Chunk where
  buf : Mem
  len : ℕ
  len_le : len ≤ intMax

def Chunk.bytes (ch : Chunk) : List UInt8 := slice ch.buf 0 ch.len

/-- The bytes of a sequence of chunks, put together. -/
def joined (chunks : List Chunk) : List UInt8 := (chunks.map Chunk.bytes).flatten

def encryptCall (ch : Chunk) : Call := .encrypt ch.buf ch.len
def decryptCall (ch : Chunk) : Call := .decrypt ch.buf ch.len

/-- The bytes that an operation reports. -/
def Output.reported (o : Output) : List UInt8 := o.bytes.take o.size.toNat

/-- All reported bytes of a sequence of calls, and the sum of the sizes. -/
def wire (outs : List (Call × Output)) : List UInt8 := (outs.map fun o => o.2.reported).flatten

def totalSize (outs : List (Call × Output)) : ℤ := outs.foldr (fun o n => o.2.size + n) 0

/-- What OpenSSL promises of a cipher in a streaming mode, for the contexts of the cipher.  `crypt` is what a context
gives for a text of any length, and one call of `EVP_EncryptUpdate` gives it for a text whose length is an `int`. -/
structure StreamMode (evp : Evp) (cipher : evp.Cipher) where
  live : evp.Ctx → Prop
  init : ∀ key iv op, live (evp.cipherInit cipher key iv op)
  crypt : evp.Ctx → List UInt8 → evp.Ctx × List UInt8
  streaming : Streaming live crypt
  update : ∀ ctx data, live ctx → data.length ≤ intMax →
    evp.encryptUpdate ctx data data.length = ((crypt ctx data).1, (crypt ctx data).2, (data.length : ℤ))

/-- A context for decryption undoes a context for encryption with the same key and IV. -/
def Inverse {cipher : evp.Cipher} (m : StreamMode evp cipher) : Prop :=
  ∀ key iv data, iv.length = evp.ivLen cipher →
    (m.crypt (evp.cipherInit cipher key iv cipherEncDecryption)
      (m.crypt (evp.cipherInit cipher key iv cipherEncEncryption) data).2).2 = data

/-- The first chunk that is not empty and an IV of `ivLen` bytes have together a length that is an `int`. -/
def FirstFits (ivLen : ℕ) (chunks : List Chunk) : Prop :=
  ∀ ch, chunks.find? (fun ch => ch.len ≠ 0) = some ch → ch.len + ivLen ≤ intMax

/-- The first segment that is not empty holds an IV of `ivLen` bytes. -/
def FirstHolds (ivLen : ℕ) (segments : List Chunk) : Prop :=
  ∀ ch, segments.find? (fun ch => ch.len ≠ 0) = some ch → ivLen ≤ ch.len

/-- A chunk with these bytes. -/
def Chunk.ofBytes (bytes : List UInt8) (h : bytes.length ≤ intMax) : Chunk where
  buf := load bytes fun _ => 0
  len := bytes.length
  len_le := h

theorem Chunk.bytes_ofBytes {bytes : List UInt8} (h : bytes.length ≤ intMax) : (ofBytes bytes h).bytes = bytes :=
  slice_load bytes _

@[simp] theorem Chunk.length_bytes (ch : Chunk) : ch.bytes.length = ch.len := by simp [Chunk.bytes]

theorem Chunk.bytes_eq_nil {ch : Chunk} (hn : ch.len = 0) : ch.bytes = [] :=
  List.length_eq_zero_iff.1 (by simp [hn])

theorem Chunk.bytes_ne_nil {ch : Chunk} (hn : ch.len ≠ 0) : ch.bytes ≠ [] := by
  intro h0
  exact hn (by rw [← ch.length_bytes, h0, List.length_nil])

theorem joined_cons (ch : Chunk) (chunks : List Chunk) : joined (ch :: chunks) = ch.bytes ++ joined chunks := rfl

theorem joined_ne_nil {ch : Chunk} (hn : ch.len ≠ 0) (chunks : List Chunk) : joined (ch :: chunks) ≠ [] := by
  rw [joined_cons]
  exact List.append_ne_nil_of_left_ne_nil (Chunk.bytes_ne_nil hn) _

theorem wire_cons (o : Call × Output) (outs : List (Call × Output)) :
    wire (o :: outs) = o.2.reported ++ wire outs := rfl

theorem totalSize_cons (o : Call × Output) (outs : List (Call × Output)) :
    totalSize (o :: outs) = o.2.size + totalSize outs := rfl

theorem firstHolds_of_empty {n : ℕ} {ch : Chunk} {segments : List Chunk} (hn : ch.len = 0)
    (h : FirstHolds n (ch :: segments)) : FirstHolds n segments :=
  fun ch' h' => h ch' (by simpa [hn] using h')

/-- The length of an IV is an `int`. -/
theorem ivLen_le_intMax (cipher : evp.Cipher) : evp.ivLen cipher ≤ intMax :=
  (evp.ivLen_le cipher).trans (by decide)

/-- A chunk that is passed on. -/
theorem update_chunk {cipher : evp.Cipher} (m : StreamMode evp cipher) {ctx : evp.Ctx} (hl : m.live ctx) (buf : Mem)
    {n : ℕ} (hn : n ≤ intMax) : update ctx buf n = ((m.crypt ctx (slice buf 0 n)).1,
      { bytes := (m.crypt ctx (slice buf 0 n)).2, size := n }) := by
  have h := m.update ctx (slice buf 0 n) hl (by rwa [length_slice])
  rw [length_slice] at h
  simp only [update, Int.toNat_natCast, h]

/-- A whole output is reported. -/
theorem reported_full {bytes : List UInt8} {n : ℕ} (h : bytes.length = n) :
    Output.reported { bytes, size := n } = bytes := by
  rw [Output.reported, Int.toNat_natCast, ← h, List.take_length]

/-- Of an output with a negative size nothing is reported. -/
theorem reported_neg {bytes : List UInt8} {size : ℤ} (h : size < 0) : Output.reported { bytes, size } = [] := by
  rw [Output.reported, Int.toNat_of_nonpos h.le, List.take_zero]

/-- The payload behind the IV. -/
theorem slice_payload (ch : Chunk) {n : ℕ} (hn : n ≤ ch.len) :
    slice (fun i => ch.buf (n + i)) 0 (ch.len - n) = ch.bytes.drop n := by
  obtain ⟨k, hk⟩ := Nat.exists_eq_add_of_le hn
  have hshift : slice (fun i => ch.buf (n + i)) 0 k = slice ch.buf n k :=
    slice_congr fun i _ => by rw [Nat.zero_add]
  rw [Chunk.bytes, hk, Nat.add_sub_cancel_left, slice_add, Nat.zero_add, List.drop_left' (by simp), hshift]

theorem encrypt_empty (c : Members evp) {ch : Chunk} (hn : ch.len = 0) :
    c.call (encryptCall ch) = some (c, { bytes := [], size := 0 }) := by
  rw [encryptCall, hn]
  exact encrypt_zero c ch.buf

theorem decrypt_empty (c : Members evp) {ch : Chunk} (hn : ch.len = 0) :
    c.call (decryptCall ch) = some (c, { bytes := [], size := 0 }) := by
  rw [decryptCall, hn]
  exact decrypt_zero c ch.buf

section Runs

variable {cipher : evp.Cipher} (m : StreamMode evp cipher)
include m

/-- **A run of calls that all go to one context** feeds the chunks to that context's transducer.  `works c ctx` says
that the calls of the members `c` go to `ctx`. -/
theorem feeding_run (call : Chunk → Call) (works : Members evp → evp.Ctx → Prop)
    (hempty : ∀ (c : Members evp) (ch : Chunk), ch.len = 0 → c.call (call ch) = some (c, { bytes := [], size := 0 }))
    (hchunk : ∀ (c : Members evp) (ctx : evp.Ctx) (ch : Chunk), works c ctx → m.live ctx → ch.len ≠ 0 →
      ∃ c', c.call (call ch) = some (c', { bytes := (m.crypt ctx ch.bytes).2, size := ch.len }) ∧
        works c' (m.crypt ctx ch.bytes).1)
    (chunks : List Chunk) : ∀ {c : Members evp} {ctx : evp.Ctx}, works c ctx → m.live ctx →
      ∃ c' outs, answers Members.call c (chunks.map call) = some (c', outs) ∧
        outs.map (fun o => o.2.reported) = (feed m.crypt ctx (chunks.map Chunk.bytes)).2 ∧
        totalSize outs = (joined chunks).length := by
  induction chunks with
  | nil =>
    intro c ctx _ _
    exact ⟨c, [], rfl, rfl, rfl⟩
  | cons ch chunks ih =>
    intro c ctx hc hl
    rw [List.map_cons, List.map_cons]
    by_cases hn : ch.len = 0
    · have hbytes : ch.bytes.length = 0 := by simp [hn]
      obtain ⟨c', outs, h, hw, ht⟩ := ih hc hl
      refine ⟨c', _, answers_cons (hempty c ch hn) h, ?_, ?_⟩
      · rw [feed_cons_of_empty _ _ hbytes, List.map_cons, hw]
        rfl
      · rw [totalSize_cons, joined_cons, List.length_append, hbytes, ht]
        simp
    · have hbytes : ch.bytes.length ≠ 0 := by simpa using hn
      obtain ⟨c₁, hcall, hc₁⟩ := hchunk c ctx ch hc hl hn
      obtain ⟨c', outs, h, hw, ht⟩ := ih hc₁ (m.streaming.closed ctx ch.bytes hl)
      have hlength := (m.streaming.length ctx ch.bytes hl).trans ch.length_bytes
      refine ⟨c', _, answers_cons hcall h, ?_, ?_⟩
      · rw [feed_cons _ _ hbytes, List.map_cons, hw]
        simp only [reported_full hlength]
      · rw [totalSize_cons, joined_cons, ht]
        simp

/-- The chunks that are fed make one stream, whatever the chunks are. -/
theorem wire_of_feed {ctx : evp.Ctx} (hl : m.live ctx) {chunks : List Chunk} {outs : List (Call × Output)}
    (h : outs.map (fun o => o.2.reported) = (feed m.crypt ctx (chunks.map Chunk.bytes)).2) :
    wire outs = (m.crypt ctx (joined chunks)).2 := by
  rw [wire, h, m.streaming.feed_flatten _ hl, joined]

/-! ### Sending -/

/-- **After the IV** every call of `encrypt` goes to the cipher. -/
theorem encrypt_run_sent (chunks : List Chunk) {c : Members evp} {ctx : evp.Ctx} (hc : c.cipher = some ctx)
    (hs : c.ivSent = true) (hl : m.live ctx) :
    ∃ c' outs, answers Members.call c (chunks.map encryptCall) = some (c', outs) ∧
      wire outs = (m.crypt ctx (joined chunks)).2 ∧ totalSize outs = (joined chunks).length := by
  have hrun := feeding_run m encryptCall (fun c ctx => c.cipher = some ctx ∧ c.ivSent = true)
    (fun c ch hn => encrypt_empty c hn) ?_ chunks ⟨hc, hs⟩ hl
  · obtain ⟨c', outs, h, hfeed, ht⟩ := hrun
    exact ⟨c', outs, h, wire_of_feed m hl hfeed, ht⟩
  · intro c ctx ch hc hl hn
    have hcall := encrypt_sent ch.buf hc.1 hc.2 (by exact_mod_cast hn : (ch.len : ℤ) ≠ 0)
    rw [update_chunk m hl ch.buf ch.len_le] at hcall
    exact ⟨_, hcall, rfl, hc.2⟩

/-- The first chunk that is not empty is sent with the IV in front, and the two lengths are added up. -/
theorem encrypt_first_chunk (ch : Chunk) {c : Members evp} {ctx : evp.Ctx} (hc : c.cipher = some ctx)
    (hs : c.ivSent = false) (hl : m.live ctx) (hiv : c.cipherIv.length = c.cipherIvLen) (hn : ch.len ≠ 0) :
    c.call (encryptCall ch) = some ({ c with cipher := some (m.crypt ctx ch.bytes).1, ivSent := true },
      { bytes := c.cipherIv ++ (m.crypt ctx ch.bytes).2, size := intSum ch.len c.cipherIvLen }) := by
  have hcall := encrypt_first ch.buf hc hs (by exact_mod_cast hn : (ch.len : ℤ) ≠ 0)
  rw [update_chunk m hl ch.buf ch.len_le, List.take_of_length_le hiv.le] at hcall
  exact hcall

/-- When the sum is an `int`, the whole first output is reported. -/
theorem reported_first_fits {ctx : evp.Ctx} (hl : m.live ctx) {iv : List UInt8} {ch : Chunk}
    (hfit : ch.len + iv.length ≤ intMax) :
    Output.reported { bytes := iv ++ (m.crypt ctx ch.bytes).2, size := intSum ch.len iv.length } =
      iv ++ (m.crypt ctx ch.bytes).2 := by
  have hlength := (m.streaming.length ctx ch.bytes hl).trans ch.length_bytes
  rw [intSum_eq hfit]
  exact reported_full (by rw [List.length_append, hlength, Nat.add_comm])

/-- **From the start**: nothing is sent for empty chunks; of the first other chunk, what its size says is reported, and
what follows it continues its encryption. -/
theorem encrypt_run (chunks : List Chunk) : ∀ {c : Members evp} {ctx : evp.Ctx}, c.cipher = some ctx →
    c.ivSent = false → m.live ctx → c.cipherIv.length = c.cipherIvLen →
    ∃ c' outs, answers Members.call c (chunks.map encryptCall) = some (c', outs) ∧
      ((chunks.find? (fun ch => ch.len ≠ 0) = none ∧ joined chunks = [] ∧ wire outs = [] ∧ totalSize outs = 0) ∨
        ∃ ch rest, chunks.find? (fun ch => ch.len ≠ 0) = some ch ∧ ch.len ≠ 0 ∧ joined chunks = ch.bytes ++ rest ∧
          wire outs = Output.reported ⟨c.cipherIv ++ (m.crypt ctx ch.bytes).2, intSum ch.len c.cipherIv.length⟩ ++
            (m.crypt (m.crypt ctx ch.bytes).1 rest).2 ∧
          totalSize outs = intSum ch.len c.cipherIv.length + rest.length) := by
  induction chunks with
  | nil => intro c ctx _ _ _ _; exact ⟨c, [], rfl, .inl ⟨rfl, rfl, rfl, rfl⟩⟩
  | cons ch chunks ih =>
    intro c ctx hc hs hl hiv
    by_cases hn : ch.len = 0
    · obtain ⟨c', outs, h, hw⟩ := ih hc hs hl hiv
      have hfind : (ch :: chunks).find? (fun ch => ch.len ≠ 0) = chunks.find? fun ch => ch.len ≠ 0 := by simp [hn]
      have hwire : wire ((encryptCall ch, { bytes := [], size := 0 }) :: outs) = wire outs := rfl
      refine ⟨c', _, answers_cons (encrypt_empty c hn) h, ?_⟩
      rw [hfind, hwire, totalSize_cons, joined_cons, Chunk.bytes_eq_nil hn, Int.zero_add]
      exact hw
    · obtain ⟨c', outs, h, hw, ht⟩ := encrypt_run_sent m chunks
        (c := { c with cipher := some (m.crypt ctx ch.bytes).1, ivSent := true }) rfl rfl
        (m.streaming.closed ctx _ hl)
      refine ⟨c', _, answers_cons (encrypt_first_chunk m ch hc hs hl hiv hn) h,
        .inr ⟨ch, joined chunks, by simp [hn], hn, rfl, ?_, ?_⟩⟩
      · rw [wire_cons, hw, hiv]
      · rw [totalSize_cons, ht, hiv]

/-- When the first length and that of the IV are together an `int`, the IV and the encryption of everything are
sent. -/
theorem encrypt_run_fits {chunks : List Chunk} {c : Members evp} {ctx : evp.Ctx} (hc : c.cipher = some ctx)
    (hs : c.ivSent = false) (hl : m.live ctx) (hiv : c.cipherIv.length = c.cipherIvLen)
    (hfits : FirstFits c.cipherIvLen chunks) :
    ∃ c' outs, answers Members.call c (chunks.map encryptCall) = some (c', outs) ∧
      wire outs = (if joined chunks = [] then [] else c.cipherIv ++ (m.crypt ctx (joined chunks)).2) ∧
      totalSize outs = if joined chunks = [] then 0 else (joined chunks).length + (c.cipherIvLen : ℤ) := by
  obtain ⟨c', outs, h, ⟨-, hj, hw, ht⟩ | ⟨ch, rest, hfind, hn, hj, hw, ht⟩⟩ := encrypt_run m chunks hc hs hl hiv
  · exact ⟨c', outs, h, by rw [if_pos hj, hw], by rw [if_pos hj, ht]⟩
  · have hne : joined chunks ≠ [] := by
      rw [hj]
      exact List.append_ne_nil_of_left_ne_nil (Chunk.bytes_ne_nil hn) _
    have hfit : ch.len + c.cipherIv.length ≤ intMax := by
      rw [hiv]
      exact hfits ch hfind
    refine ⟨c', outs, h, ?_, ?_⟩
    · rw [if_neg hne, hw, reported_first_fits m hl hfit, hj, m.streaming.append _ _ _ hl, List.append_assoc]
    · rw [if_neg hne, ht, intSum_eq hfit, hj, List.length_append, Chunk.length_bytes, hiv]
      push_cast
      omega

/-- Otherwise the size comes out negative: nothing of the first output is reported, and less is sent than there was to
encrypt. -/
theorem encrypt_run_overflows {chunks : List Chunk} {c : Members evp} {ctx : evp.Ctx} (hc : c.cipher = some ctx)
    (hs : c.ivSent = false) (hl : m.live ctx) (hiv : c.cipherIv.length = c.cipherIvLen) (hmax : c.cipherIvLen ≤ intMax)
    (hfits : ¬ FirstFits c.cipherIvLen chunks) :
    ∃ c' outs, answers Members.call c (chunks.map encryptCall) = some (c', outs) ∧
      (wire outs).length < (joined chunks).length := by
  obtain ⟨c', outs, h, ⟨hfind, -⟩ | ⟨ch, rest, hfind, hn, hj, hw, -⟩⟩ := encrypt_run m chunks hc hs hl hiv
  · refine absurd (fun ch h' => ?_) hfits
    rw [hfind] at h'
    cases h'
  · have hover : intMax < ch.len + c.cipherIv.length := by
      by_contra hle
      refine hfits fun ch' h' => ?_
      obtain rfl := Option.some.inj (hfind.symm.trans h')
      omega
    have hmax : c.cipherIv.length ≤ intMax := by rwa [hiv]
    have hneg : intSum ch.len c.cipherIv.length < 0 := intSum_neg ch.len_le hmax hover
    refine ⟨c', outs, h, ?_⟩
    rw [hw, reported_neg hneg, List.nil_append, m.streaming.length _ rest (m.streaming.closed ctx _ hl), hj,
      List.length_append, Chunk.length_bytes]
    omega

/-! ### Receiving -/

/-- **Once there is a decipher** every call of `decrypt` goes to it. -/
theorem decrypt_run_open (chunks : List Chunk) {c : Members evp} {ctx : evp.Ctx} (hd : c.decipher = some ctx)
    (hl : m.live ctx) :
    ∃ c' outs, answers Members.call c (chunks.map decryptCall) = some (c', outs) ∧
      wire outs = (m.crypt ctx (joined chunks)).2 ∧ totalSize outs = (joined chunks).length := by
  have hrun := feeding_run m decryptCall (fun c ctx => c.decipher = some ctx)
    (fun c ch hn => decrypt_empty c hn) ?_ chunks hd hl
  · obtain ⟨c', outs, h, hfeed, ht⟩ := hrun
    exact ⟨c', outs, h, wire_of_feed m hl hfeed, ht⟩
  · intro c ctx ch hd hl hn
    have hcall := decrypt_open ch.buf hd (by exact_mod_cast hn : (ch.len : ℤ) ≠ 0)
    rw [update_chunk m hl ch.buf ch.len_le] at hcall
    exact ⟨_, hcall, rfl⟩

/-- The first chunk that is not empty carries the IV, and the rest of it goes to the decipher. -/
theorem decrypt_first_chunk {c : Members evp} {key : List UInt8} (hr : Ready c cipher key) (hd : c.decipher = none)
    {ch : Chunk} (hn : ch.len ≠ 0) (hlen : evp.ivLen cipher ≤ ch.len) :
    ∃ c' out ctx, c.call (decryptCall ch) = some (c', out) ∧ c'.decipher = some ctx ∧ m.live ctx ∧
      ∀ rest, out.reported ++ (m.crypt ctx rest).2 =
        (m.crypt (evp.cipherInit cipher key (ch.bytes.take (evp.ivLen cipher)) cipherEncDecryption)
          (ch.bytes.drop (evp.ivLen cipher) ++ rest)).2 := by
  have htake : ch.bytes.take (evp.ivLen cipher) = slice ch.buf 0 (evp.ivLen cipher) := by
    obtain ⟨k, hk⟩ := Nat.exists_eq_add_of_le hlen
    rw [Chunk.bytes, hk, slice_add, List.take_left' (by simp)]
  have hctx : evp.cipherInit cipher key (ch.bytes.take (evp.ivLen cipher)) cipherEncDecryption =
      decipherOf cipher key ch.buf := by rw [htake]; rfl
  have hl : m.live (decipherOf cipher key ch.buf) := m.init ..
  have hsub : (ch.len : ℤ) - (c.cipherIvLen : ℤ) = ((ch.len - evp.ivLen cipher : ℕ) : ℤ) := by
    rw [hr.ivLen]
    omega
  have hcall := decrypt_first ch.buf hr hd (by exact_mod_cast hn : (ch.len : ℤ) ≠ 0)
  rw [hctx]
  rw [hsub] at hcall
  by_cases h0 : ch.len - evp.ivLen cipher = 0
  · -- nothing but the IV
    rw [if_pos (by exact_mod_cast h0)] at hcall
    refine ⟨_, _, _, hcall, rfl, hl, ?_⟩
    intro rest
    rw [List.drop_of_length_le (by rw [Chunk.length_bytes]; omega)]
    rfl
  · have hle : ch.len - evp.ivLen cipher ≤ intMax := (Nat.sub_le ..).trans ch.len_le
    rw [if_neg (by exact_mod_cast h0), update_chunk m hl _ hle] at hcall
    refine ⟨_, _, _, hcall, rfl, m.streaming.closed _ _ hl, ?_⟩
    intro rest
    have hpay : slice (fun i => ch.buf (c.cipherIvLen + i)) 0 (ch.len - evp.ivLen cipher) =
        ch.bytes.drop (evp.ivLen cipher) := by
      rw [hr.ivLen]
      exact slice_payload ch hlen
    have hlength := m.streaming.length _ (ch.bytes.drop (evp.ivLen cipher)) hl
    rw [List.length_drop, Chunk.length_bytes] at hlength
    simp only [hpay]
    rw [m.streaming.append _ _ _ hl, reported_full hlength]

/-- **From the start**: the first bytes of the stream are the IV of the decipher, and it is given all the others. -/
theorem decrypt_run (chunks : List Chunk) : ∀ {c : Members evp} {key : List UInt8}, Ready c cipher key →
    c.decipher = none → FirstHolds (evp.ivLen cipher) chunks →
    ∃ c' outs, answers Members.call c (chunks.map decryptCall) = some (c', outs) ∧
      wire outs = if joined chunks = [] then [] else
        (m.crypt (evp.cipherInit cipher key ((joined chunks).take (evp.ivLen cipher)) cipherEncDecryption)
          ((joined chunks).drop (evp.ivLen cipher))).2 := by
  induction chunks with
  | nil => intro c key _ _ _; exact ⟨c, [], rfl, rfl⟩
  | cons ch chunks ih =>
    intro c key hr hd hfirst
    by_cases hn : ch.len = 0
    · obtain ⟨c', outs, h, hw⟩ := ih hr hd (firstHolds_of_empty hn hfirst)
      refine ⟨c', _, answers_cons (decrypt_empty c hn) h, ?_⟩
      rw [wire_cons, joined_cons, Chunk.bytes_eq_nil hn, hw]
      rfl
    · have hlen : evp.ivLen cipher ≤ ch.len := hfirst ch (by simp [hn])
      obtain ⟨c₁, out, ctx, hcall, hd₁, hl, hout⟩ := decrypt_first_chunk m hr hd hn hlen
      obtain ⟨c', outs, h, hw, -⟩ := decrypt_run_open m chunks hd₁ hl
      refine ⟨c', _, answers_cons hcall h, ?_⟩
      have hne := joined_ne_nil hn chunks
      have hle : evp.ivLen cipher ≤ ch.bytes.length := by rwa [Chunk.length_bytes]
      rw [if_neg hne, wire_cons, hw, joined_cons, List.take_append_of_le_length hle,
        List.drop_append_of_le_length hle]
      exact hout (joined chunks)

end Runs

/-! ### Both sides -/

/-- **The wire format does not depend on the chunks.**  A constructed `Cryptor` sends nothing for empty input, and
otherwise the IV its cipher was initialised with, followed by the encryption of the whole plaintext at once, exactly
when the first length and that of the IV are together an `int`. -/
theorem wire_format_iff {raw c : Members evp} {random : Fin maxIvLength → UInt8} {password : List UInt8}
    {method : String} (hc : Members.construct raw random password method = some c) (hcipher : c.cipher ≠ none)
    {cipher : evp.Cipher} (hname : evp.getCipherByName method = some cipher) (m : StreamMode evp cipher)
    (chunks : List Chunk) :
    ∃ key iv, Keyed evp password method cipher key ∧ iv.length = c.cipherIvLen ∧
      c.cipher = some (evp.cipherInit cipher key iv cipherEncEncryption) ∧
      ∃ c' outs, answers Members.call c (chunks.map encryptCall) = some (c', outs) ∧
        ((wire outs = (if joined chunks = [] then [] else
            iv ++ (m.crypt (evp.cipherInit cipher key iv cipherEncEncryption) (joined chunks)).2) ∧
          totalSize outs = if joined chunks = [] then 0 else (joined chunks).length + (c.cipherIvLen : ℤ)) ↔
          FirstFits c.cipherIvLen chunks) ∧
        (FirstFits c.cipherIvLen chunks → ∀ chunks' d outs', joined chunks' = joined chunks →
          FirstFits c.cipherIvLen chunks' → answers Members.call c (chunks'.map encryptCall) = some (d, outs') →
            wire outs' = wire outs) := by
  obtain ⟨cipher', key, hk, rfl⟩ := construct_eq hc hcipher
  obtain rfl : cipher = cipher' := Option.some.inj (hname.symm.trans hk.byName)
  have hlive := m.init key (ivOf cipher random) cipherEncEncryption
  have hfit {chunks : List Chunk} (hfits : FirstFits (evp.ivLen cipher) chunks) := encrypt_run_fits m
    (c := fresh cipher key random password method) rfl rfl hlive (length_ivOf cipher random) hfits
  refine ⟨key, ivOf cipher random, hk, length_ivOf cipher random, rfl, ?_⟩
  by_cases hfits : FirstFits (fresh cipher key random password method).cipherIvLen chunks
  · obtain ⟨c', outs, h, hw, ht⟩ := hfit hfits
    refine ⟨c', outs, h, iff_of_true ⟨hw, ht⟩ hfits, fun _ chunks' d outs' hj hfits' h' => ?_⟩
    obtain ⟨c'', outs'', h'', hw', -⟩ := hfit hfits'
    obtain ⟨-, rfl⟩ := Prod.mk.inj (Option.some.inj (h'.symm.trans h''))
    rw [hw, hw', hj]
  · obtain ⟨c', outs, h, hshort⟩ := encrypt_run_overflows m (c := fresh cipher key random password method) rfl rfl hlive
      (length_ivOf cipher random) (ivLen_le_intMax cipher) hfits
    refine ⟨c', outs, h, iff_of_false ?_ hfits, fun hf => absurd hf hfits⟩
    rintro ⟨hw, -⟩
    rw [hw] at hshort
    split at hshort
    · next h0 => simp [h0] at hshort
    · rw [List.length_append, m.streaming.length _ _ hlive] at hshort
      omega

/-- **The round trip.**  Whatever chunks the plaintext is sent in, and however the stream is cut again before it is
received by another `Cryptor` with the same password and method, so that the first bytes received hold the whole IV:
the plaintext comes out exactly when the first length and that of the IV are together an `int`. -/
theorem round_trip_iff {raw raw' c d : Members evp} {random random' : Fin maxIvLength → UInt8} {password : List UInt8}
    {method : String} (hc : Members.construct raw random password method = some c) (hcipher : c.cipher ≠ none)
    (hd : Members.construct raw' random' password method = some d) {cipher : evp.Cipher}
    (hname : evp.getCipherByName method = some cipher) (m : StreamMode evp cipher) (hinv : Inverse m)
    (plain : List Chunk) :
    ∃ c' sent, answers Members.call c (plain.map encryptCall) = some (c', sent) ∧
      ∀ segments : List Chunk, joined segments = wire sent → FirstHolds c.cipherIvLen segments →
        ∃ d' received, answers Members.call d (segments.map decryptCall) = some (d', received) ∧
          (wire received = joined plain ↔ FirstFits c.cipherIvLen plain) := by
  obtain ⟨cipher', key, hk, rfl⟩ := construct_eq hc hcipher
  obtain rfl : cipher = cipher' := Option.some.inj (hname.symm.trans hk.byName)
  obtain rfl : d = fresh cipher key random' password method :=
    Option.some.inj (hd.symm.trans (construct_fresh hk raw' random'))
  have hlive := m.init key (ivOf cipher random) cipherEncEncryption
  have hiv := length_ivOf cipher random
  by_cases hfits : FirstFits (fresh cipher key random password method).cipherIvLen plain
  · obtain ⟨c', sent, h, hw, -⟩ := encrypt_run_fits m (c := fresh cipher key random password method) rfl rfl hlive hiv
      hfits
    refine ⟨c', sent, h, fun segments hseg hfirst => ?_⟩
    obtain ⟨d', received, h', hw'⟩ := decrypt_run m segments (ready_fresh hk random') rfl hfirst
    refine ⟨d', received, h', iff_of_true ?_ hfits⟩
    rw [hw', hseg, hw]
    by_cases hp : joined plain = []
    · rw [if_pos hp, if_pos rfl, hp]
    · have hsent : (fresh cipher key random password method).cipherIv = ivOf cipher random := rfl
      rw [if_neg hp, hsent, List.take_left' hiv, List.drop_left' hiv, hinv key (ivOf cipher random) _ hiv]
      refine if_neg fun h0 => hp ?_
      have hl := m.streaming.length _ (joined plain) hlive
      rw [(List.append_eq_nil_iff.1 h0).2, List.length_nil] at hl
      exact List.length_eq_zero_iff.1 hl.symm
  · -- less is sent than there was to encrypt, and no more than that comes out
    obtain ⟨c', sent, h, hshort⟩ := encrypt_run_overflows m (c := fresh cipher key random password method) rfl rfl hlive
      hiv (ivLen_le_intMax cipher) hfits
    refine ⟨c', sent, h, fun segments hseg hfirst => ?_⟩
    obtain ⟨d', received, h', hw'⟩ := decrypt_run m segments (ready_fresh hk random') rfl hfirst
    refine ⟨d', received, h', iff_of_false (fun heq => ?_) hfits⟩
    have hle : (wire received).length ≤ (wire sent).length := by
      rw [hw', hseg]
      split
      · exact Nat.zero_le _
      · rw [m.streaming.length _ _ (m.init ..), List.length_drop]
        exact Nat.sub_le ..
    rw [heq] at hle
    omega

end Shadowc.Cryptor
