import Shadowc.Cryptor.InputBounds

/-!
# A connection with a `Cryptor` at each end

Two peers with the same password and method send text to each other.  The connection keeps the bytes of a direction in
order, holds them back as long as it likes and cuts them where it likes; both peers send and receive in any order.

When the first chunk of a direction that is not empty has, with the IV, a length that is an `int`, and the first segment
that is not empty holds the whole IV, what a peer has heard is at any time a prefix of what the other has said
(`delivery`), and what is missing is on the way and can still be heard (`drains`).

For one direction, `Sending` says how the sender stands after the text it was given, `Receiving` how the receiver
stands after the bytes it was given, and the bytes between them are the rest of `stream`.
-/

namespace Shadowc.Cryptor

open Lib Memory Transducer Transition

variable {evp : Evp}

/-- The two ends. -/
inductive Side where
  | left
  | right
  deriving DecidableEq, Repr

namespace Side

def other : Side → Side
  | left => right
  | right => left

@[simp] theorem other_other (s : Side) : s.other.other = s := by cases s <;> rfl

@[simp] theorem other_ne (s : Side) : s.other ≠ s := by cases s <;> decide

@[simp] theorem ne_other (s : Side) : s ≠ s.other := by cases s <;> decide

theorem eq_or (s d : Side) : d = s ∨ d = s.other := by
  cases s <;> cases d <;> simp [other]

end Side

/-- The two peers and what is between them. -/
structure Connection (evp : Evp) where
  peer : Side → Members evp
  /-- The text the side has given to `encrypt`. -/
  said : Side → List UInt8
  /-- The text `decrypt` has given the side. -/
  heard : Side → List UInt8
  /-- The bytes the side has sent that have not arrived. -/
  flight : Side → List UInt8

/-- A call of `encrypt` in this state is given nothing, finds the IV sent, or is given a text whose length and that of
the IV are together an `int`. -/
def Fits (c : Members evp) (ch : Chunk) : Prop :=
  ch.len = 0 ∨ c.ivSent = true ∨ ch.len + c.cipherIvLen ≤ intMax

namespace Connection

/-- Two peers that have not said anything. -/
def opened (peer : Side → Members evp) : Connection evp where
  peer := peer
  said _ := []
  heard _ := []
  flight _ := []

/-- The side `s` has encrypted a chunk, and sends the bytes that `encrypt` reports. -/
def afterSay (c : Connection evp) (s : Side) (ch : Chunk) (peer : Members evp) (out : Output) : Connection evp where
  peer := Function.update c.peer s peer
  said := Function.update c.said s (c.said s ++ ch.bytes)
  heard := c.heard
  flight := Function.update c.flight s (c.flight s ++ out.reported)

/-- The side `s` has decrypted a segment; `rest` is still on the way. -/
def afterHear (c : Connection evp) (s : Side) (peer : Members evp) (out : Output) (rest : List UInt8) :
    Connection evp where
  peer := Function.update c.peer s peer
  said := c.said
  heard := Function.update c.heard s (c.heard s ++ out.reported)
  flight := Function.update c.flight s.other rest

/-- A side encrypts a chunk of text, or decrypts a segment that has arrived. -/
inductive Action where
  | say (s : Side) (ch : Chunk)
  | hear (s : Side) (segment : Chunk)

inductive Step : Connection evp → Action → Connection evp → Prop
  | say {c : Connection evp} {s : Side} {ch : Chunk} {peer : Members evp} {out : Output}
      (call : (c.peer s).call (encryptCall ch) = some (peer, out)) :
      Step c (.say s ch) (c.afterSay s ch peer out)
  | hear {c : Connection evp} {s : Side} {segment : Chunk} {peer : Members evp} {out : Output} {rest : List UInt8}
      (arrived : segment.bytes ++ rest = c.flight s.other)
      (call : (c.peer s).call (decryptCall segment) = some (peer, out)) :
      Step c (.hear s segment) (c.afterHear s peer out rest)

theorem Step.unique {c c₁ c₂ : Connection evp} {a : Action} (h₁ : Step c a c₁) (h₂ : Step c a c₂) : c₁ = c₂ := by
  cases h₁ with
  | say call₁ =>
    obtain ⟨call₂⟩ := h₂
    obtain ⟨rfl, rfl⟩ := Prod.mk.inj (Option.some.inj (call₁.symm.trans call₂))
    rfl
  | hear arrived₁ call₁ =>
    cases h₂ with
    | hear arrived₂ call₂ =>
      obtain ⟨rfl, rfl⟩ := Prod.mk.inj (Option.some.inj (call₁.symm.trans call₂))
      obtain rfl := List.append_cancel_left (arrived₁.trans arrived₂.symm)
      rfl

/-- The first chunk that is not empty has, with the IV, a length that is an `int`, and the first segment that is not
empty holds the IV. -/
def Admits (c : Connection evp) : Action → Prop
  | .say s ch => Fits (c.peer s) ch
  | .hear s segment => IvArrives (c.peer s) (decryptCall segment)

end Connection

section Directions

variable {cipher : evp.Cipher} (m : StreamMode evp cipher)

/-! ### One direction -/

/-- The bytes sent for a text. -/
def stream (key iv said : List UInt8) : List UInt8 :=
  if said = [] then [] else iv ++ (m.crypt (evp.cipherInit cipher key iv cipherEncEncryption) said).2

/-- The members that have encrypted the text `said`. -/
structure Sending (key iv : List UInt8) (c : Members evp) (said : List UInt8) : Prop where
  cipherIv : c.cipherIv = iv
  ivLen : iv.length = c.cipherIvLen
  ivSent : c.ivSent = true ↔ said ≠ []
  cipher : ∃ ctx, c.cipher = some ctx ∧
    Resumes m.live m.crypt (evp.cipherInit cipher key iv cipherEncEncryption) said ctx

/-- The context that decrypts a stream. -/
def decipherFor (evp : Evp) (cipher : evp.Cipher) (key got : List UInt8) : evp.Ctx :=
  evp.cipherInit cipher key (got.take (evp.ivLen cipher)) cipherEncDecryption

/-- The members that have decrypted the bytes `got`, and what they have heard. -/
structure Receiving (key : List UInt8) (c : Members evp) (got heard : List UInt8) : Prop where
  keyed : Keyed evp c.password c.method cipher key
  ivLen : c.cipherIvLen = evp.ivLen cipher
  decipher : (c.decipher = none ∧ got = [] ∧ heard = []) ∨
    (got ≠ [] ∧ evp.ivLen cipher ≤ got.length ∧
      heard = (m.crypt (decipherFor evp cipher key got) (got.drop (evp.ivLen cipher))).2 ∧
      ∃ ctx, c.decipher = some ctx ∧
        Resumes m.live m.crypt (decipherFor evp cipher key got) (got.drop (evp.ivLen cipher)) ctx)

variable {m} {key iv said got heard : List UInt8} {c c' : Members evp}

theorem Sending.congr (h : Sending m key iv c said) (hc : c'.sending = c.sending) : Sending m key iv c' said := by
  simp only [Members.sending, Prod.mk.injEq] at hc
  obtain ⟨h1, h2, h3, h4⟩ := hc
  exact ⟨h2.trans h.cipherIv, h.ivLen.trans h3.symm, by rw [h4, h.ivSent], by rw [h1]; exact h.cipher⟩

theorem Receiving.congr (h : Receiving m key c got heard) (hc : c'.receiving = c.receiving) :
    Receiving m key c' got heard := by
  simp only [Members.receiving, Prod.mk.injEq] at hc
  obtain ⟨h1, h2, h3, h4⟩ := hc
  exact ⟨by rw [h3, h4]; exact h.keyed, h2.trans h.ivLen, by rw [h1]; exact h.decipher⟩

/-- **A chunk that is encrypted** continues the stream. -/
theorem Sending.step (h : Sending m key iv c said) {ch : Chunk} (hfits : Fits c ch) :
    ∃ c' out, c.call (encryptCall ch) = some (c', out) ∧ Sending m key iv c' (said ++ ch.bytes) ∧
      stream m key iv (said ++ ch.bytes) = stream m key iv said ++ out.reported := by
  obtain ⟨ctx, hctx, hres⟩ := h.cipher
  by_cases hn : ch.len = 0
  · have hbytes := Chunk.bytes_eq_nil hn
    refine ⟨c, _, encrypt_empty c hn, ?_, ?_⟩
    · rw [hbytes, List.append_nil]
      exact h
    · rw [hbytes, List.append_nil]
      exact (List.append_nil _).symm
  have hne : said ++ ch.bytes ≠ [] := List.append_ne_nil_of_right_ne_nil _ (Chunk.bytes_ne_nil hn)
  have hlen := (m.streaming.length ctx ch.bytes hres.1).trans ch.length_bytes
  have hnext := m.streaming.resumes hres ch.bytes
  by_cases hs : said = []
  · -- the IV goes first
    subst hs
    have hsent : c.ivSent = false := by
      rw [← Bool.not_eq_true, h.ivSent]
      simp
    have hiv : c.cipherIv.length = c.cipherIvLen := (congrArg _ h.cipherIv).trans h.ivLen
    have hfit : ch.len + c.cipherIv.length ≤ intMax := by
      rcases hfits with h0 | h1 | hle
      · exact absurd h0 hn
      · rw [hsent] at h1
        cases h1
      · rwa [hiv]
    have hfull := reported_first_fits m hres.1 hfit
    rw [hiv] at hfull
    refine ⟨_, _, encrypt_first_chunk m ch hctx hsent hres.1 hiv hn,
      ⟨h.cipherIv, h.ivLen, by simpa using hne, _, rfl, hnext⟩, ?_⟩
    have hout := hres.2 ch.bytes
    rw [m.streaming.output_nil (m.init ..), List.nil_append, List.nil_append] at hout
    rw [hfull, stream, if_neg hne, stream, if_pos rfl, h.cipherIv, List.nil_append, List.nil_append, hout]
  · have hcall := encrypt_sent ch.buf hctx (h.ivSent.2 hs) (by exact_mod_cast hn : (ch.len : ℤ) ≠ 0)
    rw [update_chunk m hres.1 ch.buf ch.len_le] at hcall
    refine ⟨_, _, hcall, ⟨h.cipherIv, h.ivLen, ?_, _, rfl, hnext⟩, ?_⟩
    · exact iff_of_true (h.ivSent.2 hs) hne
    · have hrep : Output.reported { bytes := (m.crypt ctx ch.bytes).2, size := (ch.len : ℤ) } =
          (m.crypt ctx ch.bytes).2 := reported_full hlen
      rw [stream, if_neg hne, stream, if_neg hs, hres.2 ch.bytes, List.append_assoc, ← hrep]
      rfl

/-- **A segment that is decrypted**: what has been heard is the text of all that has been received. -/
theorem Receiving.step (h : Receiving m key c got heard) (hc : c.cipher ≠ none) {seg : Chunk}
    (harr : IvArrives c (decryptCall seg)) :
    ∃ c' out, c.call (decryptCall seg) = some (c', out) ∧
      Receiving m key c' (got ++ seg.bytes) (heard ++ out.reported) := by
  have hr : Ready c cipher key := ⟨h.keyed, h.ivLen, hc⟩
  have hsettled : c.Settled := by
    intro cipher' key' hk
    obtain ⟨rfl, rfl⟩ := hk.unique h.keyed
    exact h.ivLen
  by_cases hn : seg.len = 0
  · refine ⟨c, _, decrypt_empty c hn, ?_⟩
    rw [Chunk.bytes_eq_nil hn, List.append_nil]
    exact (List.append_nil heard).symm ▸ h
  have hpos := Chunk.bytes_ne_nil hn
  -- the password, the method and the length of the IV stay
  have hframe : ∀ {c' : Members evp} {out : Output}, c.call (decryptCall seg) = some (c', out) →
      Keyed evp c'.password c'.method cipher key ∧ c'.cipherIvLen = evp.ivLen cipher := by
    intro c' out hcall
    obtain ⟨h1, h2, h3, -⟩ := Members.decrypt_frame hsettled hcall
    rw [h1, h2, h3]
    exact ⟨h.keyed, h.ivLen⟩
  rcases h.decipher with ⟨hnone, rfl, rfl⟩ | ⟨hgot, hlen, hheard, ctx, hctx, hres⟩
  · have hle : evp.ivLen cipher ≤ seg.len := by
      rcases harr with h0 | hsome | hle
      · exact absurd (Int.natCast_eq_zero.1 h0) hn
      · exact absurd hnone hsome
      · rw [h.ivLen] at hle
        exact Int.ofNat_le.1 hle
    obtain ⟨c', out, ctx, hcall, hd, hlive, hout⟩ := decrypt_first_chunk m hr hnone hn hle
    have hrep : out.reported = (m.crypt (decipherFor evp cipher key seg.bytes)
        (seg.bytes.drop (evp.ivLen cipher))).2 := by
      have := hout []
      rwa [m.streaming.output_nil hlive, List.append_nil, List.append_nil] at this
    refine ⟨c', out, hcall, (hframe hcall).1, (hframe hcall).2, .inr ⟨hpos, ?_, hrep, ctx, hd, hlive, ?_⟩⟩
    · rw [List.nil_append, Chunk.length_bytes]
      exact hle
    · intro rest
      rw [List.nil_append, ← hrep]
      exact (hout rest).symm
  · have hcall := decrypt_open seg.buf hctx (by exact_mod_cast hn : (seg.len : ℤ) ≠ 0)
    rw [update_chunk m hres.1 seg.buf seg.len_le] at hcall
    have hfor : decipherFor evp cipher key (got ++ seg.bytes) = decipherFor evp cipher key got := by
      rw [decipherFor, List.take_append_of_le_length hlen, decipherFor]
    have hrep : Output.reported { bytes := (m.crypt ctx seg.bytes).2, size := (seg.len : ℤ) } =
        (m.crypt ctx seg.bytes).2 :=
      reported_full ((m.streaming.length ctx seg.bytes hres.1).trans seg.length_bytes)
    refine ⟨_, _, hcall, (hframe hcall).1, (hframe hcall).2, .inr ⟨by simp [hgot], ?_, ?_, _, rfl, ?_⟩⟩
    · rw [List.length_append]
      omega
    · rw [hfor, List.drop_append_of_le_length hlen, hres.2 seg.bytes, ← hheard]
      exact congrArg (heard ++ ·) hrep
    · rw [hfor, List.drop_append_of_le_length hlen]
      exact m.streaming.resumes hres seg.bytes

/-- **What a receiver has heard of the stream** of a text: a prefix of the text, which lacks as many bytes as the
stream lacks once the IV has arrived; before, nothing has been heard, and the whole stream is on the way. -/
theorem Receiving.heard_prefix (h : Receiving m key c got heard) (hinv : Inverse m)
    (hiv : iv.length = evp.ivLen cipher) {rest : List UInt8} (hgot : got ++ rest = stream m key iv said) :
    heard <+: said ∧ (rest = [] → heard = said) ∧
      (c.decipher ≠ none → said.length = heard.length + rest.length) ∧
      (c.decipher = none → heard = [] ∧
        rest.length = if said = [] then 0 else said.length + evp.ivLen cipher) := by
  rcases h.decipher with ⟨hnone, rfl, rfl⟩ | ⟨hne, hlen, hheard, ctx, hctx, -⟩
  · have hrest : rest.length = if said = [] then 0 else said.length + evp.ivLen cipher := by
      rw [List.nil_append] at hgot
      rw [hgot, stream]
      split
      · rfl
      · rw [List.length_append, m.streaming.length _ _ (m.init ..), hiv, Nat.add_comm]
    refine ⟨List.nil_prefix, ?_, fun hd => absurd hnone hd, fun _ => ⟨rfl, hrest⟩⟩
    rintro rfl
    -- nothing is sent for no text only
    split at hrest
    · next h0 => exact h0.symm
    · next h0 => exact absurd (List.length_eq_zero_iff.1 (Nat.add_eq_zero_iff.1 hrest.symm).1) h0
  · have hs : said ≠ [] := by
      rintro rfl
      rw [stream, if_pos rfl] at hgot
      exact hne (List.append_eq_nil_iff.1 hgot).1
    rw [stream, if_neg hs] at hgot
    have hlive : m.live (decipherFor evp cipher key got) := m.init ..
    have htake : got.take (evp.ivLen cipher) = iv := by
      have := congrArg (List.take (evp.ivLen cipher)) hgot
      rwa [List.take_append_of_le_length hlen, List.take_left' hiv] at this
    have hdrop : got.drop (evp.ivLen cipher) ++ rest =
        (m.crypt (evp.cipherInit cipher key iv cipherEncEncryption) said).2 := by
      have := congrArg (List.drop (evp.ivLen cipher)) hgot
      rwa [List.drop_append_of_le_length hlen, List.drop_left' hiv] at this
    -- the whole stream decrypts to the text, so its first part does to a first part of the text
    have hall : said = heard ++ (m.crypt (m.crypt (decipherFor evp cipher key got)
        (got.drop (evp.ivLen cipher))).1 rest).2 := by
      have hcut := m.streaming.append (decipherFor evp cipher key got) (got.drop (evp.ivLen cipher)) rest hlive
      have hinv := hinv key iv said hiv
      rw [← hdrop, ← htake] at hinv
      rw [hheard]
      exact hinv.symm.trans (congrArg Prod.snd hcut)
    have hrest := m.streaming.length _ rest (m.streaming.closed _ (got.drop (evp.ivLen cipher)) hlive)
    refine ⟨⟨_, hall.symm⟩, ?_, fun _ => ?_, fun hd => ?_⟩
    · rintro rfl
      rw [List.length_nil, List.length_eq_zero_iff] at hrest
      rw [hrest, List.append_nil] at hall
      exact hall.symm
    · have := congrArg List.length hall
      rwa [List.length_append, hrest] at this
    · rw [hctx] at hd
      cases hd

/-! ### Both directions -/

variable (m key)

/-- In each direction the bytes that have been received and those on the way are the stream of the text. -/
def Linked (iv : Side → List UInt8) (c : Connection evp) : Prop :=
  ∀ s, ∃ got, Sending m key (iv s) (c.peer s) (c.said s) ∧ Receiving m key (c.peer s.other) got (c.heard s.other) ∧
    got ++ c.flight s = stream m key (iv s) (c.said s)

variable {m key} {iv : Side → List UInt8} {c c' : Connection evp}

theorem Linked.has_cipher (h : Linked m key iv c) (s : Side) : (c.peer s).cipher ≠ none := by
  obtain ⟨got, hs, -, -⟩ := h s
  obtain ⟨ctx, hctx, -⟩ := hs.cipher
  simp [hctx]

theorem Linked.usable (h : Linked m key iv c) (s : Side) : Usable (c.peer s) := by
  obtain ⟨got, -, hr, -⟩ := h s.other
  rw [Side.other_other] at hr
  exact ⟨cipher, key, hr.keyed, hr.ivLen, h.has_cipher s⟩

/-- What a call of `encrypt` leaves of the other direction. -/
theorem Linked.say_receiving (h : Linked m key iv c) {s : Side} {ch : Chunk} {peer : Members evp} {out : Output}
    (hcall : (c.peer s).call (encryptCall ch) = some (peer, out)) : peer.receiving = (c.peer s).receiving := by
  obtain ⟨c₁, out₁, h₁, -, hv⟩ := encrypt_usable (h.usable s) ch.buf ch.len
  obtain ⟨rfl, -⟩ := Prod.mk.inj (Option.some.inj (h₁.symm.trans hcall))
  exact hv

theorem Linked.hear_sending (h : Linked m key iv c) {s : Side} {ch : Chunk} {peer : Members evp} {out : Output}
    (hcall : (c.peer s).call (decryptCall ch) = some (peer, out)) : peer.sending = (c.peer s).sending := by
  obtain ⟨c₁, out₁, h₁, -, hv⟩ := decrypt_usable (h.usable s) ch.buf ch.len
  obtain ⟨rfl, -⟩ := Prod.mk.inj (Option.some.inj (h₁.symm.trans hcall))
  exact hv

theorem Linked.step {a : Connection.Action} (h : Linked m key iv c) (ha : c.Admits a)
    (hstep : Connection.Step c a c') : Linked m key iv c' := by
  intro d
  obtain ⟨got, hs, hr, hgot⟩ := h d
  cases hstep with
  | @say s ch peer out hcall =>
    rcases Side.eq_or s d with rfl | rfl
    · obtain ⟨peer', out', hcall', hs', hstream⟩ := hs.step ha
      obtain ⟨rfl, rfl⟩ := Prod.mk.inj (Option.some.inj (hcall'.symm.trans hcall))
      refine ⟨got, ?_, ?_, ?_⟩
      · simpa [Connection.afterSay] using hs'
      · simpa [Connection.afterSay] using hr
      · simp only [Connection.afterSay, Function.update_self]
        rw [← List.append_assoc, hgot, hstream]
    · rw [Side.other_other] at hr
      refine ⟨got, ?_, ?_, ?_⟩
      · simpa [Connection.afterSay] using hs
      · simpa [Connection.afterSay] using hr.congr (h.say_receiving hcall)
      · simpa [Connection.afterSay] using hgot
  | @hear s seg peer out rest harrived hcall =>
    rcases Side.eq_or s d with rfl | rfl
    · refine ⟨got, ?_, ?_, ?_⟩
      · simpa [Connection.afterHear] using hs.congr (h.hear_sending hcall)
      · simpa [Connection.afterHear] using hr
      · simpa [Connection.afterHear] using hgot
    · rw [Side.other_other] at hr
      obtain ⟨peer', out', hcall', hr'⟩ := hr.step (h.has_cipher s) ha
      obtain ⟨rfl, rfl⟩ := Prod.mk.inj (Option.some.inj (hcall'.symm.trans hcall))
      refine ⟨got ++ seg.bytes, ?_, ?_, ?_⟩
      · simpa [Connection.afterHear] using hs
      · simpa [Connection.afterHear] using hr'
      · simp only [Connection.afterHear, Function.update_self]
        rw [List.append_assoc, harrived, hgot]

/-- Something of what is on the way can be heard: as much of it as one call of `decrypt` takes. -/
theorem Linked.hear (h : Linked m key iv c) (hiv : ∀ s, (iv s).length = evp.ivLen cipher) {s : Side}
    (hflight : c.flight s ≠ []) :
    ∃ a c', Connection.Step c a c' ∧ c.Admits a ∧ c'.said = c.said ∧
      (c'.flight s).length < (c.flight s).length ∧ c'.flight s.other = c.flight s.other := by
  obtain ⟨got, hs, hr, hgot⟩ := h s
  have hpos := List.length_pos_iff.2 hflight
  have hmax : evp.ivLen cipher ≤ intMax ∧ 0 < intMax := ⟨ivLen_le_intMax cipher, by decide⟩
  have htake : ((c.flight s).take intMax).length = min intMax (c.flight s).length := List.length_take ..
  have hsegment : (Chunk.ofBytes ((c.flight s).take intMax) (by omega)).bytes = (c.flight s).take intMax :=
    Chunk.bytes_ofBytes _
  generalize hseg : Chunk.ofBytes ((c.flight s).take intMax) _ = segment at hsegment
  have hlen : segment.len = min intMax (c.flight s).length := by rw [← segment.length_bytes, hsegment, htake]
  have harr : IvArrives (c.peer s.other) (decryptCall segment) := by
    right
    rcases hr.decipher with ⟨-, rfl, -⟩ | ⟨-, -, -, ctx, hctx, -⟩
    · -- the stream is on the way from its start
      right
      have hsaid : c.said s ≠ [] := by
        intro h0
        rw [stream, if_pos h0] at hgot
        exact hflight (List.append_eq_nil_iff.1 hgot).2
      have hstream := congrArg List.length hgot
      rw [List.nil_append, stream, if_neg hsaid, List.length_append, hiv s] at hstream
      rw [hr.ivLen, hlen]
      exact_mod_cast le_min hmax.1 (by omega)
    · left
      simp [hctx]
  obtain ⟨peer, out, hcall, -⟩ := hr.step (h.has_cipher s.other) harr
  refine ⟨.hear s.other segment, c.afterHear s.other peer out ((c.flight s).drop intMax), .hear ?_ hcall, harr, rfl,
    ?_, ?_⟩
  · rw [hsegment, List.take_append_drop, Side.other_other]
  · simp only [Connection.afterHear, Side.other_other, Function.update_self, List.length_drop]
    omega
  · simp [Connection.afterHear]

/-- A whole direction can be heard, in as many calls as it takes. -/
theorem Linked.drain (h : Linked m key iv c) (hiv : ∀ s, (iv s).length = evp.ivLen cipher) (s : Side) :
    ∃ acts c', Runs Connection.Step c acts c' ∧ Along Connection.Step Connection.Admits c acts ∧ c'.said = c.said ∧
      c'.flight s = [] ∧ c'.flight s.other = c.flight s.other := by
  induction hn : (c.flight s).length using Nat.strong_induction_on generalizing c with
  | _ n ih =>
    by_cases hflight : c.flight s = []
    · exact ⟨[], c, .nil, along_nil c, rfl, hflight, rfl⟩
    · obtain ⟨a, c₁, hstep, ha, hsaid, hless, hkeep⟩ := h.hear hiv hflight
      obtain ⟨acts, c', hrun, halong, hsaid', hempty, hkeep'⟩ := ih _ (hn ▸ hless) (h.step ha hstep) rfl
      refine ⟨a :: acts, c', .cons hstep hrun, .cons ha fun t ht => ?_, hsaid'.trans hsaid, hempty, hkeep'.trans hkeep⟩
      obtain rfl := hstep.unique ht
      exact halong

theorem linked_along {acts : List Connection.Action} (h : Linked m key iv c) (hrun : Runs Connection.Step c acts c')
    (hadmits : Along Connection.Step Connection.Admits c acts) : Linked m key iv c' :=
  hrun.induction_along (fun _ _ _ h ha hstep => h.step ha hstep) h hadmits

end Directions

/-- Two peers as they are constructed. -/
theorem linked_opened {password : List UInt8} {method : String} {cipher : evp.Cipher} (m : StreamMode evp cipher)
    {key : List UInt8} (hk : Keyed evp password method cipher key) (random : Side → Fin maxIvLength → UInt8) :
    Linked m key (fun s => ivOf cipher (random s))
      (Connection.opened fun s => fresh cipher key (random s) password method) := by
  intro s
  refine ⟨[], ⟨rfl, length_ivOf cipher (random s), by simp [fresh, Connection.opened], _, rfl, ?_⟩,
    ⟨hk, rfl, .inl ⟨rfl, rfl, rfl⟩⟩, rfl⟩
  exact m.streaming.resumes_start (m.init ..)

section Delivery

variable {raw peer : Side → Members evp} {random : Side → Fin maxIvLength → UInt8} {password : List UInt8}
  {method : String}

theorem linked_run (hc : ∀ s, Members.construct (raw s) (random s) password method = some (peer s))
    (hcipher : ∀ s, (peer s).cipher ≠ none) {cipher : evp.Cipher} (hname : evp.getCipherByName method = some cipher)
    (m : StreamMode evp cipher) {acts : List Connection.Action} {c : Connection evp}
    (hrun : Runs Connection.Step (.opened peer) acts c)
    (hadmits : Along Connection.Step Connection.Admits (.opened peer) acts) :
    ∃ key, Linked m key (fun s => ivOf cipher (random s)) c := by
  obtain ⟨cipher', key, hk, -⟩ := construct_eq (hc .left) (hcipher .left)
  obtain rfl : cipher = cipher' := Option.some.inj (hname.symm.trans hk.byName)
  have hpeer : peer = fun s => fresh cipher key (random s) password method := by
    funext s
    exact Option.some.inj ((hc s).symm.trans (construct_fresh hk (raw s) (random s)))
  subst hpeer
  exact ⟨key, linked_along (linked_opened m hk random) hrun hadmits⟩

/-! ### What arrives -/

/-- **Delivery.**  Two peers with the same password and method, each sending and receiving in any order: when in each
direction the first chunk that is not empty has, with the IV, a length that is an `int`, and the first segment that is
not empty holds the IV, no call fails, and what a peer has heard is a prefix of what the other has said, with nothing
lost: all of it when nothing is on the way; as much less as there are bytes on the way, once the IV has arrived; and
before, nothing has been heard, and all that was said is on the way with the IV. -/
theorem delivery (hc : ∀ s, Members.construct (raw s) (random s) password method = some (peer s))
    (hcipher : ∀ s, (peer s).cipher ≠ none) {cipher : evp.Cipher} (hname : evp.getCipherByName method = some cipher)
    (m : StreamMode evp cipher) (hinv : Inverse m) {acts : List Connection.Action} {c : Connection evp}
    (hrun : Runs Connection.Step (.opened peer) acts c)
    (hadmits : Along Connection.Step Connection.Admits (.opened peer) acts) :
    (∀ s, c.heard s.other <+: c.said s ∧ (c.flight s = [] → c.heard s.other = c.said s) ∧
      ((c.peer s.other).decipher ≠ none → (c.said s).length = (c.heard s.other).length + (c.flight s).length) ∧
      ((c.peer s.other).decipher = none → c.heard s.other = [] ∧
        (c.flight s).length = if c.said s = [] then 0 else (c.said s).length + evp.ivLen cipher)) ∧
    (∀ s ch, ∃ c', Connection.Step c (.say s ch) c') ∧
    ∀ s (segment : Chunk), segment.bytes <+: c.flight s.other → c.Admits (.hear s segment) →
      ∃ c', Connection.Step c (.hear s segment) c' := by
  obtain ⟨key, hlinked⟩ := linked_run hc hcipher hname m hrun hadmits
  refine ⟨fun s => ?_, fun s ch => ?_, fun s segment harrived ha => ?_⟩
  · obtain ⟨got, -, hr, hgot⟩ := hlinked s
    exact hr.heard_prefix hinv (length_ivOf cipher (random s)) hgot
  · obtain ⟨peer', out, hcall, -⟩ := encrypt_usable (hlinked.usable s) ch.buf ch.len
    exact ⟨_, .say hcall⟩
  · obtain ⟨got, -, hr, -⟩ := hlinked s.other
    rw [Side.other_other] at hr
    obtain ⟨peer', out, hcall, -⟩ := hr.step (hlinked.has_cipher s) ha
    obtain ⟨rest, hrest⟩ := harrived
    exact ⟨_, .hear hrest hcall⟩

/-- Two peers with the password `key`. -/
def knownPeers : Side → Members knownEvp
  | .left => knownCryptor
  | .right => fresh () knownKey (fun _ => 7) knownPassword "aes-256-cfb"

theorem construct_peers (s : Side) : Members.construct blank (s.rec knownIv fun _ => 7) knownPassword "aes-256-cfb" =
    some (knownPeers s) := by
  cases s with
  | left => exact construct_known
  | right => exact construct_fresh ⟨rfl, (), rfl, rfl⟩ blank fun _ => 7

/-- The left peer says `hi`, and all but the last byte of it arrives. -/
def halfway : List Connection.Action := [.say .left hi, .hear .right firstPart]

theorem halfway_run : ∃ c, Runs Connection.Step (.opened knownPeers) halfway c ∧
    Along Connection.Step Connection.Admits (.opened knownPeers) halfway ∧ c.said .left = [104, 105] ∧
    c.flight .left = [95] := by
  obtain ⟨⟨peer, out⟩, hcall⟩ := Option.isSome_iff_exists.1
    (by rfl : (knownCryptor.call (encryptCall hi)).isSome = true)
  obtain ⟨⟨peer', out'⟩, hcall'⟩ := Option.isSome_iff_exists.1
    (by rfl : ((knownPeers .right).call (decryptCall firstPart)).isSome = true)
  have hout : out.reported = firstPart.bytes ++ [95] := by
    have hmap : (knownCryptor.call (encryptCall hi)).map (fun p => p.2.reported) = some (firstPart.bytes ++ [95]) := by
      rfl
    rw [hcall] at hmap
    exact Option.some.inj hmap
  have harrived : firstPart.bytes ++ [95] = [] ++ out.reported := by
    rw [hout]
    rfl
  have hfits : Fits knownCryptor hi := .inr (.inr (by decide))
  refine ⟨_, .cons (.say hcall) (.cons (.hear harrived hcall') .nil), .cons hfits fun t ht => ?_, rfl, rfl⟩
  · refine .cons ?_ fun u _ => along_nil u
    obtain rfl := ht.unique (.say hcall)
    exact .inr (.inr (by decide : ((16 : ℕ) : ℤ) ≤ (17 : ℕ)))

theorem delivery_halfway : ∃ c, Runs Connection.Step (.opened knownPeers) halfway c ∧
    c.heard .right <+: [104, 105] ∧ (c.flight .left = [] → c.heard .right = [104, 105]) := by
  obtain ⟨c, hrun, hadmits, hsaid, -⟩ := halfway_run
  have h := (delivery construct_peers (by rintro (_ | _) <;> simp [knownPeers, knownCryptor, fresh]) rfl
    knownMode (cfb_inverse _ _) hrun hadmits).1 .left
  rw [hsaid] at h
  exact ⟨c, hrun, h.1, h.2.1⟩

/-- **What is on the way can arrive.**  From every state of such a run the connection can bring both peers to have
heard all that the other has said, in segments whose lengths are `int`s. -/
theorem drains (hc : ∀ s, Members.construct (raw s) (random s) password method = some (peer s))
    (hcipher : ∀ s, (peer s).cipher ≠ none) {cipher : evp.Cipher} (hname : evp.getCipherByName method = some cipher)
    (m : StreamMode evp cipher) (hinv : Inverse m) {acts : List Connection.Action} {c : Connection evp}
    (hrun : Runs Connection.Step (.opened peer) acts c)
    (hadmits : Along Connection.Step Connection.Admits (.opened peer) acts) :
    ∃ acts' c', Runs Connection.Step c acts' c' ∧ Along Connection.Step Connection.Admits c acts' ∧
      ∀ s, c'.said s = c.said s ∧ c'.heard s.other = c.said s := by
  obtain ⟨key, hlinked⟩ := linked_run hc hcipher hname m hrun hadmits
  have hiv := fun s => length_ivOf cipher (random s)
  obtain ⟨acts₁, c₁, h₁, ha₁, hsaid₁, hleft, -⟩ := hlinked.drain hiv .left
  have hlinked₁ := linked_along hlinked h₁ ha₁
  obtain ⟨acts₂, c₂, h₂, ha₂, hsaid₂, hright, hkeep⟩ := hlinked₁.drain hiv .right
  have hlinked₂ := linked_along hlinked₁ h₂ ha₂
  have hunique : ∀ (c : Connection evp) a c' c'', Connection.Step c a c' → Connection.Step c a c'' → c' = c'' :=
    fun _ _ _ _ h h' => h.unique h'
  refine ⟨acts₁ ++ acts₂, c₂, h₁.append h₂, .append hunique h₁ ha₁ ha₂, fun s => ?_⟩
  have hempty : c₂.flight s = [] := by
    cases s with
    | left => exact hkeep.trans hleft
    | right => exact hright
  obtain ⟨got, -, hr, hgot⟩ := hlinked₂ s
  have hsaid : c₂.said s = c.said s := by rw [hsaid₂, hsaid₁]
  exact ⟨hsaid, ((hr.heard_prefix hinv (hiv s) hgot).2.1 hempty).trans hsaid⟩

theorem drains_halfway : ∃ c c' acts', Runs Connection.Step (.opened knownPeers) halfway c ∧
    Runs Connection.Step c acts' c' ∧ c'.heard .right = [104, 105] := by
  obtain ⟨c, hrun, hadmits, hsaid, -⟩ := halfway_run
  obtain ⟨acts', c', hrun', -, h⟩ := drains construct_peers
    (by rintro (_ | _) <;> simp [knownPeers, knownCryptor, fresh]) rfl knownMode (cfb_inverse _ _) hrun hadmits
  exact ⟨c, c', acts', hrun, hrun', (h .left).2.trans hsaid⟩

end Delivery

end Shadowc.Cryptor
