import Shadowc.Cryptor.CfbMode
import Shadowc.Lib.Trace
import Shadowc.Lib.Transition

/-!
# Which bytes of its input `decrypt` uses

`decrypt` with a log of the bytes it reads of `buf`, of the lengths it passes to `update`, and of the number of bytes
it takes as the IV of the decipher.  Without the log it is the function it was (`decryptTraced_outcome`).

The first call that is given something takes `cipher_iv_len` bytes, however many there are, and goes on with what is
left of the length; so it stays inside its input exactly when that is at least as long as the IV
(`all_decryptTraced`), in every state that calls lead to (`Settled`).
-/

namespace Shadowc.Cryptor

open Lib Memory Trace Traced Transition

variable {evp : Evp}

/-- A use of the input. -/
inductive InputUse where
  | read (index : ℕ)
  /-- A length that is passed to `update`. -/
  | update (len : ℤ)
  /-- The IV of the decipher is fixed from the first bytes. -/
  | fixIv (size : ℕ)
  deriving DecidableEq, Repr

/-- The use is one of an input of `len` bytes. -/
def InputUse.Inside (len : ℤ) : InputUse → Prop
  | .read index => (index : ℤ) < len
  | .update len' => 0 ≤ len' ∧ len' ≤ len
  | .fixIv size => (size : ℤ) ≤ len

abbrev InputLog (α : Type) := Traced InputUse Unit α

/-- `none` is a use of `NULL`. -/
def orNull {α : Type} : Option α → Except Unit α
  | some a => .ok a
  | none => .error ()

namespace Members

def openDecipherTraced (c : Members evp) (buf : Mem) (len : ℤ) : InputLog (Members evp × ℕ × ℤ) :=
  match c.decipher with
  | some _ => return (c, 0, len)
  | none => do
    emits ((List.range c.cipherIvLen).map InputUse.read)
    emit (.fixIv c.cipherIvLen)
    let decipherIv := slice buf 0 c.cipherIvLen
    let (decipher, c) ← lift (orNull ({ c with decipherIv := some decipherIv }.getCipher c.password c.method
      cipherEncDecryption decipherIv))
    return ({ c with decipher }, c.cipherIvLen, len - c.cipherIvLen)

/-- The pointer `buf` is given by how far it has been moved. -/
def decryptTraced (c : Members evp) (buf : Mem) (len : ℤ) : InputLog (Members evp × Output) :=
  if len = 0 then
    return (c, { bytes := [], size := 0 })
  else do
    let (c, start, len) ← c.openDecipherTraced buf len
    if len = 0 then
      return (c, { bytes := [], size := 0 })
    else
      let ctx ← lift (orNull c.decipher)
      emit (.update len)
      emits ((List.range len.toNat).map fun i => InputUse.read (start + i))
      let (ctx, decrypted) := update ctx (fun i => buf (start + i)) len
      return ({ c with decipher := some ctx }, decrypted)

/-- The pointer moves on by what the length loses. -/
theorem openDecipherTraced_outcome (c : Members evp) (buf : Mem) (len : ℤ) :
    (c.openDecipher buf len = none ∧ (c.openDecipherTraced buf len).outcome = .error ()) ∨
    ∃ c' start len', c.openDecipher buf len = some (c', fun i => buf (start + i), len') ∧
      (c.openDecipherTraced buf len).outcome = .ok (c', start, len') ∧ start + len' = len := by
  unfold openDecipher openDecipherTraced
  cases c.decipher with
  | some ctx => exact .inr ⟨c, 0, len, by simp, rfl, by simp⟩
  | none =>
    simp only
    rw [bind_ok (outcome_emits _), bind_ok (outcome_emit _)]
    generalize hget : Members.getCipher _ _ _ _ _ = got
    cases got with
    | none => exact .inl ⟨rfl, rfl⟩
    | some p =>
      refine .inr ⟨{ p.2 with decipher := p.1 }, p.2.cipherIvLen, len - p.2.cipherIvLen, rfl, rfl, ?_⟩
      omega

/-- **The log makes no difference** to what `decrypt` does. -/
theorem decryptTraced_outcome (c : Members evp) (buf : Mem) (len : ℤ) :
    (c.decryptTraced buf len).outcome = orNull (c.decrypt buf len) := by
  unfold decryptTraced decrypt
  split
  · rfl
  obtain ⟨hopen, htraced⟩ | ⟨c', start, len', hopen, htraced, -⟩ := c.openDecipherTraced_outcome buf len
  · rw [bind_error htraced, hopen]
    rfl
  · rw [bind_ok htraced, hopen]
    show (ite _ _ _ : InputLog (Members evp × Output)).outcome = orNull (ite _ _ _)
    split
    · rfl
    · cases c'.decipher <;> rfl

/-! ### States that calls lead to -/

/-- `get_cipher` leaves the members as they are, or sets the length of the IV and the IV of the cipher. -/
theorem getCipher_cases {c c' : Members evp} {password : List UInt8} {method : String} {op : ℕ} {iv : List UInt8}
    {got : Option evp.Ctx} (h : c.getCipher password method op iv = some (got, c')) :
    c' = c ∨ ∃ cipher key iv', Keyed evp password method cipher key ∧
      c' = { c with cipherIvLen := evp.ivLen cipher, cipherIv := iv' } := by
  unfold getCipher at h
  split at h
  · cases h
    exact .inl rfl
  next dgst hd =>
  split at h
  · cases h
  next cipher hc =>
  split at h
  · cases h
    exact .inl rfl
  next key hk =>
  refine .inr ⟨cipher, key, ?_⟩
  simp only at h
  split at h <;> cases h
  · exact ⟨_, ⟨hc, dgst, hd, hk⟩, rfl⟩
  · exact ⟨c.cipherIv, ⟨hc, dgst, hd, hk⟩, rfl⟩

/-- The length of the IV is the one that `get_cipher` finds, if it finds one. -/
def Settled (c : Members evp) : Prop :=
  ∀ cipher key, Keyed evp c.password c.method cipher key → c.cipherIvLen = evp.ivLen cipher

theorem settled_construct {raw c : Members evp} {random : Fin maxIvLength → UInt8} {password : List UInt8}
    {method : String} (h : construct raw random password method = some c) : c.Settled := by
  intro cipher key hk
  obtain ⟨⟨got, c₁⟩, hget, h⟩ := Option.bind_eq_some_iff.1 h
  cases h
  rw [getCipher_keyed hk] at hget
  obtain ⟨-, rfl⟩ := Prod.mk.inj (Option.some.inj hget)
  rfl

/-- What `openDecipher` leaves of the other members. -/
theorem openDecipher_frame {c c' : Members evp} (hc : c.Settled) {buf buf' : Mem} {len len' : ℤ}
    (h : c.openDecipher buf len = some (c', buf', len')) :
    c'.password = c.password ∧ c'.method = c.method ∧ c'.cipherIvLen = c.cipherIvLen ∧
      ((c.decipher ≠ none ∧ c' = c ∧ len' = len) ∨
        (c.decipher = none ∧ c'.decipherIv = some (slice buf 0 c.cipherIvLen) ∧ len' = len - c.cipherIvLen)) := by
  unfold openDecipher at h
  cases hd : c.decipher with
  | some ctx =>
    rw [hd] at h
    cases h
    exact ⟨rfl, rfl, rfl, .inl ⟨by simp, rfl, rfl⟩⟩
  | none =>
    rw [hd] at h
    obtain ⟨⟨got, c₁⟩, hget, h⟩ := Option.bind_eq_some_iff.1 h
    cases h
    rcases getCipher_cases hget with rfl | ⟨cipher, key, iv', hk, rfl⟩
    · exact ⟨rfl, rfl, rfl, .inr ⟨rfl, rfl, rfl⟩⟩
    · have hlen := hc cipher key hk
      exact ⟨rfl, rfl, hlen.symm, .inr ⟨rfl, rfl, by rw [hlen]⟩⟩

theorem encrypt_frame {c c' : Members evp} {buf : Mem} {len : ℤ} {out : Output}
    (h : c.encrypt buf len = some (c', out)) : c'.password = c.password ∧ c'.method = c.method ∧
      c'.cipherIvLen = c.cipherIvLen ∧ c'.decipherIv = c.decipherIv := by
  unfold encrypt at h
  split at h
  · cases h
    exact ⟨rfl, rfl, rfl, rfl⟩
  split at h
  · cases h
  simp only at h
  split at h <;> cases h <;> exact ⟨rfl, rfl, rfl, rfl⟩

/-- `decrypt` fixes the IV of the decipher when there is none, and leaves it otherwise. -/
theorem decrypt_frame {c c' : Members evp} (hc : c.Settled) {buf : Mem} {len : ℤ} {out : Output}
    (h : c.decrypt buf len = some (c', out)) : c'.password = c.password ∧ c'.method = c.method ∧
      c'.cipherIvLen = c.cipherIvLen ∧ (c'.decipherIv = c.decipherIv ∨
        (len ≠ 0 ∧ c.decipher = none ∧ c'.decipherIv = some (slice buf 0 c.cipherIvLen))) := by
  unfold decrypt at h
  split at h
  · cases h
    exact ⟨rfl, rfl, rfl, .inl rfl⟩
  next hlen =>
  obtain ⟨⟨c₁, buf₁, len₁⟩, hopen, h⟩ := Option.bind_eq_some_iff.1 h
  obtain ⟨hp, hm, hl, hiv⟩ := openDecipher_frame hc hopen
  -- what follows leaves these members alone
  have hrest : c'.password = c₁.password ∧ c'.method = c₁.method ∧ c'.cipherIvLen = c₁.cipherIvLen ∧
      c'.decipherIv = c₁.decipherIv := by
    simp only at h
    split at h
    · cases h
      exact ⟨rfl, rfl, rfl, rfl⟩
    · obtain ⟨ctx, -, h⟩ := Option.bind_eq_some_iff.1 h
      cases h
      exact ⟨rfl, rfl, rfl, rfl⟩
  obtain ⟨hp', hm', hl', hiv'⟩ := hrest
  refine ⟨hp'.trans hp, hm'.trans hm, hl'.trans hl, ?_⟩
  rcases hiv with ⟨-, rfl, -⟩ | ⟨hnone, hiv, -⟩
  · exact .inl hiv'
  · exact .inr ⟨hlen, hnone, hiv'.trans hiv⟩

theorem call_frame {c c' : Members evp} (hc : c.Settled) {a : Call} {out : Output} (h : c.call a = some (c', out)) :
    c'.password = c.password ∧ c'.method = c.method ∧ c'.cipherIvLen = c.cipherIvLen := by
  cases a with
  | encrypt buf len =>
    obtain ⟨hp, hm, hl, -⟩ := encrypt_frame h
    exact ⟨hp, hm, hl⟩
  | decrypt buf len =>
    obtain ⟨hp, hm, hl, -⟩ := decrypt_frame hc h
    exact ⟨hp, hm, hl⟩

/-- Every call keeps what `Settled` says. -/
theorem settled_call {c c' : Members evp} (hc : c.Settled) {a : Call} {out : Output} (h : c.call a = some (c', out)) :
    c'.Settled := by
  obtain ⟨hp, hm, hl⟩ := call_frame hc h
  intro cipher key hk
  rw [hp, hm] at hk
  rw [hl]
  exact hc cipher key hk

/-! ### One call -/

theorem all_openDecipherTraced (c : Members evp) (buf : Mem) (len : ℤ) :
    All (InputUse.Inside len) (c.openDecipherTraced buf len) ↔ c.decipher ≠ none ∨ c.cipherIvLen ≤ len := by
  unfold openDecipherTraced
  cases c.decipher with
  | some ctx => simp
  | none =>
    simp only
    rw [all_bind_ok (outcome_emits _), all_bind_ok (outcome_emit _), all_emits, all_emit]
    constructor
    · rintro ⟨-, hfix, -⟩
      exact .inr hfix
    · rintro (h | h)
      · exact absurd rfl h
      · refine ⟨fun u hu => ?_, h, all_bind.2 ⟨all_lift _, fun _ _ => all_pure _⟩⟩
        obtain ⟨i, hi, rfl⟩ := List.mem_map.1 hu
        rw [List.mem_range] at hi
        show (i : ℤ) < len
        omega

/-- **One call of `decrypt` stays inside its input** exactly when it is given nothing, has a decipher, or is given at
least an IV. -/
theorem all_decryptTraced {c : Members evp} (hc : c.Settled) (buf : Mem) {len : ℤ} (hlen : 0 ≤ len) :
    All (InputUse.Inside len) (c.decryptTraced buf len) ↔ len = 0 ∨ c.decipher ≠ none ∨ c.cipherIvLen ≤ len := by
  unfold decryptTraced
  split
  · next h0 => simp [h0]
  next h0 =>
  have hcond : (len = 0 ∨ c.decipher ≠ none ∨ c.cipherIvLen ≤ len) ↔ c.decipher ≠ none ∨ c.cipherIvLen ≤ len := by
    simp [h0]
  rw [all_bind, all_openDecipherTraced, hcond]
  refine ⟨fun h => h.1, fun h => ⟨h, ?_⟩⟩
  rintro ⟨c', start, len'⟩ htraced
  obtain ⟨-, herror⟩ | ⟨c₁, start₁, len₁, hopen, hok, hsum⟩ := c.openDecipherTraced_outcome buf len
  · rw [herror] at htraced
    cases htraced
  obtain ⟨rfl, rfl, rfl⟩ : c₁ = c' ∧ start₁ = start ∧ len₁ = len' := by simpa [hok] using htraced
  have hpos : 0 ≤ len₁ := by
    obtain ⟨-, -, -, ⟨-, -, rfl⟩ | ⟨hnone, -, rfl⟩⟩ := openDecipher_frame hc hopen
    · exact hlen
    · rcases h with h | h
      · exact absurd hnone h
      · omega
  show All _ (ite _ _ _)
  split
  · exact all_pure _
  refine all_bind.2 ⟨all_lift _, ?_⟩
  intro ctx _
  rw [all_bind_ok (outcome_emit _), all_bind_ok (outcome_emits _), all_emit, all_emits]
  refine ⟨⟨hpos, by omega⟩, fun u hu => ?_, all_pure _⟩
  obtain ⟨i, hi, rfl⟩ := List.mem_map.1 hu
  rw [List.mem_range] at hi
  show ((start₁ + i : ℕ) : ℤ) < len
  omega

end Members

/-! ### Runs -/

/-- A call, without what it writes. -/
def Called (c : Members evp) (a : Call) (c' : Members evp) : Prop := ∃ out, c.call a = some (c', out)

/-- The length of the input. -/
def Call.len : Call → ℤ
  | .encrypt _ len => len
  | .decrypt _ len => len

/-- A call of `decrypt` in this state stays inside its input. -/
def InputInside (c : Members evp) : Call → Prop
  | .encrypt .. => True
  | .decrypt buf len => All (InputUse.Inside len) (c.decryptTraced buf len)

/-- A call of `decrypt` in this state is given nothing, finds a decipher, or is given at least an IV. -/
def IvArrives (c : Members evp) : Call → Prop
  | .encrypt .. => True
  | .decrypt _ len => len = 0 ∨ c.decipher ≠ none ∨ c.cipherIvLen ≤ len

/-- The stream that the calls of `decrypt` receive. -/
def received : List Call → List UInt8
  | [] => []
  | .encrypt .. :: calls => received calls
  | .decrypt buf len :: calls => slice buf 0 len.toNat ++ received calls

theorem received_append (calls calls' : List Call) :
    received (calls ++ calls') = received calls ++ received calls' := by
  induction calls with
  | nil => rfl
  | cons a calls ih =>
    cases a with
    | encrypt buf len => exact ih
    | decrypt buf len =>
      show slice buf 0 len.toNat ++ received (calls ++ calls') = _
      rw [ih, ← List.append_assoc]
      rfl

theorem inputInside_iff {c : Members evp} (hc : c.Settled) {a : Call} (ha : 0 ≤ a.len) :
    InputInside c a ↔ IvArrives c a := by
  cases a with
  | encrypt buf len => exact Iff.rfl
  | decrypt buf len => exact Members.all_decryptTraced hc buf ha

theorem settled_run {c c' : Members evp} {calls : List Call} (h : Runs Called c calls c') (hc : c.Settled) :
    c'.Settled :=
  h.induction (fun _ _ _ hs ⟨_, hcall⟩ => Members.settled_call hs hcall) hc

/-- The IV of the decipher is a piece of the stream that has been received. -/
theorem decipherIv_received {c₀ c : Members evp} {calls : List Call} (hs : c₀.Settled) (h0 : c₀.decipherIv = none)
    (h : Runs Called c₀ calls c) : Along Called IvArrives c₀ calls →
      ∀ iv, c.decipherIv = some iv → iv <:+: received calls := by
  refine h.induction_history (Q := fun calls c => Along Called IvArrives c₀ calls →
    ∀ iv, c.decipherIv = some iv → iv <:+: received calls) ?_ ?_
  · intro _ iv hiv
    rw [h0] at hiv
    cases hiv
  · rintro calls t a u hrun ih ⟨out, hcall⟩ halong iv hiv
    have ih := ih halong.init
    rw [received_append]
    cases a with
    | encrypt buf len =>
      obtain ⟨-, -, -, hsame⟩ := Members.encrypt_frame hcall
      exact (ih iv (hsame.symm.trans hiv)).trans (List.prefix_append ..).isInfix
    | decrypt buf len =>
      have harrives := halong calls (.decrypt buf len) [] t rfl hrun
      obtain ⟨-, -, -, hsame | ⟨hlen, hnone, hnew⟩⟩ := Members.decrypt_frame (settled_run hrun hs) hcall
      · exact (ih iv (hsame.symm.trans hiv)).trans (List.prefix_append ..).isInfix
      · obtain rfl := Option.some.inj (hnew.symm.trans hiv)
        have hle : (t.cipherIvLen : ℤ) ≤ len := by
          rcases harrives with h | h | h
          · exact absurd h hlen
          · exact absurd hnone h
          · exact h
        have hsplit : len.toNat = t.cipherIvLen + (len.toNat - t.cipherIvLen) := by omega
        have hprefix : slice buf 0 t.cipherIvLen <+: slice buf 0 len.toNat := by
          rw [hsplit, slice_add]
          exact List.prefix_append ..
        have hchunk : slice buf 0 len.toNat <:+: received calls ++ received [.decrypt buf len] :=
          ⟨received calls, [], by simp [received]⟩
        exact hprefix.isInfix.trans hchunk

/-- **When `decrypt` stays inside its input.**  In every sequence of calls of a constructed `Cryptor`, each call of
`decrypt` reads only the bytes it is given, passes on lengths within them and takes the IV from them, exactly when the
first call that is given something is given at least an IV; and then the IV of the decipher is a piece of the stream
that has been received. -/
theorem input_inside_iff {raw c₀ : Members evp} {random : Fin maxIvLength → UInt8} {password : List UInt8}
    {method : String} (hc : Members.construct raw random password method = some c₀) {calls : List Call}
    (hlen : ∀ a ∈ calls, 0 ≤ a.len) :
    (Along Called InputInside c₀ calls ↔ Along Called IvArrives c₀ calls) ∧
    (Along Called IvArrives c₀ calls → ∀ c iv, Runs Called c₀ calls c → c.decipherIv = some iv →
      iv <:+: received calls) := by
  have hs := Members.settled_construct hc
  constructor
  · apply along_congr
    intro pre a post t hcalls hrun
    exact inputInside_iff (settled_run hrun hs) (hlen a (by simp [hcalls]))
  · intro h c iv hrun hiv
    have h0 : c₀.decipherIv = none := by
      obtain ⟨p, -, hp⟩ := Option.bind_eq_some_iff.1 hc
      cases hp
      rfl
    exact decipherIv_received hs h0 hrun h iv hiv

/-- A first segment with an IV and one byte more. -/
theorem input_inside_iff_segment : Along Called InputInside knownCryptor [.decrypt (fun _ => 1) 17] := by
  have hlen : ∀ a ∈ [Call.decrypt (fun _ => 1) 17], 0 ≤ a.len := by simp [Call.len]
  refine (input_inside_iff construct_known hlen).1.2 (.cons (.inr (.inr ?_)) fun t _ => along_nil t)
  show ((16 : ℕ) : ℤ) ≤ 17
  omega

/-- A first segment of three bytes: sixteen are read. -/
theorem short_segment_outside : Members.construct blank knownIv knownPassword "aes-256-cfb" = some knownCryptor ∧
    ¬ All (InputUse.Inside 3) (knownCryptor.decryptTraced (fun _ => 1) 3) := by
  refine ⟨construct_known, ?_⟩
  intro h
  have hfix : InputUse.fixIv 16 ∈ (knownCryptor.decryptTraced (fun _ => 1) 3).trace := by decide
  have hin : ((16 : ℕ) : ℤ) ≤ 3 := h _ hfix
  omega

end Shadowc.Cryptor
