import Shadowc.Dns.Accesses
import Shadowc.Dns.NameSpec

/-!
# Which bytes of its block `read_name` uses

`read_name` collects a name in a block of 256 bytes and converts it there.  From the bytes `bs` that are collected one
can tell how far it goes: the collecting loop and its terminator use the first `bs.length + 1` cells, and the dot
conversion follows the length bytes, the last of which may promise more bytes than were collected (`overrun`).  The
dot that is removed last is the one before the index at which the conversion ends (`dotLoop_end`), which for the root
name is no cell at all.
-/

namespace Shadowc.Dns

open Lib Reading Memory Trace Traced

/-- An access to the block of `read_name` lies within its 256 bytes. -/
def Access.NameInside : Access → Prop
  | .name index => 0 ≤ index ∧ index < 256
  | _ => True

/-- An access to the block of `read_name` lies before index `n`. -/
def Access.NameBelow (n : ℕ) : Access → Prop
  | .name index => 0 ≤ index ∧ index < n
  | _ => True

theorem nameBelow_of_lt {n i : ℕ} (h : i < n) : Access.NameBelow n (.name i) := by
  simp only [Access.NameBelow]
  omega

/-- How many bytes the last length byte promises beyond the end, when `k` bytes of the current label are still to
come. -/
def overrun : ℕ → List UInt8 → ℕ
  | k, [] => k
  | 0, b :: bs => overrun b.toNat bs
  | k + 1, _ :: bs => overrun k bs

theorem overrun_eq (k : ℕ) (bs : List UInt8) :
    overrun k bs = if k ≤ bs.length then overrun 0 (bs.drop k) else k - bs.length := by
  induction bs generalizing k with
  | nil =>
    cases k with
    | zero => rfl
    | succ k => simp [overrun]
  | cons b bs ih =>
    cases k with
    | zero => rfl
    | succ k =>
      rw [overrun, ih]
      simp

/-! ### The collecting loop -/

/-- One turn writes the cell `p` and moves on, or leaves the block as it is. -/
theorem all_scanStepTraced {buffer : List UInt8} {s : Scan} {next : Option Scan} (h : scanStep buffer s = .ok next) :
    (next = none ∧ ∀ q, All q (scanStepTraced buffer s)) ∨
    ∃ s', next = some s' ∧ s.p ≤ s'.p ∧ All (Access.NameBelow s'.p) (scanStepTraced buffer s) := by
  obtain ⟨b, hb, h⟩ := bind_eq_ok.1 h
  have hb : (lift (readByte buffer s.reader) : Log UInt8).outcome = .ok b := hb
  split at h
  · next h0 =>
    obtain rfl := Except.ok.inj h
    refine .inl ⟨rfl, ?_⟩
    intro q
    rw [scanStepTraced, all_bind_ok hb, if_pos h0]
    exact ⟨all_lift _, all_pure _⟩
  next h0 =>
  split at h
  · next h192 =>
    obtain ⟨lo, -, h⟩ := bind_eq_ok.1 h
    obtain rfl := Except.ok.inj h
    have hp : ∀ offset, s.p ≤ (s.jump offset).p := fun _ => le_rfl
    refine .inr ⟨s.jump (pointerOffset b lo), rfl, hp _, ?_⟩
    rw [scanStepTraced, all_bind_ok hb, if_neg h0, if_pos h192, all_bind]
    exact ⟨all_lift _, all_lift _, fun _ _ => all_pure _⟩
  · next h192 =>
    obtain rfl := Except.ok.inj h
    refine .inr ⟨s.push b, rfl, Nat.le_succ s.p, ?_⟩
    rw [scanStepTraced, all_bind_ok hb, if_neg h0, if_neg h192, all_bind_ok (outcome_emit _)]
    exact ⟨all_lift _, (all_emit _).2 (nameBelow_of_lt (Nat.lt_succ_self _)), all_pure _⟩

theorem NameBelow.mono {m n : ℕ} (h : m ≤ n) (a : Access) (ha : a.NameBelow m) : a.NameBelow n := by
  cases a with
  | name index =>
    simp only [Access.NameBelow] at ha ⊢
    omega
  | answer offset => trivial
  | rdata size index => trivial

/-- The loop writes cells before `p` as it is at the end. -/
theorem all_scanLoopTraced {buffer : List UInt8} {n : ℕ} {s s' : Scan} (h : scanLoop buffer n s = .ok s') :
    s.p ≤ s'.p ∧ All (Access.NameBelow s'.p) (scanLoopTraced buffer n s) := by
  induction n generalizing s with
  | zero => cases h
  | succ n ih =>
    obtain ⟨next, hstep, h⟩ := bind_eq_ok.1 h
    have htraced : (scanStepTraced buffer s).outcome = .ok next := (scanStepTraced_outcome ..).trans hstep
    rw [scanLoopTraced, all_bind_ok htraced]
    rcases all_scanStepTraced hstep with ⟨rfl, hall⟩ | ⟨s₁, rfl, hp, hall⟩
    · obtain rfl := Except.ok.inj h
      exact ⟨le_rfl, hall _, all_pure _⟩
    · obtain ⟨hp', hrest⟩ := ih h
      exact ⟨hp.trans hp', hall.mono fun a ha => NameBelow.mono hp' a ha, hrest⟩

/-! ### The dot conversion -/

theorem all_strlenTraced {name : Mem} {last n : ℕ} (h : last < n) :
    All (Access.NameBelow n) (strlenTraced name last) := by
  have hz := firstZero_le name last
  rw [strlenTraced, all_bind_ok (outcome_emits _)]
  refine ⟨?_, all_pure _⟩
  intro a ha
  obtain ⟨k, hk, rfl⟩ := List.mem_map.1 ha
  rw [List.mem_range] at hk
  exact nameBelow_of_lt (by omega)

theorem all_shiftLabelTraced {j n : ℕ} (name : Mem) {i : ℕ} (h : i + j < n) :
    All (Access.NameBelow n) (shiftLabelTraced j name i) := by
  induction j generalizing name i with
  | zero => exact all_pure _
  | succ j ih =>
    rw [shiftLabelTraced, all_bind_ok (outcome_emit _), all_bind_ok (outcome_emit _)]
    refine ⟨(all_emit _).2 ?_, (all_emit _).2 (nameBelow_of_lt (by omega)), ih _ (by omega)⟩
    exact nameBelow_of_lt (i := i + 1) (by omega)

/-- The string from `i` on is what is left to convert of the bytes that were collected. -/
structure Converting (last : ℕ) (m : Mem) (i : ℕ) (rest : List UInt8) : Prop where
  ends : i + rest.length = last
  bytes : slice m i rest.length = rest
  ne_zero : ∀ k < last, m k ≠ 0
  zero : m last = 0

section Turn

variable {last i : ℕ} {m : Mem} {b : UInt8} {rest : List UInt8}

theorem Converting.firstZero (h : Converting last m i rest) : firstZero m last = last :=
  firstZero_eq le_rfl h.zero h.ne_zero

theorem Converting.head (h : Converting last m i (b :: rest)) : m i = b := by
  have := h.bytes
  rw [List.length_cons, slice_succ] at this
  exact (List.cons.inj this).1

/-- The block after one turn at index `i`. -/
theorem Converting.turn (h : Converting last m i (b :: rest)) (hb : b.toNat ≤ rest.length) :
    Converting last (Function.update (shiftLabel b.toNat m i).1 (i + b.toNat) 46) (i + b.toNat + 1)
      (rest.drop b.toNat) := by
  have hends := h.ends
  have hbytes := h.bytes
  rw [List.length_cons] at hends hbytes
  rw [shiftLabel_eq]
  refine ⟨by rw [List.length_drop]; omega, ?_, fun k hk => ?_, ?_⟩
  · rw [slice_update_of_lt _ _ (by omega), List.length_drop]
    have hsplit : rest.length + 1 = 1 + b.toNat + (rest.length - b.toNat) := by omega
    rw [hsplit, slice_add, slice_add, slice_succ, slice_zero] at hbytes
    have htail : slice m (i + 1) b.toNat ++ slice m (i + (1 + b.toNat)) (rest.length - b.toNat) = rest :=
      (List.cons.inj hbytes).2
    have hdrop : (slice m (i + 1) b.toNat ++ slice m (i + (1 + b.toNat)) (rest.length - b.toNat)).drop b.toNat =
        slice m (i + (1 + b.toNat)) (rest.length - b.toNat) := List.drop_left' (length_slice m (i + 1) b.toNat)
    rw [htail] at hdrop
    rw [hdrop, show i + (1 + b.toNat) = i + b.toNat + 1 by omega]
    exact slice_congr fun k hk => if_neg (by omega)
  · by_cases hdot : k = i + b.toNat
    · subst hdot
      rw [Function.update_self]
      decide
    · rw [Function.update_of_ne hdot]
      show (if i ≤ k ∧ k < i + b.toNat then m (k + 1) else m k) ≠ 0
      split
      · exact h.ne_zero _ (by omega)
      · exact h.ne_zero _ hk
  · rw [Function.update_of_ne (by omega)]
    show (if i ≤ last ∧ last < i + b.toNat then m (last + 1) else m last) = 0
    rw [if_neg (by omega), h.zero]

end Turn

/-- Once the index is past the terminator, the conversion is over. -/
theorem dotLoop_past {last n i : ℕ} (m : Mem) (h : last ≤ i) : dotLoop last n m i = (m, i) := by
  have hz := firstZero_le m last
  cases n with
  | zero => rfl
  | succ n => rw [dotLoop, if_neg (by omega)]

theorem all_dotLoopTraced_past {last n i N : ℕ} (m : Mem) (h : last ≤ i) (hN : last < N) :
    All (Access.NameBelow N) (dotLoopTraced last n m i) := by
  have hz := firstZero_le m last
  cases n with
  | zero => exact all_pure _
  | succ n =>
    rw [dotLoopTraced, all_bind_ok (a := firstZero m last) rfl]
    refine ⟨all_strlenTraced hN, ?_⟩
    rw [if_neg (by omega)]
    exact all_pure _

/-- **Where the conversion ends**: at the terminator, or beyond it by what the last length byte promises too much; and
it touches nothing further than that. -/
theorem dotLoop_end {last n i N : ℕ} {m : Mem} {rest : List UInt8} (h : Converting last m i rest)
    (hn : rest.length < n) (hlast : last < N) (hN : last + overrun 0 rest ≤ N) :
    (dotLoop last n m i).2 = last + overrun 0 rest ∧ All (Access.NameBelow N) (dotLoopTraced last n m i) := by
  induction n generalizing m i rest with
  | zero => omega
  | succ n ih =>
    have hends := h.ends
    cases rest with
    | nil =>
      have hi : last ≤ i := by simpa using hends.ge
      rw [dotLoop_past m hi]
      exact ⟨by simpa [overrun] using hends, all_dotLoopTraced_past m hi hlast⟩
    | cons b rest =>
      rw [List.length_cons] at hends hn
      have hlt : i < firstZero m last := by rw [h.firstZero]; omega
      have hover : overrun 0 (b :: rest) = if b.toNat ≤ rest.length then overrun 0 (rest.drop b.toNat)
        else b.toNat - rest.length := overrun_eq b.toNat rest
      rw [dotLoop, if_pos hlt, h.head, dotLoopTraced, all_bind_ok (a := firstZero m last) rfl, if_pos hlt,
        all_bind_ok (outcome_emit _), all_bind_ok (shiftLabelTraced_outcome ..), all_bind_ok (outcome_emit _), h.head]
      have hsnd := shiftLabel_snd b.toNat m i
      -- the turn itself goes as far as the label does
      have hturn : i + b.toNat < N := by
        rw [hover] at hN
        split at hN <;> omega
      have hstrlen : All (Access.NameBelow N) (strlenTraced m last) := all_strlenTraced hlast
      have hstart : (Access.name i).NameBelow N := nameBelow_of_lt (by omega)
      have hhead : All (Access.NameBelow N) (shiftLabelTraced b.toNat m i) := all_shiftLabelTraced m hturn
      have hdot : (Access.name (shiftLabel b.toNat m i).2).NameBelow N := by
        rw [hsnd]
        exact nameBelow_of_lt hturn
      by_cases hb : b.toNat ≤ rest.length
      · rw [if_pos hb] at hover
        have hnext := h.turn hb
        rw [← hsnd] at hnext
        obtain ⟨hend, hall⟩ := ih hnext (by rw [List.length_drop]; omega) (hover ▸ hN)
        rw [← hover] at hend
        exact ⟨hend, hstrlen, (all_emit _).2 hstart, hhead, (all_emit _).2 hdot, hall⟩
      · rw [if_neg hb] at hover
        have hpast : last ≤ (shiftLabel b.toNat m i).2 + 1 := by omega
        refine ⟨?_, hstrlen, (all_emit _).2 hstart, hhead, (all_emit _).2 hdot, ?_⟩
        · show (dotLoop last n _ ((shiftLabel b.toNat m i).2 + 1)).2 = _
          rw [dotLoop_past _ hpast]
          show (shiftLabel b.toNat m i).2 + 1 = _
          omega
        · exact all_dotLoopTraced_past _ hpast hlast

theorem all_dotNameTraced {p : Access → Prop} (last : ℕ) (m : Mem) : All p (dotNameTraced last m) ↔
    All p (dotLoopTraced last (last + 1) m 0) ∧ p (.name ((dotLoop last (last + 1) m 0).2 - 1)) := by
  rw [dotNameTraced, all_bind_ok (dotLoopTraced_outcome ..)]
  cases dotLoop last (last + 1) m 0 with
  | mk name i =>
    show _ ∧ All p (_ >>= _) ↔ _
    rw [all_bind_ok (outcome_emit _), all_emit]
    cases i <;> simp

/-! ### `read_name` -/

theorem RawName.ne_zero {buffer bs : List UInt8} {r k : ℕ} (h : RawName buffer r bs k) : ∀ b ∈ bs, b ≠ 0 := by
  induction h with
  | zero => simp
  | plain _ h0 _ _ ih =>
    intro b hb
    rcases List.mem_cons.1 hb with rfl | hb
    · exact h0
    · exact ih b hb
  | pointer _ _ _ _ ih => exact ih

theorem nameInside_of_nameBelow (a : Access) (h : a.NameBelow 256) : a.NameInside := by
  cases a with
  | name index => exact h
  | answer offset => trivial
  | rdata size index => trivial

/-- **When `read_name` stays in its block.**  For every message and every offset from which the loop over labels and
pointers comes to an end, all its accesses to the block lie within the 256 bytes exactly when it collects at least one
and at most 255 bytes, and the last of their length bytes does not promise more bytes than the block has. -/
theorem name_inside_iff (heap : Mem) {buffer bs : List UInt8} {r k : ℕ} (h : RawName buffer r bs k) :
    All Access.NameInside (readNameTraced heap buffer r) ↔
      bs ≠ [] ∧ bs.length ≤ 255 ∧ bs.length + overrun 0 bs ≤ 256 := by
  obtain ⟨n, s, hn, hname, -, -⟩ := scanLoop_rawName h (Scan.start heap r) rfl
  have hscan := scanLoop_enough hn
  have hname : slice s.name 0 s.p = bs := hname
  have hp : s.p = bs.length := by rw [← hname, length_slice]
  have hconv : Converting s.p (Function.update s.name s.p 0) 0 bs := by
    refine ⟨by omega, ?_, fun i hi => ?_, Function.update_self ..⟩
    · rw [← hp, slice_update_of_ge _ _ (by omega), hname]
    · have hcell := getElem?_slice s.name 0 hi
      rw [hname, Nat.zero_add] at hcell
      rw [Function.update_of_ne (by omega)]
      exact h.ne_zero _ (List.mem_of_getElem? hcell)
  rw [readNameTraced, all_bind_ok (outcome_emit _), all_bind_ok ((scanLoopTraced_outcome ..).trans hscan),
    all_bind_ok (outcome_emit _), all_bind_ok (dotNameTraced_outcome ..), all_dotNameTraced]
  have hturns : bs.length < s.p + 1 := by omega
  constructor
  · rintro ⟨-, -, hterm, ⟨-, hdot⟩, -⟩
    obtain ⟨hend, -⟩ := dotLoop_end (N := s.p + overrun 0 bs + 1) hconv hturns (by omega) (by omega)
    rw [hend] at hdot
    have hterm : Access.NameInside (.name s.p) := (all_emit _).1 hterm
    simp only [Access.NameInside] at hterm hdot
    refine ⟨?_, by omega, by omega⟩
    rintro rfl
    simp [overrun, hp] at hdot
  · rintro ⟨hne, hlen, hover⟩
    have hpos : 0 < bs.length := List.length_pos_iff.2 hne
    obtain ⟨hend, hall⟩ := dotLoop_end (N := 256) hconv hturns (by omega) (by omega)
    obtain ⟨-, hcollect⟩ := all_scanLoopTraced hscan
    refine ⟨(all_emit _).2 ⟨le_rfl, by omega⟩, ?_, (all_emit _).2 ?_, ⟨?_, ?_⟩, all_pure _⟩
    · exact hcollect.mono fun a ha => nameInside_of_nameBelow a (NameBelow.mono (by omega) a ha)
    · simp only [Access.NameInside]
      omega
    · exact hall.mono nameInside_of_nameBelow
    · rw [hend]
      simp only [Access.NameInside]
      omega

theorem name_inside_iff_label : RawName [1, 97, 0] 0 [1, 97] 3 ∧
    All Access.NameInside (readNameTraced (fun _ => 0) [1, 97, 0] 0) := by
  have h : RawName [1, 97, 0] 0 [1, 97] 3 :=
    .plain rfl (by decide) (by decide) (.plain rfl (by decide) (by decide) (.zero rfl))
  exact ⟨h, (name_inside_iff _ h).2 (by decide)⟩

/-- The root name: nothing is collected, and the last dot is removed in front of the block. -/
theorem root_name_outside : RawName [0] 0 [] 1 ∧ ¬ All Access.NameInside (readNameTraced (fun _ => 0) [0] 0) := by
  refine ⟨.zero rfl, ?_⟩
  intro h
  have hout : Access.name (-1) ∈ (readNameTraced (fun _ => 0) [0] 0).trace := by decide
  have hin := h _ hout
  simp [Access.NameInside] at hin

end Shadowc.Dns
