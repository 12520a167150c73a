import Shadowc.Dns.Received

/-!
# Which datagrams end

A name is read along labels and pointers.  The reading ends when this walk does not come to an offset that leads back
to itself (`Walk.Loops`), and a datagram ends when this holds of every name the parser comes to: `datagram_ends_iff`.
-/

namespace Shadowc.Dns

open Lib Reading

theorem handleData_hang_iff {Cb : Type} (env : Env) (s : Resolver Cb) (data : List UInt8) :
    s.handleData env data = .error .hang ↔ parseResponse env.heap data = .error .hang := by
  rcases handleData_outcome env s data with ⟨e, hp, hd⟩ | ⟨answers, r, hp, hd⟩
  · rw [hp, hd]
    simp
  · rw [hp, hd]
    simp

/-- **Which datagrams end.**  The loop of `read_name` ends from an offset exactly when the walk along labels and
pointers from there does not come to an offset that leads back to itself; `parse_response` and `handle_data` end
exactly when this holds of every name they come to. -/
theorem datagram_ends_iff (env : Env) (data : List UInt8) :
    (∀ start, (∃ n, scanLoop data n (Scan.start env.heap start) ≠ .error .hang) ↔ ¬ Walk.Loops (hop data) start) ∧
    (parseResponse env.heap data ≠ .error .hang ↔ ∀ p, NameStart data p → ¬ Walk.Loops (hop data) p) ∧
    ∀ (Cb : Type) (s : Resolver Cb),
      s.handleData env data ≠ .error .hang ↔ ∀ p, NameStart data p → ¬ Walk.Loops (hop data) p := by
  have hparse : parseResponse env.heap data ≠ .error .hang ↔ ∀ p, NameStart data p → ¬ Walk.Loops (hop data) p := by
    rw [Ne, parseResponse_hang_iff]
    simp only [not_exists, not_and]
  refine ⟨fun start => ?_, hparse, fun Cb s => ?_⟩
  · have h := loops_iff_hang data (Scan.start env.heap start)
    rw [← not_iff_not, not_exists, not_not]
    simp only [ne_eq, not_not]
    exact h.symm
  · rw [Ne, handleData_hang_iff]
    exact hparse

/-! ### A pointer to itself -/

/-- A response to an empty question, whose answer starts with a pointer to itself. -/
def selfPointer : List UInt8 := replyHeader 1 ++ [0, 0, 1, 0, 1, 192, 17]

theorem selfPointer_hop : hop selfPointer 17 = some 17 := by
  have hoff : pointerOffset 192 17 = 17 := by
    rw [pointerOffset_eq (by decide)]
    rfl
  simp [hop, selfPointer, replyHeader, be16, hoff]

theorem selfPointer_loops : Walk.Loops (hop selfPointer) 17 :=
  ⟨17, .refl, .single selfPointer_hop⟩

/-- The resolver hangs on a datagram of 19 bytes. -/
theorem selfPointer_hangs :
    (∀ n, scanLoop selfPointer n (Scan.start Env.zero.heap 17) = .error .hang) ∧
      parseResponse Env.zero.heap selfPointer = .error .hang ∧
      askedForA.handleData .zero selfPointer = .error .hang := by
  have hstart : NameStart selfPointer 17 := ⟨0, 1, rfl, ⟨0, 1, rfl, rfl, rfl⟩, .owner⟩
  have hparse := (parseResponse_hang_iff Env.zero.heap selfPointer).2 ⟨17, hstart, selfPointer_loops⟩
  exact ⟨(loops_iff_hang selfPointer (Scan.start _ 17)).1 selfPointer_loops, hparse, (handleData_hang_iff ..).2 hparse⟩

end Shadowc.Dns
