import Mathlib.Data.Nat.Init

/-!
# Sixteen-bit sequence numbers

A sender numbers its messages without bound and puts the low sixteen bits on
the wire.  The receiver compares a number with the one it expects next by the
distance from the latter, counted forward around the circle.  As long as what
is in flight spans fewer than `2 ^ 16` numbers, distances order messages as
their unbounded numbers do.
-/

namespace ProgPara.Sequence

/-- How far ahead of `e` the number `s` lies, going up and around. -/
def distance (e s : UInt16) : Nat := (s - e).toNat

theorem distance_cases (e s : UInt16) :
    e.toNat ≤ s.toNat ∧ distance e s + e.toNat = s.toNat ∧ s.toNat < 65536 ∨
      s.toNat < e.toNat ∧ distance e s + e.toNat = s.toNat + 65536 := by
  have he := e.toNat_lt
  have hs := s.toNat_lt
  rw [distance, UInt16.toNat_sub]
  omega

theorem distance_lt (e s : UInt16) : distance e s < 65536 := (s - e).toNat_lt

theorem distance_inj {e a b : UInt16} : distance e a = distance e b ↔ a = b := by
  rw [distance, distance, UInt16.toNat_inj]
  constructor
  · intro h
    calc a = a - e + e := (UInt16.sub_add_cancel a e).symm
      _ = b - e + e := by rw [h]
      _ = b := UInt16.sub_add_cancel b e
  · exact fun h => h ▸ rfl

theorem distance_pos {e s : UInt16} : 0 < distance e s ↔ s ≠ e := by
  have hself : distance e e = 0 := by simp [distance]
  rw [Nat.pos_iff_ne_zero, ← hself]
  exact not_congr distance_inj

theorem distance_succ {e s : UInt16} (h : s ≠ e) :
    distance (e + 1) s + 1 = distance e s := by
  have he := e.toNat_lt
  have hs := s.toNat_lt
  have hne : s.toNat ≠ e.toNat := fun h' => h (UInt16.toNat_inj.mp h')
  have hsucc : (e + 1).toNat = (e.toNat + 1) % 65536 := by simp [UInt16.toNat_add]
  have h₁ := distance_cases e s
  have h₂ := distance_cases (e + 1) s
  omega

def wire (k : Nat) : UInt16 := UInt16.ofNat k

@[simp] theorem wire_toNat (k : Nat) : (wire k).toNat = k % 65536 := by simp [wire]

theorem wire_succ (k : Nat) : wire (k + 1) = wire k + 1 := by
  rw [← UInt16.toNat_inj, UInt16.toNat_add, wire_toNat, wire_toNat]
  simp

/-- Inside a window the distance is the difference of the unbounded numbers. -/
theorem distance_wire {m k : Nat} (hle : m ≤ k) (hlt : k < m + 65536) :
    distance (wire m) (wire k) = k - m := by
  have h := distance_cases (wire m) (wire k)
  rw [wire_toNat, wire_toNat] at h
  omega

theorem wire_inj {m j k : Nat} (hj : m ≤ j) (hj' : j < m + 65536) (hk : m ≤ k)
    (hk' : k < m + 65536) : wire j = wire k ↔ j = k := by
  have hdj := distance_wire hj hj'
  have hdk := distance_wire hk hk'
  rw [← distance_inj (e := wire m)]
  omega

end ProgPara.Sequence
