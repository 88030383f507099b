import ProgPara.Example.Jalon1
import Mathlib.Data.Fintype.Option
import Mathlib.Data.Fintype.Basic
import Mathlib.Data.List.TakeWhile

/-!
# The job

`mpirun` starts one father with the argument `n`; its spawn starts
`coordinateur` in rank 0 and `prg1` in the ranks `1` to `n` of the remote group.
-/

namespace ProgPara.Example

open Memory Network

inductive Proc (n : ℕ) where
  | pere
  | fils (r : Fin (n + 1))
  deriving DecidableEq

variable {n : ℕ}

def Proc.equivOption : Option (Fin (n + 1)) ≃ Proc n where
  toFun o := o.elim .pere .fils
  invFun
    | .pere => none
    | .fils r => some r
  left_inv o := by cases o <;> rfl
  right_inv p := by cases p <;> rfl

instance : Fintype (Proc n) := Fintype.ofEquiv _ Proc.equivOption

abbrev Local (n : ℕ) : Proc n → Type
  | .pere => Pere (Proc n)
  | .fils _ => Fils (Proc n)

def lances (n : ℕ) : List Programme :=
  Mpi.spawned 2 cmds.toList (np n).toList

theorem lances_eq (n : ℕ) : lances n = .coordinateur :: List.replicate n .prg1 := by
  simp [lances, Mpi.spawned, cmds, np]

theorem length_lances (n : ℕ) : (lances n).length = n + 1 := by
  simp [lances_eq]

def programme (r : Fin (n + 1)) : Programme :=
  (lances n).get (r.cast (length_lances n).symm)

theorem programme_eq (r : Fin (n + 1)) :
    programme r = if r = 0 then .coordinateur else .prg1 := by
  refine r.cases ?_ fun r => ?_
  · simp [programme, lances_eq]
  · simp [programme, lances_eq]

def enfants (n : ℕ) : Mpi.Intercomm (Proc n) := ⟨n + 1, .fils⟩

def versPere (n : ℕ) : Mpi.Intercomm (Proc n) := ⟨1, fun _ => .pere⟩

def zeros : Proc n → Frame := fun _ _ _ => 0

/-- The job with argument `n`.  `frames` gives each process its stack. -/
def systeme (n : ℕ) (frames : Proc n → Frame) :
    Program (Proc n) Mpi.Message Call (Local n) where
  act
    | .pere => jalon1 (enfants n) (frames .pere)
    | .fils r => code (programme r) (some (versPere n)) r (frames (.fils r))
  entry
    | .pere => pereEntry (toString n) (frames .pere)
    | .fils r => filsEntry (frames (.fils r))
  parent
    | .pere => none
    | .fils _ => some .pere

abbrev Configuration (n : ℕ) := Config (Proc n) Mpi.Message (Local n)

abbrev Etat (n : ℕ) := State (Proc n) Mpi.Message Call (Local n)

/-! ## Reading the argument -/

theorem isspace_of_isDigit {c : Char} (h : c.isDigit = true) : isspace c = false := by
  have hc : 48 ≤ c.val := by
    simp only [Char.isDigit, Bool.and_eq_true, decide_eq_true_eq] at h
    exact h.1
  have hne : c ≠ ' ' := by
    rintro rfl
    exact absurd hc (by decide)
  have hlt : ¬c.val ≤ 13 := fun hle => absurd (UInt32.le_trans hc hle) (by decide)
  simp [isspace, hne, hlt]

theorem atoi_digits {s : String} {l : List Char} (hs : s.toList = l)
    (hl : ∀ c ∈ l, c.isDigit = true) : atoi s = Nat.ofDigitChars 10 l 0 := by
  cases l with
  | nil => simp [atoi, hs]
  | cons c l =>
      have hc := hl c (by simp)
      have hdrop : (c :: l).dropWhile isspace = c :: l := by
        simp [isspace_of_isDigit hc]
      have htake : (c :: l).takeWhile Char.isDigit = c :: l :=
        List.takeWhile_eq_self_iff.mpr hl
      rw [atoi, hs, hdrop]
      split
      · rename_i heq
        cases heq
        exact absurd hc (by decide)
      · rename_i heq
        cases heq
        exact absurd hc (by decide)
      · rw [htake]

/-- `atoi` reads back the decimal digits of `n`, so a father launched with them
has `nombre_prog1 = n`. -/
theorem atoi_toString (n : ℕ) : atoi (toString n) = n := by
  have hdigits : (toString n).toList = Nat.toDigits 10 n := Nat.toList_repr
  rw [atoi_digits hdigits fun c hc =>
    Nat.isDigit_of_mem_toDigits (by decide) (by decide) hc,
    Nat.ofDigitChars_ten_toDigits]

end ProgPara.Example
