import ProgPara.Example.Systeme
import Mathlib.Logic.Relation

/-!
# The protocol

What the job is for, without its calls and its memory: the father gives the
children their temperatures in rank order, every child acknowledges the one it
got, and the father collects the acknowledgements in rank order.  A `Vue` counts
how far this has gone, and carries the facts that make it a possible progress.

The number of ranks the father serves is a constant of his program; the number
of children is not.
-/

namespace ProgPara.Example

open Function Memory Network

variable {n : ℕ}

def temperatureVoulue (r : Fin (n + 1)) : Int :=
  if r = 0 then temperatureAmbiante else temperatureDepart

def temperatureDe (r : Fin (n + 1)) : Mpi.Message := intBytes (temperatureVoulue r)

/-- The message a child acknowledges with: its `return_value` and the three
bytes behind it. -/
def acquittement (frame : Frame) : Mpi.Message :=
  [1, frame .returnValue 1, frame .returnValue 2, frame .returnValue 3]

@[simp] theorem length_temperatureDe (r : Fin (n + 1)) : (temperatureDe r).length = 4 :=
  rfl

@[simp] theorem length_acquittement (frame : Frame) : (acquittement frame).length = 4 :=
  rfl

theorem temperatureDe_zero : temperatureDe (0 : Fin (n + 1)) = intBytes temperatureAmbiante :=
  rfl

theorem temperatureDe_of_pos {r : Fin (n + 1)} (h : 0 < r.val) :
    temperatureDe r = intBytes temperatureDepart := by
  have hne : r ≠ 0 := by
    rintro rfl
    exact absurd h (by simp)
  rw [temperatureDe, temperatureVoulue, if_neg hne]

/-- The progress of the job.  The first `envois` ranks have been sent their
temperature and the first `receptions` ranks have been heard. -/
structure Vue (n : ℕ) where
  lance : Bool
  envois : ℕ
  receptions : ℕ
  recu : Fin (n + 1) → Bool
  envoye : Fin (n + 1) → Bool
  lance_of_envois : 0 < envois → lance = true
  envois_le : envois ≤ n + 1
  lt_envois {r : Fin (n + 1)} : recu r = true → r < envois
  recu_of_envoye {r : Fin (n + 1)} : envoye r = true → recu r = true
  envoye_of_lt {r : Fin (n + 1)} : r < receptions → envoye r = true
  envois_of_receptions : 0 < receptions → envois = 4
  receptions_le : receptions ≤ 4

namespace Vue

variable (v : Vue n) {r : Fin (n + 1)}

def init (n : ℕ) : Vue n where
  lance := false
  envois := 0
  receptions := 0
  recu := fun _ => false
  envoye := fun _ => false
  lance_of_envois := fun h => absurd h (Nat.lt_irrefl 0)
  envois_le := Nat.zero_le _
  lt_envois := nofun
  recu_of_envoye := id
  envoye_of_lt := fun h => absurd h (Nat.not_lt_zero _)
  envois_of_receptions := fun h => absurd h (Nat.lt_irrefl 0)
  receptions_le := Nat.zero_le _

variable {v} in
theorem recu_eq_false (h : v.envois ≤ r) : v.recu r = false := by
  by_contra hr
  have hlt := v.lt_envois (by simpa using hr)
  omega

variable {v} in
theorem envoye_eq_false (h : v.recu r = false) : v.envoye r = false := by
  by_contra hs
  rw [v.recu_of_envoye (by simpa using hs)] at h
  cases h

variable {v} in
theorem envois_eq_zero (h : v.lance = false) : v.envois = 0 := by
  by_contra he
  rw [v.lance_of_envois (by omega)] at h
  cases h

/-! ## The moves -/

def lancer : Vue n := { v with lance := true, lance_of_envois := fun _ => rfl }

def envoyer (hl : v.lance = true) (he : v.envois = r) (hr : v.receptions = 0) : Vue n :=
  { v with
    envois := r + 1
    lance_of_envois := fun _ => hl
    envois_le := by omega
    lt_envois := fun h => by
      have hlt := v.lt_envois h
      omega
    envois_of_receptions := by omega }

def recevoir (he : r < v.envois) : Vue n :=
  { v with
    recu := update v.recu r true
    lt_envois := fun {q} h => by
      rcases eq_or_ne q r with rfl | hq
      · exact he
      · exact v.lt_envois (by simpa [hq] using h)
    recu_of_envoye := fun {q} h => by
      rcases eq_or_ne q r with rfl | hq
      · simp
      · simpa [hq] using v.recu_of_envoye h }

def acquitter (hr : v.recu r = true) : Vue n :=
  { v with
    envoye := update v.envoye r true
    recu_of_envoye := fun {q} h => by
      rcases eq_or_ne q r with rfl | hq
      · exact hr
      · exact v.recu_of_envoye (by simpa [hq] using h)
    envoye_of_lt := fun {q} h => by
      rcases eq_or_ne q r with rfl | hq
      · simp
      · simpa [hq] using v.envoye_of_lt h }

def encaisser (he : v.envois = 4) (hr : v.receptions = r) (hs : v.envoye r = true)
    (h4 : r.val < 4) : Vue n :=
  { v with
    receptions := r + 1
    envoye_of_lt := fun {q} h => by
      rcases eq_or_ne q r with rfl | hq
      · exact hs
      · refine v.envoye_of_lt ?_
        have hne : q.val ≠ r.val := fun h => hq (Fin.ext h)
        omega
    envois_of_receptions := fun _ => he
    receptions_le := h4 }

inductive Pas (v : Vue n) : Vue n → Prop
  | lancer (hl : v.lance = false) : Pas v v.lancer
  | envoyer {r : Fin (n + 1)} (hl : v.lance = true) (he : v.envois = r)
      (hr : v.receptions = 0) : Pas v (v.envoyer hl he hr)
  | recevoir {r : Fin (n + 1)} (he : r < v.envois) (hr : v.recu r = false) :
      Pas v (v.recevoir he)
  | acquitter {r : Fin (n + 1)} (hr : v.recu r = true) (hs : v.envoye r = false) :
      Pas v (v.acquitter hr)
  | encaisser {r : Fin (n + 1)} (he : v.envois = 4) (hr : v.receptions = r)
      (hs : v.envoye r = true) (h4 : r.val < 4) : Pas v (v.encaisser he hr hs h4)

/-! ## The messages -/

variable (frames : Proc n → Frame)

def sent : Proc n → Proc n → List Mpi.Message
  | .pere, .fils r => if r < v.envois then [temperatureDe r] else []
  | .fils r, .pere => if v.envoye r then [acquittement (frames (.fils r))] else []
  | _, _ => []

def recd : Proc n → Proc n → List Mpi.Message
  | .pere, .fils r => if v.recu r then [temperatureDe r] else []
  | .fils r, .pere => if r < v.receptions then [acquittement (frames (.fils r))] else []
  | _, _ => []

variable {v}

theorem sent_init : (init n).sent frames = fun _ _ => [] := by
  funext p q
  cases p <;> cases q <;> simp [sent, init]

theorem recd_init : (init n).recd frames = fun _ _ => [] := by
  funext p q
  cases p <;> cases q <;> simp [recd, init]

theorem sent_envoyer (hl : v.lance = true) (he : v.envois = r) (hr : v.receptions = 0) :
    (v.envoyer hl he hr).sent frames =
      modifyAt .pere (.fils r) (· ++ [temperatureDe r]) (v.sent frames) := by
  refine eq_modifyAt (by simp [sent, envoyer, he]) fun p q hpq => ?_
  cases p <;> cases q <;> try rfl
  rename_i q
  have hne : q.val ≠ r.val := fun h => hpq ⟨rfl, by rw [Fin.ext h]⟩
  have hiff : q.val < r + 1 ↔ q.val < v.envois := by omega
  simp only [sent, envoyer, hiff]

theorem recd_recevoir (he : r < v.envois) (hr : v.recu r = false) :
    (v.recevoir he).recd frames =
      modifyAt .pere (.fils r) (· ++ [temperatureDe r]) (v.recd frames) := by
  refine eq_modifyAt (by simp [recd, recevoir, hr]) fun p q hpq => ?_
  cases p <;> cases q <;> try rfl
  rename_i q
  have hne : q ≠ r := fun h => hpq ⟨rfl, by rw [h]⟩
  simp only [recd, recevoir, update_of_ne hne]

theorem sent_acquitter (hr : v.recu r = true) (hs : v.envoye r = false) :
    (v.acquitter hr).sent frames =
      modifyAt (.fils r) .pere (· ++ [acquittement (frames (.fils r))])
        (v.sent frames) := by
  refine eq_modifyAt (by simp [sent, acquitter, hs]) fun p q hpq => ?_
  cases p <;> cases q <;> try rfl
  rename_i q
  have hne : q ≠ r := fun h => hpq ⟨by rw [h], rfl⟩
  simp only [sent, acquitter, update_of_ne hne]

theorem recd_encaisser (he : v.envois = 4) (hr : v.receptions = r)
    (hs : v.envoye r = true) (h4 : r.val < 4) :
    (v.encaisser he hr hs h4).recd frames =
      modifyAt (.fils r) .pere (· ++ [acquittement (frames (.fils r))])
        (v.recd frames) := by
  refine eq_modifyAt (by simp [recd, encaisser, hr]) fun p q hpq => ?_
  cases p <;> cases q <;> try rfl
  rename_i q
  have hne : q.val ≠ r.val := fun h => hpq ⟨by rw [Fin.ext h], rfl⟩
  have hiff : q.val < r + 1 ↔ q.val < v.receptions := by omega
  simp only [recd, encaisser, hiff]

end Vue

end ProgPara.Example
